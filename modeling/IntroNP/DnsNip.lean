/-
# The nip service of dnsd

`niplike` of record.cpp against the pattern that the homework asks for: four octets, any number
of labels of letters and digits, and the domain of the zone.

* `NipPattern` : the pattern; `Synthesised` : the lookup answers with the synthesised record;
* `synthesised_iff` : the names for which it does so have exactly one label between the octets
  and the zone;
* `synthesised_iff_pattern_iff` : the names on which the two agree.
-/
import IntroNP.DnsZone

namespace Dnsd

/-! ## The pattern -/

/-- One to three decimal digits with a value of at most 255 and no superfluous zero. -/
def NipOctet (t : Bytes) : Prop := t.length ≤ 3 ∧ IsOctet t

instance (t : Bytes) : Decidable (NipOctet t) := inferInstanceAs (Decidable (_ ∧ _))

/-- One to 61 letters and digits. -/
def NipLabel (t : Bytes) : Prop :=
  1 ≤ t.length ∧ t.length ≤ 61 ∧ ∀ b ∈ t, isDigit b = true ∨ isAlpha b = true

instance (t : Bytes) : Decidable (NipLabel t) := inferInstanceAs (Decidable (_ ∧ _ ∧ _))

/-- The labels of a name, from the leaf on, match the pattern for a zone. -/
def NipPattern (base name : DN) : Prop :=
  ∃ a b c d ls, name.reverse = (a :: b :: c :: d :: ls) ++ base.reverse ∧
    (∀ t ∈ [a, b, c, d], NipOctet t) ∧ ∀ l ∈ ls, NipLabel l

/-- The record that the first four labels of a name stand for. -/
def NipRecord (name : DN) (rr : Record) : Prop :=
  ∃ a b c d ls, name.reverse = a :: b :: c :: d :: ls ∧
    rr.toQuestion = ⟨name, TYPE.A, CLAS.IN⟩ ∧ rr.ttl = 1 ∧
    rr.rdata = [a, b, c, d].map fun t => UInt8.ofNat (decVal t)

/-- The lookup of the address of a name answers with the one record that `niplike` makes. -/
def Synthesised (z : Zone) (name : DN) : Prop :=
  ∃ rr, niplike name z.domain = .ok [rr] ∧ z.get ⟨name, TYPE.A, CLAS.IN⟩ = .ok [rr] ∧
    NipRecord name rr

/-! ## The matcher -/

/-- The matcher sees the labels in front of the zone. -/
theorem niplike_append (base : DN) (sub : List Bytes) :
    niplike (base ++ sub.reverse) base = match sub with
      | [a, b, c, d, e] =>
          if e.length < 62 ∧ ∀ label ∈ [a, b, c, d], label.length ≤ 3 ∧ label.all isDigit then
            (Record.new (base ++ sub.reverse) .A .IN 1 (dn2s [d, c, b, a]).dropLast).map
              fun rr => [rr]
          else .ok []
      | _ => .ok [] := by
  rewrite [niplike, minus_append, List.reverse_reverse]
  rfl

/-- The text of the address. -/
theorem dn2s_dropLast (a b c d : Bytes) :
    (dn2s [d, c, b, a]).dropLast
      = a ++ ch '.' :: (b ++ ch '.' :: (c ++ ch '.' :: d)) := by
  have happend : dn2s [d, c, b, a]
      = (a ++ ch '.' :: (b ++ ch '.' :: (c ++ ch '.' :: d))) ++ [ch '.'] := by
    simp [dn2s]
  rw [happend, List.dropLast_concat]

theorem notMem_of_isDigit {t : Bytes} {x : UInt8} (h : ∀ b ∈ t, isDigit b = true)
    (hx : isDigit x = false) : x ∉ t := by
  intro hmem
  rw [h x hmem] at hx
  cases hx

/-- The data of the synthesised record, which exists when the four labels are octets. -/
theorem rdata_quad {a b c d r : Bytes}
    (h : ∀ t ∈ [a, b, c, d], ∀ x ∈ t, isDigit x = true) :
    Rdata TYPE.A (a ++ ch '.' :: (b ++ ch '.' :: (c ++ ch '.' :: d))) = .ok r ↔
      (∀ t ∈ [a, b, c, d], IsOctet t) ∧ r = [a, b, c, d].map fun t => UInt8.ofNat (decVal t) := by
  have hdot : ∀ t ∈ [a, b, c, d], ch '.' ∉ t := fun t ht => notMem_of_isDigit (h t ht) (by decide)
  have hnul : ∀ t ∈ [a, b, c, d], 0 ∉ t := fun t ht => notMem_of_isDigit (h t ht) (by decide)
  have hcstr : cstr (a ++ ch '.' :: (b ++ ch '.' :: (c ++ ch '.' :: d)))
      = a ++ ch '.' :: (b ++ ch '.' :: (c ++ ch '.' :: d)) := by
    apply cstr_eq_self
    have hch : (0 : UInt8) ≠ ch '.' := by decide
    simp only [List.mem_append, List.mem_cons, hch, false_or, not_or]
    exact ⟨hnul a (by simp), hnul b (by simp), hnul c (by simp), hnul d (by simp)⟩
  have hpton : inetPton4 (a ++ ch '.' :: (b ++ ch '.' :: (c ++ ch '.' :: d)))
      = do return [← octet a, ← octet b, ← octet c, ← octet d] :=
    inetPton4_join (hdot a (by simp)) (hdot b (by simp)) (hdot c (by simp)) (hdot d (by simp))
  rw [Rdata, if_pos rfl, inetPton, hcstr, hpton]
  by_cases hoctets : ∀ t ∈ [a, b, c, d], IsOctet t
  · have ho : ∀ t ∈ [a, b, c, d], octet t = some (UInt8.ofNat (decVal t)) := fun t ht => by
      rw [octet, if_pos (hoctets t ht)]
    simp only [ho a (by simp), ho b (by simp), ho c (by simp), ho d (by simp),
      Option.bind_eq_bind, Option.bind_some, Option.pure_def, Except.ok.injEq]
    exact ⟨fun hr => ⟨hoctets, hr.symm⟩, fun hr => hr.2.symm⟩
  · have hnone : (do return [← octet a, ← octet b, ← octet c, ← octet d] : Option Bytes)
        = none := by
      cases hdo : (do return [← octet a, ← octet b, ← octet c, ← octet d] : Option Bytes) with
      | none => rfl
      | some r =>
          refine absurd (fun t ht => ?_) hoctets
          simp only [Option.bind_eq_bind, Option.bind_eq_some_iff, octet,
            Option.ite_none_right_eq_some] at hdo
          obtain ⟨_, ⟨ha, -⟩, _, ⟨hb, -⟩, _, ⟨hc, -⟩, _, ⟨hd, -⟩, -⟩ := hdo
          simp only [List.mem_cons, List.not_mem_nil, or_false] at ht
          rcases ht with rfl | rfl | rfl | rfl
          · exact ha
          · exact hb
          · exact hc
          · exact hd
    rw [hnone]
    exact ⟨fun hr => absurd hr (by simp), fun hr => absurd hr.1 hoctets⟩

/-- The matcher finds the address of a name that has exactly one label between the octets and
the zone, of at most 61 bytes. -/
theorem niplike_eq_ok {base : DN} {sub : List Bytes} {rr : Record} :
    niplike (base ++ sub.reverse) base = .ok [rr] ↔
      ∃ a b c d e, sub = [a, b, c, d, e] ∧ e.length ≤ 61 ∧ (∀ t ∈ [a, b, c, d], NipOctet t) ∧
        Record.new (base ++ sub.reverse) TYPE.A CLAS.IN 1
          (a ++ ch '.' :: (b ++ ch '.' :: (c ++ ch '.' :: d))) = .ok rr := by
  rw [niplike_append]
  constructor
  · intro h
    split at h
    · next a b c d e =>
        by_cases hshape : e.length < 62 ∧
            ∀ label ∈ [a, b, c, d], label.length ≤ 3 ∧ label.all isDigit
        case neg =>
          rw [if_neg hshape] at h
          cases h
        rw [if_pos hshape, dn2s_dropLast, Except.map_eq_ok_iff] at h
        obtain ⟨hlen, hdigits⟩ := hshape
        obtain ⟨r, hnew, hr⟩ := h
        obtain rfl : r = rr := List.singleton_inj.mp hr
        -- the record exists, so `inet_pton` has accepted the four labels
        obtain ⟨hq, -, hdata⟩ := Record.new_eq_ok hnew
        have hrdata := r.rdata_eq
        rw [hdata, congrArg Question.type hq] at hrdata
        obtain ⟨hoctets, -⟩ :=
          (rdata_quad fun t ht => List.all_eq_true.mp (hdigits t ht).2).mp hrdata
        exact ⟨a, b, c, d, e, rfl, by omega, fun t ht => ⟨(hdigits t ht).1, hoctets t ht⟩, hnew⟩
    · cases h
  · rintro ⟨a, b, c, d, e, rfl, hlen, hoctets, hnew⟩
    have hshape : e.length < 62 ∧
        ∀ label ∈ [a, b, c, d], label.length ≤ 3 ∧ label.all isDigit :=
      ⟨by omega, fun t ht => ⟨(hoctets t ht).1, List.all_eq_true.mpr (hoctets t ht).2.2.1⟩⟩
    show (if _ then _ else _) = _
    rw [if_pos hshape, dn2s_dropLast, hnew]
    rfl

/-- The names for which the lookup synthesises a record. -/
theorem synthesised_iff {z : Zone} {sub : List Bytes} :
    Synthesised z (z.domain ++ sub.reverse) ↔
      ∃ a b c d e, sub = [a, b, c, d, e] ∧ e.length ≤ 61 ∧ ∀ t ∈ [a, b, c, d], NipOctet t := by
  constructor
  · rintro ⟨rr, hnip, -, -⟩
    obtain ⟨a, b, c, d, e, hsub, hlen, hoctets, -⟩ := niplike_eq_ok.mp hnip
    exact ⟨a, b, c, d, e, hsub, hlen, hoctets⟩
  · rintro ⟨a, b, c, d, e, hsub, hlen, hoctets⟩
    have hdigits : ∀ t ∈ [a, b, c, d], ∀ x ∈ t, isDigit x = true := fun t ht =>
      (hoctets t ht).2.2.1
    have hrdata := (rdata_quad hdigits).mpr ⟨fun t ht => (hoctets t ht).2, rfl⟩
    have hnew := Record.new_of_rdata (z.domain ++ sub.reverse) CLAS.IN 1 hrdata
    have hnip := niplike_eq_ok.mpr ⟨a, b, c, d, e, hsub, hlen, hoctets, hnew⟩
    refine ⟨_, hnip, ?_, a, b, c, d, e :: z.domain.reverse, ?_, rfl, rfl, rfl⟩
    · have hwithin : within (z.domain ++ sub.reverse) z.domain := List.prefix_append _ _
      exact Zone.get_of_nip hwithin hnip
    · rw [hsub]
      simp

/-- The pattern, for a name that lies in the zone. -/
theorem nipPattern_append {base : DN} {sub : List Bytes} :
    NipPattern base (base ++ sub.reverse) ↔ ∃ a b c d ls, sub = a :: b :: c :: d :: ls ∧
      (∀ t ∈ [a, b, c, d], NipOctet t) ∧ ∀ l ∈ ls, NipLabel l := by
  simp only [NipPattern, List.reverse_append, List.reverse_reverse, List.append_cancel_right_eq]

/-! ## Where they agree -/

/-- The labels between the octets and the zone: one label of letters and digits or one that is
too long for both, or several of which one is not a label of the pattern. -/
def RestAgrees : List Bytes → Prop
  | [] => False
  | [l] => (∀ x ∈ l, isDigit x = true ∨ isAlpha x = true) ∨ 61 < l.length
  | ls => ∃ l ∈ ls, ¬ NipLabel l

/-- The labels in front of the zone: if they begin with four octets, the others are as above. -/
def NipAgrees : List Bytes → Prop
  | a :: b :: c :: d :: ls => (∀ t ∈ [a, b, c, d], NipOctet t) → RestAgrees ls
  | _ => True

theorem restAgrees_iff {ls : List Bytes} (hpos : ∀ l ∈ ls, 1 ≤ l.length) :
    ((∃ e, ls = [e] ∧ e.length ≤ 61) ↔ ∀ l ∈ ls, NipLabel l) ↔ RestAgrees ls := by
  match ls with
  | [] => simp [RestAgrees]
  | [l] =>
      have hl := hpos l List.mem_cons_self
      have hsingle : (∃ e, [l] = [e] ∧ e.length ≤ 61) ↔ l.length ≤ 61 := by simp
      simp only [hsingle, List.mem_singleton, forall_eq, NipLabel, hl, true_and, RestAgrees]
      by_cases hlen : l.length ≤ 61
      · simp [hlen]
      · simp [hlen, not_le.mp hlen]
  | l :: m :: ls =>
      have hnone : ¬ ∃ e, l :: m :: ls = [e] ∧ e.length ≤ 61 := by simp
      simp only [hnone, false_iff, RestAgrees, not_forall, exists_prop]

/-- The lookup synthesises a record for exactly the names of the pattern, as long as the name is
one of these. -/
theorem synthesised_iff_pattern_iff {z : Zone} {name : DN} (hname : within name z.domain)
    (hlabels : ∀ l ∈ name, 1 ≤ l.length ∧ l.length ≤ 63) :
    (Synthesised z name ↔ NipPattern z.domain name) ↔
      NipAgrees (minus name z.domain).reverse := by
  obtain ⟨s, rfl⟩ := hname
  obtain ⟨sub, rfl⟩ : ∃ sub : List Bytes, s = sub.reverse := ⟨s.reverse, s.reverse_reverse.symm⟩
  rw [minus_append, List.reverse_reverse, synthesised_iff, nipPattern_append]
  have hpos : ∀ l ∈ sub, 1 ≤ l.length := fun l hl =>
    (hlabels l (List.mem_append_right _ (List.mem_reverse.mpr hl))).1
  match sub with
  | [] | [_] | [_, _] | [_, _, _] => simp [NipAgrees]
  | a :: b :: c :: d :: ls =>
      have hsynthesised : (∃ a' b' c' d' e, a :: b :: c :: d :: ls = [a', b', c', d', e] ∧
          e.length ≤ 61 ∧ ∀ t ∈ [a', b', c', d'], NipOctet t)
            ↔ (∃ e, ls = [e] ∧ e.length ≤ 61) ∧ ∀ t ∈ [a, b, c, d], NipOctet t := by
        constructor
        · rintro ⟨_, _, _, _, e, heq, hlen, hoctets⟩
          cases heq
          exact ⟨⟨e, rfl, hlen⟩, hoctets⟩
        · rintro ⟨⟨e, rfl, hlen⟩, hoctets⟩
          exact ⟨a, b, c, d, e, rfl, hlen, hoctets⟩
      have hpattern : (∃ a' b' c' d' ls', a :: b :: c :: d :: ls = a' :: b' :: c' :: d' :: ls' ∧
          (∀ t ∈ [a', b', c', d'], NipOctet t) ∧ ∀ l ∈ ls', NipLabel l)
            ↔ (∀ t ∈ [a, b, c, d], NipOctet t) ∧ ∀ l ∈ ls, NipLabel l := by
        constructor
        · rintro ⟨_, _, _, _, _, heq, hoctets, hls⟩
          cases heq
          exact ⟨hoctets, hls⟩
        · rintro ⟨hoctets, hls⟩
          exact ⟨a, b, c, d, ls, rfl, hoctets, hls⟩
      rw [hsynthesised, hpattern, NipAgrees]
      have hrest : _ ↔ RestAgrees ls := restAgrees_iff fun l hl => hpos l (by simp [hl])
      by_cases hoctets : ∀ t ∈ [a, b, c, d], NipOctet t
      · rw [and_iff_left hoctets, and_iff_right hoctets, hrest]
        exact ⟨fun h _ => h, fun h => h hoctets⟩
      · simp only [hoctets, and_false, false_and, false_implies]

/-- With one label between the octets and the zone they agree. -/
theorem synthesised_iff_pattern_iff_bare :
    (Synthesised bare (s2dn (ascii "1.2.3.4.w.a.")) ↔
      NipPattern bare.domain (s2dn (ascii "1.2.3.4.w.a."))) ↔
      NipAgrees (minus (s2dn (ascii "1.2.3.4.w.a.")) bare.domain).reverse :=
  synthesised_iff_pattern_iff (by decide +kernel) (by decide +kernel)

/-- With none they do not. -/
theorem nip_without_label :
    within (s2dn (ascii "1.2.3.4.a.")) bare.domain ∧
      (∀ l ∈ s2dn (ascii "1.2.3.4.a."), 1 ≤ l.length ∧ l.length ≤ 63) ∧
      ¬ (Synthesised bare (s2dn (ascii "1.2.3.4.a.")) ↔
        NipPattern bare.domain (s2dn (ascii "1.2.3.4.a."))) := by
  refine ⟨by decide +kernel, by decide +kernel, fun hiff => ?_⟩
  have hpattern : NipPattern bare.domain (s2dn (ascii "1.2.3.4.a.")) :=
    ⟨ascii "1", ascii "2", ascii "3", ascii "4", [], by decide +kernel, by decide +kernel,
      List.forall_mem_nil _⟩
  obtain ⟨rr, hnip, -⟩ := hiff.mpr hpattern
  have hnone : niplike (s2dn (ascii "1.2.3.4.a.")) bare.domain = .ok [] := by decide +kernel
  rw [hnone] at hnip
  cases hnip

end Dnsd
