/-
# Domain names of dnsd

The type `DN` of `Homework/2/dnsd` and its functions: a name is the vector of its labels with
the top-level label first, written as text with dots or as length-prefixed labels on the wire.
`split` is taken to yield no piece after a dot at the end.

* `within`, `minus` : the operators `%` and `-`;
* `s2dn`, `dn2s`, `dn2data`, `data2dn` : the conversions;
* `minus_append`, `s2dn_separated`, `data2dn_dn2data`, `dn2data_data2dn` : what they do;
* `name_codec`, `name_algebra` : names on the wire are read back, and so are names as text; a name
  is the suffix it lies within and the rest.
-/
import IntroNP.Bytes
import IntroNP.Pieces

namespace Dnsd

/-! ## The functions of dn.cpp -/

/-- `DN`, top-level label first. -/
abbrev DN := List Bytes

/-- `operator%`: the second name is a suffix of the first one. -/
def within (a b : DN) : Prop := b <+: a

instance (a b : DN) : Decidable (within a b) := inferInstanceAs (Decidable (b <+: a))

/-- `operator-`: the first name relative to the second one. -/
def minus (a b : DN) : DN :=
  if within a b then (b.foldl (fun r _ => r.dropLast) a.reverse).reverse else a

/-- `s2dn`. -/
def s2dn (name : Bytes) : DN :=
  if name = ascii "@" then [] else (pieces (ch '.') name).reverse

/-- `dn2s`. -/
def dn2s (domain : DN) : Bytes := (domain.reverse.map (· ++ [ch '.'])).flatten

/-- `dn2data`. -/
def dn2data (domain : DN) : Bytes :=
  (domain.reverse.map (fun label => UInt8.ofNat label.length :: label)).flatten ++ [0]

/-- The loop of `data2dn`: the labels in the order of the wire and what follows the name.  A read
past the end of the data is `none`. -/
def readLabels : ℕ → Bytes → Option (List Bytes × Bytes)
  | 0, _ => none
  | _ + 1, [] => none
  | fuel + 1, b :: s =>
      if b = 0 then some ([], s)
      else if b.toNat ≤ s.length then
        (readLabels fuel (s.drop b.toNat)).map fun r => (s.take b.toNat :: r.1, r.2)
      else none

/-- `data2dn`. -/
def data2dn (data : Bytes) : Option (DN × Bytes) :=
  (readLabels data.length data).map fun r => (r.1.reverse, r.2)

/-! ## Facts -/

theorem foldl_dropLast (b r : DN) :
    b.foldl (fun r _ => r.dropLast) r = r.take (r.length - b.length) := by
  induction b generalizing r with
  | nil => simp
  | cons x b ih =>
      rw [List.foldl_cons, ih, List.dropLast_eq_take, List.take_take, List.length_take,
        List.length_cons]
      congr 1
      omega

/-- Subtracting a suffix of a name leaves the labels in front of it. -/
theorem minus_append (b s : DN) : minus (b ++ s) b = s := by
  have hwithin : within (b ++ s) b := List.prefix_append b s
  rw [minus, if_pos hwithin, foldl_dropLast, List.reverse_append]
  have hlen : (s.reverse ++ b.reverse).length - b.length = s.reverse.length := by
    simp only [List.length_append, List.length_reverse]
    omega
  rw [hlen, List.take_left, List.reverse_reverse]

/-- Dot-separated labels, with or without a dot at the end. -/
theorem s2dn_separated {labels : List Bytes} {last : Bool} (hdot : ∀ l ∈ labels, ch '.' ∉ l)
    (hne : ∀ l ∈ labels, l ≠ []) (hat : separated (ch '.') last labels ≠ ascii "@") :
    s2dn (separated (ch '.') last labels) = labels.reverse := by
  rw [s2dn, if_neg hat, pieces_separated hdot]
  exact Or.inr fun t ht => hne t (List.mem_of_getLast? ht)

/-- The length of a written name: its labels, a byte for each and one for the root. -/
theorem length_dn2data (d : DN) : (dn2data d).length = d.reverse.flatten.length + d.length + 1 := by
  have hlen : ∀ labels : List Bytes,
      (labels.map (fun label => UInt8.ofNat label.length :: label)).flatten.length
        = labels.flatten.length + labels.length := by
    intro labels
    induction labels with
    | nil => rfl
    | cons l labels ih =>
        simp only [List.map_cons, List.flatten_cons, List.length_append, List.length_cons, ih]
        omega
  rw [dn2data, List.length_append, hlen, List.length_reverse, List.length_singleton]

/-- The loop has enough fuel for a name that stands in its data. -/
theorem readLabels_encode {labels : List Bytes}
    (h : ∀ l ∈ labels, 1 ≤ l.length ∧ l.length ≤ 255) (s : Bytes) {fuel : ℕ}
    (hfuel : labels.length < fuel) :
    readLabels fuel ((labels.map (fun l => UInt8.ofNat l.length :: l)).flatten ++ [0] ++ s)
      = some (labels, s) := by
  induction labels generalizing fuel with
  | nil =>
      obtain ⟨fuel, rfl⟩ : ∃ k, fuel = k + 1 := ⟨fuel - 1, by omega⟩
      rfl
  | cons l labels ih =>
      obtain ⟨fuel, rfl⟩ : ∃ k, fuel = k + 1 := ⟨fuel - 1, by omega⟩
      obtain ⟨hpos, hlen⟩ := h l List.mem_cons_self
      have hfuel' : labels.length < fuel := by
        rw [List.length_cons] at hfuel
        omega
      have htail := ih (fun m hm => h m (List.mem_cons_of_mem _ hm)) hfuel'
      have hb : (UInt8.ofNat l.length).toNat = l.length := by
        rw [UInt8.toNat_ofNat']
        omega
      -- a length of 256 would be written as the end of the name
      have hne : UInt8.ofNat l.length ≠ 0 := by
        intro h0
        rw [h0] at hb
        simp only [UInt8.toNat_zero] at hb
        omega
      rw [List.map_cons, List.flatten_cons, List.cons_append, List.cons_append, List.cons_append]
      unfold readLabels
      simp only [List.append_assoc] at htail ⊢
      rw [if_neg hne, hb, if_pos (by rw [List.length_append]; omega), List.drop_left,
        List.take_left, htail, Option.map_some]

/-- A written name is read back, and what follows it is left. -/
theorem data2dn_dn2data {d : DN} (h : ∀ l ∈ d, 1 ≤ l.length ∧ l.length ≤ 255) (s : Bytes) :
    data2dn (dn2data d ++ s) = some (d, s) := by
  have hlabels : ∀ l ∈ d.reverse, 1 ≤ l.length ∧ l.length ≤ 255 := fun l hl =>
    h l (List.mem_reverse.mp hl)
  have hfuel : d.reverse.length < (dn2data d ++ s).length := by
    rw [List.length_append, length_dn2data, List.length_reverse]
    omega
  have hread : readLabels (dn2data d ++ s).length (dn2data d ++ s) = some (d.reverse, s) :=
    readLabels_encode hlabels s hfuel
  rw [data2dn, hread, Option.map_some, List.reverse_reverse]

theorem readLabels_eq_some {fuel : ℕ} {s rest : Bytes} {labels : List Bytes}
    (h : readLabels fuel s = some (labels, rest)) :
    s = (labels.map (fun l => UInt8.ofNat l.length :: l)).flatten ++ [0] ++ rest ∧
      ∀ l ∈ labels, 1 ≤ l.length ∧ l.length ≤ 255 := by
  induction fuel generalizing s labels with
  | zero => cases h
  | succ fuel ih =>
      cases s with
      | nil => cases h
      | cons b s =>
          unfold readLabels at h
          split_ifs at h with hb hlen
          · cases h
            subst hb
            exact ⟨rfl, by simp⟩
          · obtain ⟨⟨ls, r⟩, hread, heq⟩ := Option.map_eq_some_iff.mp h
            simp only [Prod.mk.injEq] at heq
            obtain ⟨rfl, rfl⟩ := heq
            obtain ⟨hs, hls⟩ := ih hread
            -- a label is as long as its byte says, or the read would have failed
            have htake : (s.take b.toNat).length = b.toNat := by
              rw [List.length_take]
              omega
            have hbyte : UInt8.ofNat (s.take b.toNat).length = b := by
              rw [htake, UInt8.ofNat_toNat]
            have hlt := b.toNat_lt
            have hpos : b.toNat ≠ 0 := fun h0 => hb (UInt8.toNat_inj.mp h0)
            constructor
            · have hrest : s = s.take b.toNat
                  ++ ((ls.map (fun l => UInt8.ofNat l.length :: l)).flatten ++ [0] ++ r) := by
                rw [← hs, List.take_append_drop]
              rw [List.map_cons, List.flatten_cons, hbyte]
              simp only [List.cons_append, List.append_assoc] at hrest ⊢
              rw [← hrest]
            · intro l hl
              rcases List.mem_cons.mp hl with rfl | hl
              · rw [htake]
                omega
              · exact hls l hl

/-- What `data2dn` has read is what `dn2data` writes, and the labels have 1 to 255 bytes. -/
theorem dn2data_data2dn {data rest : Bytes} {d : DN} (h : data2dn data = some (d, rest)) :
    data = dn2data d ++ rest ∧ ∀ l ∈ d, 1 ≤ l.length ∧ l.length ≤ 255 := by
  obtain ⟨⟨labels, r⟩, hread, heq⟩ := Option.map_eq_some_iff.mp h
  simp only [Prod.mk.injEq] at heq
  obtain ⟨rfl, rfl⟩ := heq
  obtain ⟨hdata, hlabels⟩ := readLabels_eq_some hread
  refine ⟨?_, fun l hl => hlabels l (List.mem_reverse.mp hl)⟩
  rw [dn2data, List.reverse_reverse]
  exact hdata

/-! ## The codec -/

/-- The positions where the loop of `data2dn` looks for the length of a label. -/
inductive LengthByte : Bytes → ℕ → Prop
  | first (data : Bytes) : LengthByte data 0
  | next {b : UInt8} {s : Bytes} {p : ℕ} (hne : b ≠ 0) (h : LengthByte (s.drop b.toNat) p) :
      LengthByte (b :: s) (1 + b.toNat + p)

/-- The loop stops behind the length that is zero. -/
theorem readLabels_of_lengthByte {data : Bytes} {p fuel : ℕ} (h : LengthByte data p)
    (hzero : data[p]? = some 0) (hfuel : data.length ≤ fuel) :
    ∃ labels, readLabels fuel data = some (labels, data.drop (p + 1)) := by
  induction h generalizing fuel with
  | first data =>
      cases data with
      | nil => cases hzero
      | cons b s =>
          obtain ⟨fuel, rfl⟩ : ∃ k, fuel = k + 1 := ⟨fuel - 1, by rw [List.length_cons] at hfuel; omega⟩
          cases hzero
          exact ⟨[], rfl⟩
  | @next b s p hne h ih =>
      obtain ⟨fuel, rfl⟩ : ∃ k, fuel = k + 1 := ⟨fuel - 1, by rw [List.length_cons] at hfuel; omega⟩
      have hat : (s.drop b.toNat)[p]? = some 0 := by
        rw [show 1 + b.toNat + p = (b.toNat + p) + 1 by omega, List.getElem?_cons_succ] at hzero
        rw [List.getElem?_drop, hzero]
      have hlen : (s.drop b.toNat).length ≤ fuel := by
        rw [List.length_cons] at hfuel
        rw [List.length_drop]
        omega
      -- the zero behind the label is in the data
      have hin : b.toNat ≤ s.length := by
        obtain ⟨hlt, -⟩ := List.getElem?_eq_some_iff.mp hat
        rw [List.length_drop] at hlt
        omega
      obtain ⟨labels, hread⟩ := ih hat hlen
      refine ⟨s.take b.toNat :: labels, ?_⟩
      unfold readLabels
      rw [if_neg hne, if_pos hin, hread, Option.map_some, List.drop_drop,
        show 1 + b.toNat + p + 1 = (b.toNat + (p + 1)) + 1 by omega, List.drop_succ_cons]

/-- The codec of names.  A written name is read back up to the bytes that follow it; and where
`data2dn` meets a zero length, it stops behind it, and what it has consumed is what `dn2data`
writes for the name. -/
theorem name_codec :
    (∀ (d : DN) (s : Bytes), (∀ l ∈ d, 1 ≤ l.length ∧ l.length ≤ 255) →
      data2dn (dn2data d ++ s) = some (d, s)) ∧
    ∀ (data : Bytes) (p : ℕ), LengthByte data p → data[p]? = some 0 →
      ∃ d, data2dn data = some (d, data.drop (p + 1)) ∧ dn2data d = data.take (p + 1) := by
  constructor
  · intro d s h
    exact data2dn_dn2data h s
  · intro data p hbyte hzero
    obtain ⟨labels, hread⟩ := readLabels_of_lengthByte hbyte hzero le_rfl
    have hname : data2dn data = some (labels.reverse, data.drop (p + 1)) := by
      rw [data2dn, hread, Option.map_some]
    have hdata := (dn2data_data2dn hname).1
    refine ⟨labels.reverse, hname, ?_⟩
    rw [← List.append_left_inj (data.drop (p + 1)), ← hdata, List.take_append_drop]

theorem name_codec_www :
    data2dn (dn2data [[116], [0, 46]] ++ [7]) = some ([[116], [0, 46]], [7]) ∧
    ∃ d, data2dn [1, 116, 0, 7] = some (d, [7]) ∧ dn2data d = [1, 116, 0] := by
  constructor
  · exact name_codec.1 [[116], [0, 46]] [7] (by simp)
  · exact name_codec.2 [1, 116, 0, 7] 2 (LengthByte.next (p := 0) (by decide) (.first _)) rfl

/-! ## The algebra of names -/

/-- The text of a name is its labels with a dot behind each. -/
theorem dn2s_eq_separated (d : DN) : dn2s d = separated (ch '.') true d.reverse := by
  have hdots : ∀ labels : List Bytes,
      (labels.map (· ++ [ch '.'])).flatten = separated (ch '.') true labels := by
    intro labels
    induction labels with
    | nil => rfl
    | cons l labels ih =>
        cases labels with
        | nil => rw [List.map_singleton, List.flatten_singleton, separated, if_pos rfl]
        | cons m labels =>
            rw [List.map_cons, List.flatten_cons, ih, separated, List.append_assoc,
              List.singleton_append]
  exact hdots d.reverse

/-- A text that ends in a dot is not the sign for the origin. -/
theorem dn2s_ne_at (d : DN) : dn2s d ≠ ascii "@" := by
  intro heq
  rw [dn2s] at heq
  cases d with
  | nil =>
      rw [List.reverse_nil, List.map_nil, List.flatten_nil] at heq
      exact absurd heq (by decide)
  | cons l d =>
      rw [List.reverse_cons, List.map_append, List.map_singleton, List.flatten_append,
        List.flatten_singleton, ← List.append_assoc] at heq
      have hlast := congrArg List.getLast? heq
      rw [List.getLast?_concat] at hlast
      exact absurd hlast (by decide)

theorem s2dn_dn2s {d : DN} (hne : ∀ l ∈ d, l ≠ []) (hdot : ∀ l ∈ d, ch '.' ∉ l) :
    s2dn (dn2s d) = d := by
  have hat := dn2s_ne_at d
  rw [dn2s_eq_separated] at hat ⊢
  rw [s2dn_separated (fun l hl => hdot l (List.mem_reverse.mp hl))
    (fun l hl => hne l (List.mem_reverse.mp hl)) hat, List.reverse_reverse]

/-- The algebra of names.  A name with proper labels is read back from its text, with the labels in
their order; a name that lies within another one is that one followed by the difference; and
otherwise the difference is the name itself. -/
theorem name_algebra :
    (∀ d : DN, (∀ l ∈ d, l ≠ [] ∧ ch '.' ∉ l) → s2dn (dn2s d) = d) ∧
    ∀ a b : DN, (within a b → b ++ minus a b = a) ∧ (¬ within a b → minus a b = a) := by
  constructor
  · intro d h
    exact s2dn_dn2s (fun l hl => (h l hl).1) fun l hl => (h l hl).2
  · intro a b
    constructor
    · rintro ⟨s, rfl⟩
      rw [minus_append]
    · intro hout
      rw [minus, if_neg hout]

theorem name_algebra_www :
    s2dn (dn2s [ascii "tw", ascii "nycu", ascii "www"]) = [ascii "tw", ascii "nycu", ascii "www"] ∧
    [ascii "tw"] ++ minus [ascii "tw", ascii "nycu"] [ascii "tw"] = [ascii "tw", ascii "nycu"] ∧
    minus [ascii "tw"] [ascii "io"] = [ascii "tw"] := by
  refine ⟨?_, ?_, ?_⟩
  · exact name_algebra.1 _ (by decide)
  · exact (name_algebra.2 _ _).1 (by decide)
  · exact (name_algebra.2 _ _).2 (by decide)

end Dnsd
