/-
# The case of letters in the names of dnsd

Names are compared byte by byte, when the zone is selected and when the records are looked up.
Only the addresses that are written in a name do not depend on the case of its letters.

* `SameLetters` : two spellings of a name;
* `Agree` : two queries are both sent on, or have the same RCODE and the same answers;
* `niplike_sameLetters` : the addresses in two spellings of a name;
* `Alike` : two zones have the same for two questions;
* `agree_iff` : the queries that agree.
-/
import IntroNP.DnsNameError

namespace Dnsd

/-! ## Spellings -/

/-- The lower case of an ASCII letter. -/
def lower (b : UInt8) : UInt8 := if 65 ≤ b.toNat ∧ b.toNat ≤ 90 then b + 32 else b

/-- The names differ only in the case of ASCII letters. -/
def SameLetters (a b : DN) : Prop := a.map (List.map lower) = b.map (List.map lower)

instance (a b : DN) : Decidable (SameLetters a b) := inferInstanceAs (Decidable (_ = _))

theorem toNat_lower (b : UInt8) :
    (lower b).toNat = if 65 ≤ b.toNat ∧ b.toNat ≤ 90 then b.toNat + 32 else b.toNat := by
  rw [lower]
  split_ifs with h
  · rw [UInt8.toNat_add]
    show (b.toNat + 32) % 256 = _
    omega
  · rfl

/-- A digit has one spelling. -/
theorem eq_of_isDigit {a b : UInt8} (hab : lower a = lower b) (ha : isDigit a = true) : a = b := by
  have hlower := congrArg UInt8.toNat hab
  rw [toNat_lower, toNat_lower] at hlower
  simp only [isDigit, decide_eq_true_eq] at ha
  apply UInt8.toNat_inj.mp
  split_ifs at hlower <;> omega

theorem eq_of_digits {a b : Bytes} (hab : a.map lower = b.map lower)
    (ha : a.all isDigit = true) : a = b := by
  induction a generalizing b with
  | nil => exact (List.map_eq_nil_iff.mp hab.symm).symm
  | cons x a ih =>
      cases b with
      | nil => cases hab
      | cons y b =>
          obtain ⟨hx, hab⟩ := List.cons.inj hab
          rw [List.all_cons, Bool.and_eq_true] at ha
          rw [eq_of_isDigit hx ha.1, ih hab ha.2]

/-! ## Two replies -/

/-- The TTL and the RDATA of a record. -/
def Record.content (r : Record) : UInt32 × Bytes := (r.ttl, r.rdata)

/-- Both queries are sent on, or they have replies with the same RCODE and the same TTLs and RDATA
in their answers. -/
inductive Agree : Option Reply → Option Reply → Prop
  | forward : Agree (some .forward) (some .forward)
  | answer {h₁ h₂ : Header} {data₁ data₂ : Bytes} (hrcode : h₁.RCODE = h₂.RCODE)
      (hanswer : h₁.answer.map Record.content = h₂.answer.map Record.content) :
      Agree (some (.answer h₁ data₁)) (some (.answer h₂ data₂))

theorem agree_send (h₁ h₂ : Header) : Agree (some h₁.send) (some h₂.send) ↔
    h₁.RCODE = h₂.RCODE ∧ h₁.answer.map Record.content = h₂.answer.map Record.content := by
  constructor
  · rintro ⟨⟩
    next hrcode hanswer => exact ⟨hrcode, hanswer⟩
  · rintro ⟨hrcode, hanswer⟩
    exact .answer hrcode hanswer

/-- What a zone holds for a question, in its spelling. -/
def Zone.stored (z : Zone) (q : Question) : List (UInt32 × Bytes) :=
  ((z.rrs.lookup q.key).getD []).map Record.content

/-- The RCODE of a reply with answers. -/
def Zone.rcode (z : Zone) (type : TYPE) : BitVec 4 := if z.AuthorityFound type then 0 else 3

/-- The outcome of a question as far as two replies are compared. -/
def Zone.shown (z : Zone) (q : Question) : BitVec 4 × List (UInt32 × Bytes) :=
  ((z.outcome q).1, (z.outcome q).2.map Record.content)

/-- The reply to a question in the zone has this outcome. -/
theorem shown_reply {z : Zone} {q : Question} {h : Header} {qs : Bytes}
    (hwithin : within q.domain z.domain) (hparse : Header.parse qs = some h) :
    z.shown q = ((z.reply q h).RCODE, (z.reply q h).answer.map Record.content) := by
  rw [Zone.shown, ← reply_outcome hwithin (parse_eq_some hparse).2.1]

theorem shown_malformed {z : Zone} {q : Question} {e : Exn}
    (h : niplike q.domain z.domain = .error e) : z.shown q = (1, []) := by
  rw [Zone.shown, Zone.outcome, h]
  rfl

theorem shown_address {z : Zone} {q : Question} {rr : Record}
    (h : niplike q.domain z.domain = .ok [rr]) : z.shown q = (z.rcode q.type, [rr.content]) := by
  rw [Zone.shown, Zone.outcome, h]
  rfl

theorem shown_plain {z : Zone} {q : Question} (h : niplike q.domain z.domain = .ok []) :
    z.shown q = if enumContains TYPE.entries q.type then
        (if z.stored q = [] then 3 else z.rcode q.type, z.stored q)
      else (4, []) := by
  rw [Zone.shown, Zone.outcome, h]
  dsimp only
  by_cases htype : enumContains TYPE.entries q.type
  · rw [if_pos htype, if_pos htype, Zone.stored]
    cases hlook : z.rrs.lookup q.key with
    | none => rfl
    | some rrs =>
        -- there are records under a key
        have hne : rrs.map Record.content ≠ [] := fun h =>
          (z.keyed _ _ hlook).1 (List.map_eq_nil_iff.mp h)
        rw [Option.getD_some, if_neg hne]
        rfl
  · rw [if_neg htype, if_neg htype]
    rfl

/-! ## Addresses in names -/

/-- The names in which `niplike` sees an address, and what it makes of it. -/
theorem niplike_ne_nil {base : DN} {sub : List Bytes}
    (h : niplike (base ++ sub.reverse) base ≠ .ok []) : ∃ a b c d e, sub = [a, b, c, d, e] ∧
      (∀ label ∈ [a, b, c, d], label.all isDigit = true) ∧
      niplike (base ++ sub.reverse) base
        = (Record.new (base ++ sub.reverse) TYPE.A CLAS.IN 1 (dn2s [d, c, b, a]).dropLast).map
            fun rr => [rr] := by
  rw [niplike_append] at h ⊢
  split at h
  · next a b c d e =>
      split_ifs at h with hshape
      · refine ⟨a, b, c, d, e, rfl, fun label hlabel => (hshape.2 label hlabel).2, ?_⟩
        show (if _ then _ else _) = _
        rw [if_pos hshape]
      · exact absurd rfl h
  · exact absurd rfl h

/-- The record of an address does not depend on the name, but for the name itself. -/
theorem Record.new_cases (data : Bytes) :
    (∀ dn, ∃ e, Record.new dn TYPE.A CLAS.IN 1 data = .error e) ∨
      ∃ content, ∀ dn, ∃ r, Record.new dn TYPE.A CLAS.IN 1 data = .ok r ∧ r.content = content := by
  cases hrdata : Rdata TYPE.A data with
  | ok rdata =>
      exact Or.inr ⟨(1, rdata), fun dn => ⟨_, Record.new_of_rdata dn CLAS.IN 1 hrdata, rfl⟩⟩
  | error e =>
      left
      intro dn
      cases hnew : Record.new dn TYPE.A CLAS.IN 1 data with
      | error e' => exact ⟨e', rfl⟩
      | ok r =>
          obtain ⟨hq, -, hdata⟩ := Record.new_eq_ok hnew
          have hr := r.rdata_eq
          rw [hdata, congrArg Question.type hq, hrdata] at hr
          cases hr

/-- In two spellings of a name the same address is seen, if one is seen in both. -/
theorem niplike_sameLetters {d₁ d₂ b₁ b₂ : DN} (h₁ : within d₁ b₁) (h₂ : within d₂ b₂)
    (hcase : SameLetters d₁ d₂) (hnip₁ : niplike d₁ b₁ ≠ .ok []) (hnip₂ : niplike d₂ b₂ ≠ .ok []) :
    ((∃ e, niplike d₁ b₁ = .error e) ∧ ∃ e, niplike d₂ b₂ = .error e) ∨
      ∃ r₁ r₂, niplike d₁ b₁ = .ok [r₁] ∧ niplike d₂ b₂ = .ok [r₂] ∧ r₁.content = r₂.content := by
  obtain ⟨s₁, rfl⟩ := h₁
  obtain ⟨s₂, rfl⟩ := h₂
  rw [← s₁.reverse_reverse] at hnip₁ hcase ⊢
  rw [← s₂.reverse_reverse] at hnip₂ hcase ⊢
  obtain ⟨a₁, a₂, a₃, a₄, a₅, hs₁, hdigits, heq₁⟩ := niplike_ne_nil hnip₁
  obtain ⟨c₁, c₂, c₃, c₄, c₅, hs₂, -, heq₂⟩ := niplike_ne_nil hnip₂
  rw [heq₁, heq₂]
  -- five labels in front of both zones, so the labels correspond
  rw [hs₁, hs₂, SameLetters, List.map_append, List.map_append] at hcase
  have hlabels := (List.append_inj' hcase rfl).2
  simp only [List.reverse_cons, List.reverse_nil, List.nil_append, List.cons_append,
    List.map_cons, List.map_nil, List.cons.injEq, and_true] at hlabels
  obtain ⟨-, h4, h3, h2, h1⟩ := hlabels
  obtain rfl := eq_of_digits h1 (hdigits a₁ (by simp))
  obtain rfl := eq_of_digits h2 (hdigits a₂ (by simp))
  obtain rfl := eq_of_digits h3 (hdigits a₃ (by simp))
  obtain rfl := eq_of_digits h4 (hdigits a₄ (by simp))
  rcases Record.new_cases (dn2s [a₄, a₃, a₂, a₁]).dropLast with herror | ⟨content, hnew⟩
  · left
    obtain ⟨e, he⟩ := herror (b₁ ++ s₁.reverse.reverse)
    obtain ⟨e', he'⟩ := herror (b₂ ++ s₂.reverse.reverse)
    rw [he, he']
    exact ⟨⟨e, rfl⟩, e', rfl⟩
  · right
    obtain ⟨r, hr, hcontent⟩ := hnew (b₁ ++ s₁.reverse.reverse)
    obtain ⟨r', hr', hcontent'⟩ := hnew (b₂ ++ s₂.reverse.reverse)
    rw [hr, hr']
    exact ⟨r, r', rfl, rfl, hcontent.trans hcontent'.symm⟩

/-- An address is seen in a name that cannot be converted, or one that can, or none. -/
theorem niplike_trichotomy (domain base : DN) : (∃ e, niplike domain base = .error e) ∨
    (∃ r, niplike domain base = .ok [r]) ∨ niplike domain base = .ok [] := by
  cases h : niplike domain base with
  | error e => exact Or.inl ⟨e, rfl⟩
  | ok rrs =>
      rcases niplike_ok h with rfl | ⟨r, -, rfl, -⟩
      · exact Or.inr (Or.inr rfl)
      · exact Or.inr (Or.inl ⟨r, rfl⟩)

/-! ## Where they agree -/

/-- The records NS of both zones are missed, or those of neither. -/
def SameAuthority (z₁ z₂ : Zone) (q₁ q₂ : Question) : Prop :=
  z₁.AuthorityFound q₁.type ↔ z₂.AuthorityFound q₂.type

/-- An address is written in the first name, and the second zone holds the same address, for one
second, under the second name. -/
structure Borrowed (z₁ z₂ : Zone) (q₁ q₂ : Question) : Prop where
  address : ∃ r, niplike q₁.domain z₁.domain = .ok [r] ∧ z₂.stored q₂ = [r.content]
  plain : niplike q₂.domain z₂.domain = .ok []
  type : enumContains TYPE.entries q₂.type
  authority : SameAuthority z₁ z₂ q₁ q₂

/-- The zones have the same for the questions. -/
inductive Alike (z₁ z₂ : Zone) (q₁ q₂ : Question) : Prop
  /-- An address that cannot be converted is written in both names. -/
  | malformed {e₁ e₂} (h₁ : niplike q₁.domain z₁.domain = .error e₁)
      (h₂ : niplike q₂.domain z₂.domain = .error e₂)
  /-- An address is written in both names. -/
  | address {r₁ r₂} (h₁ : niplike q₁.domain z₁.domain = .ok [r₁])
      (h₂ : niplike q₂.domain z₂.domain = .ok [r₂]) (hns : SameAuthority z₁ z₂ q₁ q₂)
  /-- No address is written in the names, and the type is not one of the seven. -/
  | unknown (h₁ : niplike q₁.domain z₁.domain = .ok []) (h₂ : niplike q₂.domain z₂.domain = .ok [])
      (htype : ¬ enumContains TYPE.entries q₁.type)
  /-- No address is written in the names, and the zones hold the same under each of them. -/
  | stored (h₁ : niplike q₁.domain z₁.domain = .ok []) (h₂ : niplike q₂.domain z₂.domain = .ok [])
      (hstored : z₁.stored q₁ = z₂.stored q₂)
      (hns : z₁.stored q₁ ≠ [] → SameAuthority z₁ z₂ q₁ q₂)
  | left (h : Borrowed z₁ z₂ q₁ q₂)
  | right (h : Borrowed z₂ z₁ q₂ q₁)

theorem rcode_eq_iff {z₁ z₂ : Zone} {q₁ q₂ : Question} :
    z₁.rcode q₁.type = z₂.rcode q₂.type ↔ SameAuthority z₁ z₂ q₁ q₂ := by
  rw [Zone.rcode, Zone.rcode, SameAuthority]
  by_cases h₁ : z₁.AuthorityFound q₁.type <;> by_cases h₂ : z₂.AuthorityFound q₂.type <;>
    simp [h₁, h₂]

/-- A name with an address against one without. -/
theorem shown_borrowed {z₁ z₂ : Zone} {q₁ q₂ : Question} {r : Record}
    (h₁ : niplike q₁.domain z₁.domain = .ok [r]) (h₂ : niplike q₂.domain z₂.domain = .ok []) :
    z₁.shown q₁ = z₂.shown q₂ ↔ Borrowed z₁ z₂ q₁ q₂ := by
  rw [shown_address h₁, shown_plain h₂]
  constructor
  · intro h
    split_ifs at h with htype hnil
    · exact absurd (hnil ▸ (Prod.mk.inj h).2) (List.cons_ne_nil _ _)
    · obtain ⟨hrcode, hstored⟩ := Prod.mk.inj h
      exact ⟨⟨r, h₁, hstored.symm⟩, h₂, htype, rcode_eq_iff.mp hrcode⟩
    · exact absurd (Prod.mk.inj h).2 (List.cons_ne_nil _ _)
  · rintro ⟨⟨r', h₁', hstored⟩, -, htype, hns⟩
    rw [h₁] at h₁'
    obtain rfl := (List.cons.inj (Except.ok.inj h₁')).1
    rw [if_pos htype, hstored, if_neg (List.cons_ne_nil _ _), rcode_eq_iff.mpr hns]

/-- Two names without an address. -/
theorem shown_stored {z₁ z₂ : Zone} {q₁ q₂ : Question} (htypes : q₁.type = q₂.type)
    (h₁ : niplike q₁.domain z₁.domain = .ok []) (h₂ : niplike q₂.domain z₂.domain = .ok []) :
    z₁.shown q₁ = z₂.shown q₂ ↔ ¬ enumContains TYPE.entries q₁.type ∨
      (z₁.stored q₁ = z₂.stored q₂ ∧ (z₁.stored q₁ ≠ [] → SameAuthority z₁ z₂ q₁ q₂)) := by
  rw [shown_plain h₁, shown_plain h₂, ← htypes]
  by_cases htype : enumContains TYPE.entries q₁.type
  · rw [if_pos htype, if_pos htype, Prod.mk.injEq, ← rcode_eq_iff, ← htypes, and_comm]
    simp only [htype, not_true, false_or]
    refine and_congr_right fun hstored => ?_
    rw [← hstored]
    by_cases hnil : z₁.stored q₁ = [] <;> simp [hnil]
  · simp [htype]

/-- Two questions about a name in two spellings have the same outcome when the zones have the same
for them. -/
theorem shown_eq_iff {z₁ z₂ : Zone} {q₁ q₂ : Question} (h₁ : within q₁.domain z₁.domain)
    (h₂ : within q₂.domain z₂.domain) (htypes : q₁.type = q₂.type)
    (hcase : SameLetters q₁.domain q₂.domain) :
    z₁.shown q₁ = z₂.shown q₂ ↔ Alike z₁ z₂ q₁ q₂ := by
  constructor
  · intro h
    rcases niplike_trichotomy q₁.domain z₁.domain with ⟨e₁, hnip₁⟩ | ⟨r₁, hnip₁⟩ | hnip₁ <;>
      rcases niplike_trichotomy q₂.domain z₂.domain with ⟨e₂, hnip₂⟩ | ⟨r₂, hnip₂⟩ | hnip₂
    · exact .malformed hnip₁ hnip₂
    · rw [shown_malformed hnip₁, shown_address hnip₂] at h
      exact absurd (Prod.mk.inj h).2.symm (List.cons_ne_nil _ _)
    · rw [shown_malformed hnip₁, shown_plain hnip₂] at h
      split_ifs at h with htype hnil
      · exact absurd (Prod.mk.inj h).1 (by decide)
      · exact absurd (Prod.mk.inj h).2.symm hnil
      · exact absurd (Prod.mk.inj h).1 (by decide)
    · rw [shown_address hnip₁, shown_malformed hnip₂] at h
      exact absurd (Prod.mk.inj h).2 (List.cons_ne_nil _ _)
    · rw [shown_address hnip₁, shown_address hnip₂] at h
      exact .address hnip₁ hnip₂ (rcode_eq_iff.mp (Prod.mk.inj h).1)
    · exact .left ((shown_borrowed hnip₁ hnip₂).mp h)
    · rw [shown_plain hnip₁, shown_malformed hnip₂] at h
      split_ifs at h with htype hnil
      · exact absurd (Prod.mk.inj h).1 (by decide)
      · exact absurd (Prod.mk.inj h).2 hnil
      · exact absurd (Prod.mk.inj h).1 (by decide)
    · exact .right ((shown_borrowed hnip₂ hnip₁).mp h.symm)
    · rcases (shown_stored htypes hnip₁ hnip₂).mp h with htype | ⟨hstored, hns⟩
      · exact .unknown hnip₁ hnip₂ htype
      · exact .stored hnip₁ hnip₂ hstored hns
  · intro h
    cases h with
    | malformed hnip₁ hnip₂ => rw [shown_malformed hnip₁, shown_malformed hnip₂]
    | @address r₁ r₂ hnip₁ hnip₂ hns =>
        -- the same address, as the letters do not matter to it
        have hne : ∀ r : Record, (Except.ok [r] : Except Exn (List Record)) ≠ .ok [] := by
          intro r h
          cases h
        have hsame := niplike_sameLetters h₁ h₂ hcase (by rw [hnip₁]; exact hne r₁)
          (by rw [hnip₂]; exact hne r₂)
        rw [hnip₁, hnip₂] at hsame
        rcases hsame with ⟨⟨e, he⟩, -⟩ | ⟨r, r', hr, hr', hcontent⟩
        · cases he
        · cases hr
          cases hr'
          rw [shown_address hnip₁, shown_address hnip₂, hcontent, rcode_eq_iff.mpr hns]
    | unknown hnip₁ hnip₂ htype =>
        exact (shown_stored htypes hnip₁ hnip₂).mpr (Or.inl htype)
    | stored hnip₁ hnip₂ hstored hns =>
        exact (shown_stored htypes hnip₁ hnip₂).mpr (Or.inr ⟨hstored, hns⟩)
    | left h =>
        obtain ⟨r, hnip, -⟩ := h.address
        exact (shown_borrowed hnip h.plain).mpr h
    | right h =>
        obtain ⟨r, hnip, -⟩ := h.address
        exact ((shown_borrowed hnip h.plain).mpr h).symm

/-- No configured domain is a suffix of the name. -/
def Config.Foreign (config : Config) (dn : DN) : Prop :=
  ¬ ∃ base ∈ config.zones, base ≠ [] ∧ within dn base

/-- The zone of the longest configured suffix of the name. -/
def Config.Serves (config : Config) (dn : DN) (z : Zone) : Prop :=
  z.domain ≠ [] ∧ config.Longest dn z

/-- Two queries with one question each, about one type and a name in two spellings, agree when no
configured domain is a suffix of either spelling, or when both have zones that have the same for
the questions. -/
theorem agree_iff {config : Config} {qs₁ qs₂ : Bytes} {h₁ h₂ : Header} {q₁ q₂ : Question}
    (hparse₁ : Header.parse qs₁ = some h₁) (hquestion₁ : h₁.question = [q₁])
    (hparse₂ : Header.parse qs₂ = some h₂) (hquestion₂ : h₂.question = [q₂])
    (htypes : q₁.type = q₂.type) (hcase : SameLetters q₁.domain q₂.domain) :
    Agree (query config qs₁) (query config qs₂) ↔
      (config.Foreign q₁.domain ∧ config.Foreign q₂.domain) ∨
        ∃ z₁ z₂, config.Serves q₁.domain z₁ ∧ config.Serves q₂.domain z₂ ∧
          Alike z₁ z₂ q₁ q₂ := by
  simp only [Config.Foreign, Config.Serves, ← Config.select_eq_none_iff,
    ← Config.select_eq_some_iff]
  cases hz₁ : config.select q₁.domain with
  | none =>
      rw [query_forward hparse₁ hquestion₁ hz₁]
      cases hz₂ : config.select q₂.domain with
      | none =>
          rw [query_forward hparse₂ hquestion₂ hz₂]
          exact iff_of_true .forward (Or.inl ⟨rfl, rfl⟩)
      | some z₂ =>
          rw [query_eq hparse₂ hquestion₂ hz₂]
          exact iff_of_false (by rintro ⟨⟩) (by simp)
  | some z₁ =>
      rw [query_eq hparse₁ hquestion₁ hz₁]
      cases hz₂ : config.select q₂.domain with
      | none =>
          rw [query_forward hparse₂ hquestion₂ hz₂]
          exact iff_of_false (by rintro ⟨⟩) (by simp)
      | some z₂ =>
          rw [query_eq hparse₂ hquestion₂ hz₂]
          have hwithin₁ := (Config.select_eq_some hz₁).2
          have hwithin₂ := (Config.select_eq_some hz₂).2
          rw [agree_send, ← Prod.mk.injEq, ← shown_reply hwithin₁ hparse₁,
            ← shown_reply hwithin₂ hparse₂, shown_eq_iff hwithin₁ hwithin₂ htypes hcase]
          simp

theorem sameLetters_below {a b : Bytes} (hab : a.map lower = b.map lower) (type : TYPE) :
    SameLetters (below a type).domain (below b type).domain := by
  simp only [SameLetters, below, List.map_append, List.map_cons, List.map_nil, hab]

/-- The question of a name that has an address written in front of a label. -/
def written (label : Bytes) : Question :=
  ⟨s2dn (ascii "a.") ++ [ascii "1", ascii "2", ascii "3", ascii "4", label].reverse, TYPE.A,
    CLAS.IN⟩

/-- The label does not matter to the address. -/
theorem niplike_written (label : Bytes) (hlabel : label.length < 62) :
    ∃ r, niplike (written label).domain served.domain = .ok [r] ∧
      r.content = (1, [1, 2, 3, 4]) := by
  have hrdata : Rdata TYPE.A (dn2s [ascii "4", ascii "3", ascii "2", ascii "1"]).dropLast
      = .ok [1, 2, 3, 4] := by decide +kernel
  have hdigits : ∀ l ∈ [ascii "1", ascii "2", ascii "3", ascii "4"],
      l.length ≤ 3 ∧ l.all isDigit := by decide
  have hshape : niplike (written label).domain (s2dn (ascii "a."))
      = (Record.new (written label).domain TYPE.A CLAS.IN 1
          (dn2s [ascii "4", ascii "3", ascii "2", ascii "1"]).dropLast).map fun rr => [rr] :=
    (niplike_append _ _).trans (if_pos ⟨hlabel, hdigits⟩)
  rw [domain_served, hshape, Record.new_of_rdata _ CLAS.IN 1 hrdata]
  exact ⟨_, rfl, rfl⟩

/-- Two spellings of a name that does not exist, and two of one that is answered with its
address. -/
theorem agree_iff_served :
    Agree (query servedConfig (ask (below (ascii "v") TYPE.A)))
      (query servedConfig (ask (below (ascii "V") TYPE.A))) ∧
    Agree (query servedConfig (ask (written (ascii "w"))))
      (query servedConfig (ask (written (ascii "W")))) ∧
    ∃ header : Header, query servedConfig (ask (written (ascii "W"))) = some header.send ∧
      header.RCODE = 0 ∧ header.answer.map Record.content = [(1, [1, 2, 3, 4])] := by
  refine ⟨?_, ?_⟩
  · obtain ⟨h₁, hparse₁, hquestion₁⟩ := parse_ask (labels_below (ascii "v") TYPE.A (by decide))
    obtain ⟨h₂, hparse₂, hquestion₂⟩ := parse_ask (labels_below (ascii "V") TYPE.A (by decide))
    have hcase := sameLetters_below (show (ascii "v").map lower = (ascii "V").map lower by decide)
      TYPE.A
    have hserves₁ := Config.select_eq_some_iff.mp (select_below (ascii "v") TYPE.A)
    have hserves₂ := Config.select_eq_some_iff.mp (select_below (ascii "V") TYPE.A)
    have hstored : ∀ {label : Bytes}, (below label TYPE.A).key ∉ served.rrs →
        served.stored (below label TYPE.A) = [] := by
      intro label hnone
      rw [Zone.stored, AList.lookup_eq_none.mpr hnone]
      rfl
    have hv : (below (ascii "v") TYPE.A).key ∉ served.rrs := by
      rw [mem_served]
      decide +kernel
    have hV : (below (ascii "V") TYPE.A).key ∉ served.rrs := by
      rw [mem_served]
      decide +kernel
    have halike : Alike served served (below (ascii "v") TYPE.A) (below (ascii "V") TYPE.A) :=
      .stored (niplike_below _ _) (niplike_below _ _) ((hstored hv).trans (hstored hV).symm)
        fun _ => Iff.rfl
    rw [agree_iff hparse₁ hquestion₁ hparse₂ hquestion₂ rfl hcase]
    exact Or.inr ⟨served, served, hserves₁, hserves₂, halike⟩
  · have hlabels : ∀ label ∈ [ascii "w", ascii "W"],
        ∀ l ∈ (written label).domain, 1 ≤ l.length ∧ l.length ≤ 255 := by decide +kernel
    obtain ⟨h₁, hparse₁, hquestion₁⟩ := parse_ask (hlabels (ascii "w") (by simp))
    obtain ⟨h₂, hparse₂, hquestion₂⟩ := parse_ask (hlabels (ascii "W") (by simp))
    have hselect : ∀ label, servedConfig.select (written label).domain = some served :=
      fun label => select_under _
    obtain ⟨r₁, hnip₁, -⟩ := niplike_written (ascii "w") (by decide)
    obtain ⟨r₂, hnip₂, hcontent⟩ := niplike_written (ascii "W") (by decide)
    have hcase : SameLetters (written (ascii "w")).domain (written (ascii "W")).domain := by
      decide +kernel
    constructor
    · rw [agree_iff hparse₁ hquestion₁ hparse₂ hquestion₂ rfl hcase]
      exact Or.inr ⟨served, served, Config.select_eq_some_iff.mp (hselect _),
        Config.select_eq_some_iff.mp (hselect _), .address hnip₁ hnip₂ Iff.rfl⟩
    · refine ⟨_, query_eq hparse₂ hquestion₂ (hselect _), ?_⟩
      have hshown := shown_reply (Config.select_eq_some (hselect (ascii "W"))).2 hparse₂
      rw [shown_address hnip₂, hcontent, Zone.rcode, if_pos (authorityFound_served _)] at hshown
      obtain ⟨hrcode, hanswer⟩ := Prod.mk.inj hshown
      exact ⟨hrcode.symm, hanswer.symm⟩

/-- Two spellings of a name that has an address: only one of them is answered with it. -/
theorem spelling_matters :
    SameLetters (below (ascii "w") TYPE.A).domain (below (ascii "W") TYPE.A).domain ∧
      ¬ Agree (query servedConfig (ask (below (ascii "w") TYPE.A)))
        (query servedConfig (ask (below (ascii "W") TYPE.A))) := by
  have hspelling := sameLetters_below (show (ascii "w").map lower = (ascii "W").map lower by decide)
    TYPE.A
  obtain ⟨h₁, hquery₁, hrcode₁⟩ := query_below (ascii "w") TYPE.A (by decide) (by decide)
  obtain ⟨h₂, hquery₂, hrcode₂⟩ := query_below (ascii "W") TYPE.A (by decide) (by decide)
  have hlower : (below (ascii "w") TYPE.A).key ∈ served.rrs := by
    rw [mem_served]
    simp
  have hupper : (below (ascii "W") TYPE.A).key ∉ served.rrs := by
    rw [mem_served]
    decide +kernel
  rw [hquery₁, hquery₂, agree_send, hrcode₁, hrcode₂, if_pos hlower, if_neg hupper]
  exact ⟨hspelling, fun hagree => absurd hagree.1 (by decide)⟩

end Dnsd
