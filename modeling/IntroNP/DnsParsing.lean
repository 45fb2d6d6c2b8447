/-
# The reads of the parser of dnsd

`Header::parse` walks a pointer over the bytes of a datagram and asks nobody where they end.
Here it is a machine whose states are the places of the pointer and whose memory goes on behind
the NUL of the string, so that a read past the end is a read like any other.

* `memory`, `Cursor`, `parser` : the memory, the places of the pointer and the machine;
* `Fits` : the datagrams that hold all that their header announces;
* `parse_inside_iff` : for these, and no others, the parser stays in the datagram;
* `parse_isSome_iff` : these are the datagrams for which `Header.parse` has a value.
-/
import IntroNP.DnsReply
import IntroNP.Runs

namespace Dnsd

/-! ## The pointer -/

/-- What stands in the memory from `qs.c_str()` on: the datagram, a NUL, and what lies beyond. -/
def memory (qs : Bytes) (beyond : ℕ → UInt8) (i : ℕ) : UInt8 := (qs ++ [0])[i]?.getD (beyond i)

/-- Where `Header::parse` stands; `later` counts the questions behind the present one. -/
inductive Cursor
  /-- Before the header is copied. -/
  | header
  /-- At the test of the loop of `data2dn`. -/
  | label (later ptr : ℕ)
  /-- Behind the name of a question. -/
  | fixed (later ptr : ℕ)
  | done
  deriving DecidableEq

/-- The test of the loop over the questions, of which `n` are left. -/
def Cursor.questions : ℕ → ℕ → Cursor
  | 0, _ => done
  | n + 1, ptr => label n ptr

/-- The indices that are read by the next step. -/
def Cursor.reads (mem : ℕ → UInt8) : Cursor → List ℕ
  | header => List.range' 0 12
  | label _ ptr =>
      if mem ptr = 0 then List.range' ptr 1
      -- the length byte, and as many bytes as it says
      else List.range' ptr (1 + (mem ptr).toNat)
  | fixed _ ptr => List.range' ptr 4
  | done => []

/-- The next step. -/
def Cursor.next (mem : ℕ → UInt8) : Cursor → Option Cursor
  | header => some (questions (ofBE [mem 4, mem 5]) 12)
  | label later ptr =>
      if mem ptr = 0 then some (fixed later (ptr + 1))
      else some (label later (ptr + 1 + (mem ptr).toNat))
  | fixed later ptr => some (questions later (ptr + 4))
  | done => none

/-- `Header::parse` on a memory. -/
def parser (mem : ℕ → UInt8) : Machine Cursor Unit Unit :=
  Machine.silent .header fun c _ => c.next mem

/-- Every index that is read is one of the datagram or that of the NUL. -/
def ParsesInside (qs : Bytes) (beyond : ℕ → UInt8) : Prop :=
  ∀ past c, (parser (memory qs beyond)).Run past c →
    ∀ i ∈ c.reads (memory qs beyond), i ≤ qs.length

/-! ## What a header announces -/

/-- The labels of a name, as the parser takes them. -/
def LabelsFit (labels : List Bytes) : Prop := ∀ l ∈ labels, 1 ≤ l.length ∧ l.length ≤ 255

/-- At least `n` questions: each is a name and four bytes. -/
def Questions : ℕ → Bytes → Prop
  | 0, _ => True
  | n + 1, s => ∃ labels fixed t, s = Rfc1035.encodeName labels ++ (fixed ++ t) ∧
      LabelsFit labels ∧ fixed.length = 4 ∧ Questions n t

/-- With its NUL the datagram holds a header and as many questions as that counts. -/
def Fits (qs : Bytes) : Prop :=
  11 ≤ qs.length ∧ Questions (ofBE (((qs ++ [0]).drop 4).take 2)) ((qs ++ [0]).drop 12)

theorem questions_label {n : ℕ} {l t : Bytes} (hl : 1 ≤ l.length ∧ l.length ≤ 255)
    (h : Questions (n + 1) t) : Questions (n + 1) (Rfc1035.encodeLabel l ++ t) := by
  obtain ⟨labels, fixed, t, rfl, hlabels, hfixed, hlater⟩ := h
  refine ⟨l :: labels, fixed, t, ?_, List.forall_mem_cons.mpr ⟨hl, hlabels⟩, hfixed, hlater⟩
  simp only [Rfc1035.encodeName, List.map_cons, List.flatten_cons, List.append_assoc]

theorem questions_fixed {n : ℕ} {fixed t : Bytes} (hfixed : fixed.length = 4)
    (h : Questions n t) : Questions (n + 1) (0 :: (fixed ++ t)) :=
  ⟨[], fixed, t, rfl, List.forall_mem_nil _, hfixed, h⟩

/-- The first byte of a question tells its first label from the end of its name. -/
theorem Questions.cases {n : ℕ} {s : Bytes} (h : Questions (n + 1) s) :
    (∃ fixed t, s = 0 :: (fixed ++ t) ∧ fixed.length = 4 ∧ Questions n t) ∨
      ∃ b l t, s = b :: (l ++ t) ∧ b ≠ 0 ∧ b.toNat = l.length ∧ Questions (n + 1) t := by
  obtain ⟨labels, fixed, t, rfl, hlabels, hfixed, hlater⟩ := h
  cases labels with
  | nil => exact Or.inl ⟨fixed, t, rfl, hfixed, hlater⟩
  | cons l labels =>
      right
      obtain ⟨⟨hpos, hlen⟩, hlabels⟩ := List.forall_mem_cons.mp hlabels
      have hb : (UInt8.ofNat l.length).toNat = l.length := by
        rw [UInt8.toNat_ofNat']
        omega
      refine ⟨UInt8.ofNat l.length, l, _, ?_, fun h0 => ?_, hb, labels, fixed, t, rfl, hlabels,
        hfixed, hlater⟩
      · simp only [Rfc1035.encodeName, Rfc1035.encodeLabel, List.map_cons, List.flatten_cons,
          List.append_assoc, List.cons_append]
      · rw [h0, UInt8.toNat_zero] at hb
        omega

/-! ## The parser on a memory -/

section reads

variable {qs : Bytes} (beyond : ℕ → UInt8)

/-- The memory up to the NUL. -/
theorem drop_memory {i : ℕ} (hi : i ≤ qs.length) :
    (qs ++ [0]).drop i = memory qs beyond i :: (qs ++ [0]).drop (i + 1) := by
  have hlt : i < (qs ++ [0]).length := by
    rw [List.length_append, List.length_singleton]
    omega
  rw [List.drop_eq_getElem_cons hlt, memory, List.getElem?_eq_getElem hlt, Option.getD_some]

/-- A byte of it, the `n` bytes behind that one, and the rest. -/
theorem drop_memory_take {i : ℕ} (hi : i ≤ qs.length) (n : ℕ) :
    (qs ++ [0]).drop i = memory qs beyond i ::
      (((qs ++ [0]).drop (i + 1)).take n ++ (qs ++ [0]).drop (i + 1 + n)) := by
  have hdrop : (qs ++ [0]).drop (i + 1 + n) = ((qs ++ [0]).drop (i + 1)).drop n :=
    List.drop_drop.symm
  rw [hdrop, List.take_append_drop, drop_memory beyond hi]

theorem memory_of_drop {i : ℕ} {b : UInt8} {t : Bytes} (h : (qs ++ [0]).drop i = b :: t) :
    memory qs beyond i = b ∧ (qs ++ [0]).drop (i + 1) = t := by
  have hi : i ≤ qs.length := by
    have hlen := congrArg List.length h
    rw [List.length_drop, List.length_append, List.length_singleton, List.length_cons] at hlen
    omega
  rw [drop_memory beyond hi] at h
  exact List.cons.inj h

/-- The count of the questions. -/
theorem memory_count (hlen : 11 ≤ qs.length) :
    ((qs ++ [0]).drop 4).take 2 = [memory qs beyond 4, memory qs beyond 5] := by
  rw [drop_memory beyond (by omega), drop_memory beyond (by omega)]
  rfl

variable {beyond}

/-- What is in front of the pointer when the datagram holds what its header announces. -/
def Ahead (qs : Bytes) : Cursor → Prop
  | .header => Fits qs
  | .label later ptr => Questions (later + 1) ((qs ++ [0]).drop ptr)
  | .fixed later ptr =>
      ∃ fixed t, (qs ++ [0]).drop ptr = fixed ++ t ∧ fixed.length = 4 ∧ Questions later t
  | .done => True

theorem ahead_questions {n ptr : ℕ} (h : Questions n ((qs ++ [0]).drop ptr)) :
    Ahead qs (Cursor.questions n ptr) := by
  cases n with
  | zero => trivial
  | succ n => exact h

/-- One step: it reads inside of the datagram and stops in front of the rest. -/
theorem ahead_step {c : Cursor} (h : Ahead qs c) :
    (∀ i ∈ c.reads (memory qs beyond), i ≤ qs.length) ∧
      ∀ c', c.next (memory qs beyond) = some c' → Ahead qs c' := by
  -- a piece of the memory that stands in the datagram
  have hinside : ∀ {ptr n : ℕ} {s t : Bytes}, (qs ++ [0]).drop ptr = s ++ t → s.length = n →
      ∀ i ∈ List.range' ptr n, i ≤ qs.length := by
    intro ptr n s t hdrop hn i hi
    have hlen := congrArg List.length hdrop
    rw [List.length_drop, List.length_append, List.length_append, List.length_singleton] at hlen
    rw [List.mem_range'_1] at hi
    omega
  cases c with
  | header =>
      obtain ⟨hlen, hquestions⟩ := h
      rw [memory_count beyond hlen] at hquestions
      constructor
      · intro i hi
        rw [Cursor.reads, List.mem_range'_1] at hi
        omega
      · intro c' hc'
        cases hc'
        exact ahead_questions hquestions
  | label later ptr =>
      rcases Questions.cases h with ⟨fixed, t, hs, hfixed, hlater⟩ | ⟨b, l, t, hs, hb, hlen, hmore⟩
      · obtain ⟨hmem, hdrop⟩ := memory_of_drop beyond hs
        constructor
        · rw [Cursor.reads, if_pos hmem]
          exact hinside (s := [0]) hs rfl
        · intro c' hc'
          rw [Cursor.next, if_pos hmem] at hc'
          cases hc'
          exact ⟨fixed, t, hdrop, hfixed, hlater⟩
      · obtain ⟨hmem, hdrop⟩ := memory_of_drop beyond hs
        have hne : memory qs beyond ptr ≠ 0 := by rwa [hmem]
        constructor
        · rw [Cursor.reads, if_neg hne, hmem, hlen]
          rw [← List.cons_append] at hs
          exact hinside hs (by rw [List.length_cons]; omega)
        · intro c' hc'
          rw [Cursor.next, if_neg hne] at hc'
          cases hc'
          show Questions (later + 1) _
          rwa [hmem, hlen, ← List.drop_drop, hdrop, List.drop_left]
  | fixed later ptr =>
      obtain ⟨fixed, t, hs, hfixed, hlater⟩ := h
      refine ⟨hinside hs hfixed, fun c' hc' => ?_⟩
      cases hc'
      apply ahead_questions
      rwa [← List.drop_drop, hs, ← hfixed, List.drop_left]
  | done =>
      refine ⟨List.forall_mem_nil _, fun c' hc' => ?_⟩
      cases hc'

/-- Along a run the rest stays in front of the pointer. -/
theorem parsesInside_of_fits (h : Fits qs) : ParsesInside qs beyond := by
  intro past c hrun
  have hinit : Ahead qs (parser (memory qs beyond)).init := h
  have hahead : Ahead qs c := by
    refine hrun.always (I := Ahead qs) hinit fun c _ c' o hc hnext => ?_
    obtain ⟨c₁, hc₁, heq⟩ := Option.map_eq_some_iff.mp hnext
    cases heq
    exact (ahead_step hc).2 c' hc₁
  exact (ahead_step hahead).1

/-- A run goes on. -/
theorem run_next {past : List (Moment Cursor Unit Unit)} {c c' : Cursor}
    (hrun : (parser (memory qs beyond)).Run past c) (hnext : c.next (memory qs beyond) = some c') :
    (parser (memory qs beyond)).Run (⟨c, (), ()⟩ :: past) c' :=
  hrun.next (congrArg (Option.map (·, ())) hnext)

/-- The questions that a parser has read inside of the datagram are there.  The pointer moves on
with every step, so the induction is on what is left in front of it. -/
theorem questions_of_run (h : ParsesInside qs beyond) (left : ℕ) {n ptr : ℕ}
    {past : List (Moment Cursor Unit Unit)} (hleft : qs.length < ptr + left)
    (hrun : (parser (memory qs beyond)).Run past (Cursor.questions n ptr)) :
    Questions n ((qs ++ [0]).drop ptr) := by
  induction left generalizing n ptr past with
  | zero =>
      cases n with
      | zero => trivial
      | succ n =>
          have hptr : ptr ≤ qs.length := by
            apply h _ _ hrun
            rw [Cursor.questions, Cursor.reads]
            split <;> simp [List.mem_range'_1]
          omega
  | succ left ih =>
      cases n with
      | zero => trivial
      | succ n =>
          rw [Cursor.questions] at hrun
          have hreads := h _ _ hrun
          rw [Cursor.reads] at hreads
          by_cases hmem : memory qs beyond ptr = 0
          · have hrun₁ := run_next hrun (if_pos hmem)
            have hrun₂ := run_next hrun₁ rfl
            have hptr : ptr + 1 + 3 ≤ qs.length := by
              apply h _ _ hrun₁
              rw [Cursor.reads, List.mem_range'_1]
              omega
            have hlater := ih (by omega) hrun₂
            rw [drop_memory_take beyond (by omega) 4, hmem]
            apply questions_fixed _ hlater
            rw [List.length_take, List.length_drop, List.length_append, List.length_singleton]
            omega
          · have hrun₁ := run_next hrun (if_neg hmem)
            rw [if_neg hmem] at hreads
            have hptr : ptr + (memory qs beyond ptr).toNat ≤ qs.length := by
              apply hreads
              rw [List.mem_range'_1]
              omega
            have hpos : (memory qs beyond ptr).toNat ≠ 0 := fun h0 => hmem (UInt8.toNat_inj.mp h0)
            have hlt := (memory qs beyond ptr).toNat_lt
            have hmore := ih (n := n + 1) (by omega) hrun₁
            have hlen : (((qs ++ [0]).drop (ptr + 1)).take (memory qs beyond ptr).toNat).length
                = (memory qs beyond ptr).toNat := by
              rw [List.length_take, List.length_drop, List.length_append, List.length_singleton]
              omega
            have hlabel := questions_label (l := ((qs ++ [0]).drop (ptr + 1)).take
              (memory qs beyond ptr).toNat) ⟨by omega, by omega⟩ hmore
            rw [Rfc1035.encodeLabel, hlen, UInt8.ofNat_toNat, List.cons_append,
              ← drop_memory_take beyond (by omega)] at hlabel
            exact hlabel

theorem fits_of_parsesInside (h : ParsesInside qs beyond) : Fits qs := by
  have hlen : 11 ≤ qs.length := by
    apply h _ _ Machine.Run.start
    show 11 ∈ List.range' 0 12
    decide
  refine ⟨hlen, ?_⟩
  rw [memory_count beyond hlen]
  exact questions_of_run h (qs.length + 1) (by omega) (run_next Machine.Run.start rfl)

end reads

/-! ## The parser on a string -/

theorem encodeName_eq_dn2data (labels : List Bytes) :
    Rfc1035.encodeName labels = dn2data labels.reverse := by
  rw [dn2data, List.reverse_reverse]
  rfl

theorem ofBE_pair_lt (a b : UInt8) : ofBE [a, b] < 65536 := by
  have ha := a.toNat_lt
  have hb := b.toNat_lt
  simp only [ofBE, ofLE, List.reverse_cons, List.reverse_nil, List.nil_append, List.cons_append]
  omega

theorem data2uint16_eq_some {s t : Bytes} {n : UInt16} (h : data2uint16 s = some (n, t)) :
    ∃ a b, s = a :: b :: t ∧ n.toNat = ofBE [a, b] := by
  unfold data2uint16 at h
  split at h
  · next a b t' =>
      cases h
      exact ⟨a, b, rfl, by rw [UInt16.toNat_ofNat', Nat.mod_eq_of_lt (ofBE_pair_lt a b)]⟩
  · cases h

/-- The loop over the questions has a value when they are there. -/
theorem parseQuestions_isSome_iff {n : ℕ} {s : Bytes} :
    (parseQuestions n s).isSome ↔ Questions n s := by
  induction n generalizing s with
  | zero => exact iff_of_true rfl trivial
  | succ n ih =>
      rw [Option.isSome_iff_exists]
      constructor
      · rintro ⟨qs, h⟩
        simp only [parseQuestions, Option.bind_eq_bind, Option.bind_eq_some_iff, Option.pure_def,
          Option.some.injEq, Prod.exists] at h
        obtain ⟨domain, s₁, hdomain, type, s₂, htype, clas, s₃, hclas, _, hlater, rfl⟩ := h
        obtain ⟨rfl, hlabels⟩ := dn2data_data2dn hdomain
        obtain ⟨a, b, rfl, -⟩ := data2uint16_eq_some htype
        obtain ⟨c, d, rfl, -⟩ := data2uint16_eq_some hclas
        refine ⟨domain.reverse, [a, b, c, d], s₃, ?_, fun l hl =>
          hlabels l (List.mem_reverse.mp hl), rfl, ih.mp (by rw [hlater]; rfl)⟩
        rw [encodeName_eq_dn2data, List.reverse_reverse]
        rfl
      · rintro ⟨labels, fixed, t, rfl, hlabels, hfixed, hlater⟩
        obtain ⟨qs, hqs⟩ := Option.isSome_iff_exists.mp (ih.mpr hlater)
        have hdomain := data2dn_dn2data (d := labels.reverse)
          (fun l hl => hlabels l (List.mem_reverse.mp hl)) (fixed ++ t)
        obtain ⟨a, b, c, d, rfl⟩ := List.length_eq_four.mp hfixed
        rw [encodeName_eq_dn2data, parseQuestions, hdomain]
        simp only [List.cons_append, List.nil_append, Option.bind_eq_bind, Option.bind_some,
          data2uint16, hqs, Option.pure_def, Option.some.injEq, exists_eq']

/-- The twelve bytes of the header. -/
theorem header_bytes {s : Bytes} (h : 12 ≤ s.length) :
    ∃ i₁ i₂ f₁ f₂ q₁ q₂ a₁ a₂ n₁ n₂ r₁ r₂ t,
      s = i₁ :: i₂ :: f₁ :: f₂ :: q₁ :: q₂ :: a₁ :: a₂ :: n₁ :: n₂ :: r₁ :: r₂ :: t := by
  rcases s with _ | ⟨i₁, _ | ⟨i₂, _ | ⟨f₁, _ | ⟨f₂, _ | ⟨q₁, _ | ⟨q₂, _ | ⟨a₁, _ | ⟨a₂,
    _ | ⟨n₁, _ | ⟨n₂, _ | ⟨r₁, _ | ⟨r₂, t⟩⟩⟩⟩⟩⟩⟩⟩⟩⟩⟩⟩
  case cons => exact ⟨i₁, i₂, f₁, f₂, q₁, q₂, a₁, a₂, n₁, n₂, r₁, r₂, t, rfl⟩
  all_goals simp at h

/-- `Header.parse` has a value for the datagrams that hold what their header announces. -/
theorem parse_isSome_iff (qs : Bytes) : (Header.parse qs).isSome ↔ Fits qs := by
  constructor
  · intro h
    obtain ⟨header, h⟩ := Option.isSome_iff_exists.mp h
    unfold Header.parse at h
    split at h
    · next i₁ i₂ f₁ f₂ s hs =>
        simp only [Option.bind_eq_bind, Option.bind_eq_some_iff, Prod.exists] at h
        obtain ⟨qd, s₁, hqd, _, s₂, han, _, s₃, hns, _, s₄, har, question, hquestion, -⟩ := h
        obtain ⟨q₁, q₂, rfl, hcount⟩ := data2uint16_eq_some hqd
        obtain ⟨_, _, rfl, -⟩ := data2uint16_eq_some han
        obtain ⟨_, _, rfl, -⟩ := data2uint16_eq_some hns
        obtain ⟨_, _, rfl, -⟩ := data2uint16_eq_some har
        have hlen := congrArg List.length hs
        simp only [List.length_append, List.length_cons, List.length_nil] at hlen
        refine ⟨by omega, ?_⟩
        rw [hs]
        show Questions (ofBE [q₁, q₂]) s₄
        rw [← hcount, ← parseQuestions_isSome_iff, hquestion]
        rfl
    · cases h
  · rintro ⟨hlen, hquestions⟩
    have hlong : 12 ≤ (qs ++ [0]).length := by
      rw [List.length_append, List.length_singleton]
      omega
    obtain ⟨i₁, i₂, f₁, f₂, q₁, q₂, a₁, a₂, n₁, n₂, r₁, r₂, s, hs⟩ := header_bytes hlong
    rw [hs] at hquestions
    have hquestion : (parseQuestions (ofBE [q₁, q₂]) s).isSome :=
      parseQuestions_isSome_iff.mpr hquestions
    have hcount : (UInt16.ofNat (ofBE [q₁, q₂])).toNat = ofBE [q₁, q₂] := by
      rw [UInt16.toNat_ofNat', Nat.mod_eq_of_lt (ofBE_pair_lt q₁ q₂)]
    obtain ⟨question, hquestion⟩ := Option.isSome_iff_exists.mp hquestion
    simp only [Header.parse, hs, data2uint16, Option.bind_eq_bind, Option.bind_some, hcount,
      hquestion, Option.pure_def, Option.isSome_some]

/-- The parser stays in the datagram when that holds what its header announces, whatever lies
beyond. -/
theorem parse_inside_iff (qs : Bytes) (beyond : ℕ → UInt8) :
    ParsesInside qs beyond ↔ Fits qs :=
  ⟨fits_of_parsesInside, parsesInside_of_fits⟩

/-- A datagram whose only label claims 63 bytes that are not there. -/
def labelOverrun : Bytes := [7, 7, 1, 0, 0, 1, 0, 0, 0, 0, 0, 0, 63]

/-- It is read far behind its end. -/
theorem parse_overrun : labelOverrun.length ≤ 2048 ∧ ¬ ParsesInside labelOverrun (fun _ => 0) := by
  refine ⟨by decide, fun h => ?_⟩
  have hnext : Cursor.header.next (memory labelOverrun fun _ => 0) = some (.label 0 12) := by
    decide
  have hread : (75 : ℕ) ≤ labelOverrun.length :=
    h _ _ (run_next Machine.Run.start hnext) 75 (by decide)
  exact absurd hread (by decide)

end Dnsd
