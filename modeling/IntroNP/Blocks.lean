/-
# Strings in blocks of memory

A block of memory is a list, and a pointer into it a position.  A string in a block goes up to a
terminator.  An operation that would read or write outside of its block is undefined, which is
`none` here.

* `stringAt` : the string at a position, as `strlen` and `strdup` scan it;
* `strtok` : one call of `strtok_r`, which writes a terminator behind the token it has found;
* `strtok_token`, `strtok_null`, `strtok_outside` : its three outcomes, by what stands at the
  position; `exists_scan` : one of them applies;
* `nextToken`, `nextToken_eq` : a call with the token as a string, computed from the text;
* `store`, `storeStrings` : a range that is written, and strings that are written at a fixed
  distance from each other, with their terminators;
* `store_append`, `exists_storeStrings` : what the block holds afterwards;
* `store_concat`, `getElem?_store` : one element more, and what stays as it is.

Nothing here mentions a program of the repository.
-/
import Mathlib.Data.List.Basic
import Mathlib.Data.List.TakeWhile
import Mathlib.Tactic.Ring

namespace Block

variable {α : Type*} [DecidableEq α]

/-! ## Reading -/

/-- The string at a position of a block: what stands there before a terminator. -/
def stringAt (nul : α) (m : List α) (p : ℕ) : Option (List α) :=
  let s := (m.drop p).takeWhile (· ≠ nul)
  if p + s.length < m.length then some s else none

/-- What a call of `strtok_r` has found: where the token begins, where the next call goes on, and
the block with the terminator behind the token. -/
structure Token (α : Type*) where
  /-- The position of the token. -/
  start : ℕ
  /-- The position for the next call. -/
  save : ℕ
  /-- The block after the call. -/
  block : List α

/-- The elements of a token. -/
def inToken (nul : α) (delim : α → Bool) (b : α) : Bool := b ≠ nul && !delim b

/-- A call of `strtok_r` at a position of a block: nothing when there are only delimiters before
the terminator, or else a token. -/
def strtok (nul : α) (delim : α → Bool) (m : List α) (p : ℕ) : Option (Option (Token α)) :=
  let start := p + ((m.drop p).takeWhile delim).length
  let last := start + ((m.drop start).takeWhile (inToken nul delim)).length
  match m[last]? with
  | none => none
  | some b =>
      if last = start then some none
      else if b = nul then some (some ⟨start, last, m⟩)
      else some (some ⟨start, last + 1, m.set last nul⟩)

variable {nul : α} {delim : α → Bool}

omit [DecidableEq α] in
/-- A scan over a first part, which what follows stops. -/
theorem takeWhile_append_stop {p : α → Bool} {s t : List α} (hs : ∀ c ∈ s, p c = true)
    (ht : ∀ c ∈ t.head?, p c = false) : (s ++ t).takeWhile p = s := by
  rw [List.takeWhile_append_of_pos hs]
  cases t with
  | nil => simp
  | cons c t =>
      rw [List.takeWhile_cons_of_neg (by simpa using ht c rfl), List.append_nil]

theorem stringAt_append (pre : List α) {s : List α} (hs : nul ∉ s) (rest : List α) :
    stringAt nul (pre ++ (s ++ nul :: rest)) pre.length = some s := by
  have hscan : (s ++ nul :: rest).takeWhile (· ≠ nul) = s := by
    apply takeWhile_append_stop
    · rintro c hc
      rw [decide_eq_true_eq]
      rintro rfl
      exact hs hc
    · simp
  rw [stringAt]
  simp only [List.drop_left, hscan]
  rw [if_pos]
  simp only [List.length_append, List.length_cons]
  omega

omit [DecidableEq α] in
/-- The element behind three parts of a block, replaced. -/
theorem set_append_append (pre skipped word : List α) (b c : α) (rest : List α) :
    (pre ++ (skipped ++ (word ++ b :: rest))).set (pre.length + skipped.length + word.length) c
      = pre ++ (skipped ++ (word ++ c :: rest)) := by
  rw [List.set_append_right _ _ (by omega), List.set_append_right _ _ (by omega),
    List.set_append_right _ _ (by omega)]
  have hzero : pre.length + skipped.length + word.length - pre.length - skipped.length
      - word.length = 0 := by omega
  rw [hzero, List.set_cons_zero]

section scans

variable {pre skipped word rest : List α} {b : α}

/-- The scan of `strtok_r` over delimiters and what may be a token. -/
theorem strtok_scans (hskipped : ∀ c ∈ skipped, delim c = true)
    (hword : ∀ c ∈ word, inToken nul delim c = true) {t : List α}
    (hstart : ∀ c ∈ (word ++ t).head?, delim c = false)
    (hstop : ∀ c ∈ t.head?, inToken nul delim c = false) :
    strtok nul delim (pre ++ (skipped ++ (word ++ t))) pre.length
      = match t.head? with
        | none => none
        | some b =>
            if word = [] then some none
            else if b = nul then some (some ⟨pre.length + skipped.length,
              pre.length + skipped.length + word.length, pre ++ (skipped ++ (word ++ t))⟩)
            else some (some ⟨pre.length + skipped.length,
              pre.length + skipped.length + word.length + 1,
              pre ++ (skipped ++ (word ++ nul :: t.tail))⟩) := by
  have hskip : (skipped ++ (word ++ t)).takeWhile delim = skipped :=
    takeWhile_append_stop hskipped hstart
  have hscan : (word ++ t).takeWhile (inToken nul delim) = word :=
    takeWhile_append_stop hword hstop
  have hstarts : (pre ++ (skipped ++ (word ++ t))).drop (pre.length + skipped.length)
      = word ++ t := by
    rw [← List.append_assoc, ← List.length_append, List.drop_left]
  have hat : (pre ++ (skipped ++ (word ++ t)))[pre.length + skipped.length + word.length]?
      = t.head? := by
    rw [← List.append_assoc, ← List.append_assoc, ← List.length_append, ← List.length_append,
      List.getElem?_append_right le_rfl, Nat.sub_self, List.head?_eq_getElem?]
  rw [strtok]
  simp only [List.drop_left, hskip, hstarts, hscan, hat]
  cases t with
  | nil => rfl
  | cons b t =>
      have hempty : pre.length + skipped.length + word.length = pre.length + skipped.length
          ↔ word = [] := by
        rw [← List.length_eq_zero_iff]
        omega
      simp only [List.head?_cons, List.tail_cons, set_append_append, hempty]

/-- A token, and the element that ends it. -/
theorem strtok_token (hskipped : ∀ c ∈ skipped, delim c = true)
    (hword : ∀ c ∈ word, inToken nul delim c = true) (hne : word ≠ [])
    (hb : inToken nul delim b = false) :
    strtok nul delim (pre ++ (skipped ++ (word ++ b :: rest))) pre.length
      = some (some ⟨pre.length + skipped.length,
        pre.length + skipped.length + word.length + (if b = nul then 0 else 1),
        pre ++ (skipped ++ (word ++ nul :: rest))⟩) := by
  have hstart : ∀ c ∈ (word ++ b :: rest).head?, delim c = false := by
    obtain ⟨c, u, rfl⟩ := List.exists_cons_of_ne_nil hne
    rintro d hd
    cases hd
    have hc := hword c List.mem_cons_self
    rw [inToken, Bool.and_eq_true] at hc
    simpa using hc.2
  rw [strtok_scans hskipped hword hstart (by simpa using hb)]
  simp only [List.head?_cons, List.tail_cons, if_neg hne]
  by_cases hend : b = nul
  · simp [hend]
  · simp [hend]

/-- Only delimiters before the terminator. -/
theorem strtok_null (hnul : delim nul = false) (hskipped : ∀ c ∈ skipped, delim c = true) :
    strtok nul delim (pre ++ (skipped ++ nul :: rest)) pre.length = some none := by
  have hscan : strtok nul delim (pre ++ (skipped ++ ([] ++ nul :: rest))) pre.length = _ :=
    strtok_scans hskipped (List.forall_mem_nil _) (by simpa using hnul) (by simp [inToken])
  simpa using hscan

/-- Nothing behind the delimiters ends a token: the scan leaves the block. -/
theorem strtok_outside (hskipped : ∀ c ∈ skipped, delim c = true)
    (hword : ∀ c ∈ word, inToken nul delim c = true) :
    strtok nul delim (pre ++ (skipped ++ word)) pre.length = none := by
  have hstart : ∀ c ∈ (word ++ []).head?, delim c = false := by
    rintro c hc
    rw [List.append_nil] at hc
    have hin := hword c (List.mem_of_head? hc)
    rw [inToken, Bool.and_eq_true] at hin
    simpa using hin.2
  have hscan : strtok nul delim (pre ++ (skipped ++ (word ++ []))) pre.length = _ :=
    strtok_scans hskipped hword hstart (by simp)
  rw [List.append_nil] at hscan
  exact hscan

/-- What a scan meets: no end, the terminator, or a token with its end. -/
theorem exists_scan (nul : α) (delim : α → Bool) (s : List α) :
    ∃ skipped t, s = skipped ++ t ∧ (∀ c ∈ skipped, delim c = true) ∧
      ((∀ c ∈ t, inToken nul delim c = true) ∨ (∃ rest, t = nul :: rest) ∨
        ∃ word b rest, t = word ++ b :: rest ∧ word ≠ [] ∧
          (∀ c ∈ word, inToken nul delim c = true) ∧ inToken nul delim b = false) := by
  refine ⟨s.takeWhile delim, s.dropWhile delim, List.takeWhile_append_dropWhile.symm,
    fun c hc => List.mem_takeWhile_imp hc, ?_⟩
  generalize ht : s.dropWhile delim = t
  cases hend : t.dropWhile (inToken nul delim) with
  | nil => exact Or.inl (List.dropWhile_eq_nil_iff.mp hend)
  | cons b rest =>
      have hsplit := List.takeWhile_append_dropWhile (p := inToken nul delim) (l := t)
      have hb : inToken nul delim b = false := by
        have hhead := List.head_dropWhile_not (l := t) (inToken nul delim) (by simp [hend])
        simpa [hend] using hhead
      rw [hend] at hsplit
      by_cases hempty : t.takeWhile (inToken nul delim) = []
      · rw [hempty, List.nil_append] at hsplit
        -- the first element is no delimiter, so it is the terminator
        have hdelim : delim b = false := by
          have hhead := List.head_dropWhile_not (l := s) delim (by simp [ht, ← hsplit])
          simpa [ht, ← hsplit] using hhead
        refine Or.inr (Or.inl ⟨rest, ?_⟩)
        rw [← hsplit]
        simpa [inToken, hdelim] using hb
      · exact Or.inr (Or.inr ⟨_, b, rest, hsplit.symm, hempty,
          fun c hc => List.mem_takeWhile_imp hc, hb⟩)

end scans

/-! ## Tokens as strings -/

/-- A call of `strtok_r`, with the token as a string and the block after the call. -/
def nextToken (nul : α) (delim : α → Bool) (m : List α) (p : ℕ) :
    Option (Option (List α × List α)) :=
  match strtok nul delim m p with
  | none => none
  | some none => some none
  | some (some t) => (stringAt nul t.block t.start).map fun token => some (token, t.block)

/-- The token of a text: what stands behind leading delimiters, up to a delimiter or terminator. -/
def firstToken (nul : α) (delim : α → Bool) (s : List α) : List α :=
  (s.dropWhile delim).takeWhile (inToken nul delim)

/-- The end of the token is in the text. -/
def Ended (nul : α) (delim : α → Bool) (s : List α) : Prop :=
  ∃ b ∈ s.dropWhile delim, inToken nul delim b = false

instance (nul : α) (delim : α → Bool) (s : List α) : Decidable (Ended nul delim s) :=
  inferInstanceAs (Decidable (∃ b ∈ s.dropWhile delim, inToken nul delim b = false))

/-- A token that ends in a text leaves a place of it to its end. -/
theorem length_firstToken_lt {s : List α} (h : Ended nul delim s) :
    (firstToken nul delim s).length < s.length := by
  obtain ⟨b, hb, hend⟩ := h
  have hle := (List.takeWhile_prefix (inToken nul delim) (l := s.dropWhile delim)).length_le
  have hdrop := (List.dropWhile_sublist (l := s) delim).length_le
  have hne : (firstToken nul delim s).length ≠ (s.dropWhile delim).length := by
    intro hlen
    have hall : firstToken nul delim s = s.dropWhile delim :=
      (List.takeWhile_prefix _).eq_of_length hlen
    rw [← hall] at hb
    rw [List.mem_takeWhile_imp hb] at hend
    cases hend
  rw [firstToken] at hne ⊢
  omega

/-- A token at the beginning of a text. -/
theorem firstToken_append {word rest : List α} {b : α}
    (hword : ∀ c ∈ word, inToken nul delim c = true) (hb : inToken nul delim b = false)
    (hne : word ≠ []) : firstToken nul delim (word ++ b :: rest) = word := by
  have hdrop : (word ++ b :: rest).dropWhile delim = word ++ b :: rest := by
    obtain ⟨c, u, rfl⟩ := List.exists_cons_of_ne_nil hne
    have hc := hword c List.mem_cons_self
    rw [inToken, Bool.and_eq_true] at hc
    exact List.dropWhile_cons_of_neg (by simpa using hc.2)
  rw [firstToken, hdrop]
  exact takeWhile_append_stop hword (by simpa using hb)

/-- The token of a text does not depend on what stands behind a terminator. -/
theorem firstToken_append_nul (hnul : delim nul = false) (s t : List α) :
    firstToken nul delim (s ++ nul :: t) = firstToken nul delim s := by
  have hend : inToken nul delim nul = false := by simp [inToken]
  rw [firstToken, firstToken, List.dropWhile_append]
  split_ifs with hempty
  · rw [List.isEmpty_iff.mp hempty, List.dropWhile_cons_of_neg (by simp [hnul]),
      List.takeWhile_cons_of_neg (by simp [hend]), List.takeWhile_nil]
  · rw [List.takeWhile_append]
    split_ifs with hall
    · rw [List.takeWhile_cons_of_neg (by simp [hend]), List.append_nil]
      exact ((List.takeWhile_prefix _).eq_of_length hall).symm
    · rfl

/-- What a call does, from the text at its position: it is undefined if the token does not end, and
else finds the token, if there is one, and puts a terminator behind it. -/
theorem nextToken_eq (hnul : delim nul = false) {m : List α} {p : ℕ} (hp : p ≤ m.length) :
    nextToken nul delim m p
      = if Ended nul delim (m.drop p) then
          if firstToken nul delim (m.drop p) = [] then some none
          else some (some (firstToken nul delim (m.drop p),
            m.set (p + ((m.drop p).takeWhile delim).length
              + (firstToken nul delim (m.drop p)).length) nul))
        else none := by
  obtain ⟨skipped, t, ht, hskipped, hcases⟩ := exists_scan nul delim (m.drop p)
  have hm : m = m.take p ++ (skipped ++ t) := by
    rw [← ht, List.take_append_drop]
  have hlen : (m.take p).length = p := List.length_take_of_le hp
  -- what stands at the beginning of `t` is no delimiter
  have hscan : ∀ u : List α, (∀ c ∈ u.head?, delim c = false) →
      (skipped ++ u).takeWhile delim = skipped ∧ (skipped ++ u).dropWhile delim = u := by
    intro u hu
    refine ⟨takeWhile_append_stop hskipped hu, ?_⟩
    rw [List.dropWhile_append_of_pos hskipped]
    cases u with
    | nil => rfl
    | cons c u => rw [List.dropWhile_cons_of_neg (by simpa using hu c rfl)]
  have hfirst : ∀ c, inToken nul delim c = true → delim c = false := by
    intro c hc
    rw [inToken, Bool.and_eq_true] at hc
    simpa using hc.2
  rw [ht, nextToken, firstToken]
  rcases hcases with hword | ⟨rest, rfl⟩ | ⟨word, b, rest, rfl, hne, hword, hb⟩
  · obtain ⟨-, hdrop⟩ := hscan t fun c hc => hfirst c (hword c (List.mem_of_head? hc))
    have hcall : strtok nul delim (m.take p ++ (skipped ++ t)) (m.take p).length = none :=
      strtok_outside hskipped hword
    have hopen : ¬ Ended nul delim (skipped ++ t) := by
      rintro ⟨b, hb, hend⟩
      rw [hdrop] at hb
      rw [hword b hb] at hend
      cases hend
    rw [← hm, hlen] at hcall
    rw [hcall, if_neg hopen]
  · obtain ⟨-, hdrop⟩ := hscan (nul :: rest) (by simpa using hnul)
    have hcall : strtok nul delim (m.take p ++ (skipped ++ nul :: rest)) (m.take p).length
        = some none := strtok_null hnul hskipped
    have hend : inToken nul delim nul = false := by simp [inToken]
    have hended : Ended nul delim (skipped ++ nul :: rest) :=
      ⟨nul, by rw [hdrop]; exact List.mem_cons_self, hend⟩
    rw [← hm, hlen] at hcall
    rw [hcall, if_pos hended, hdrop, List.takeWhile_cons_of_neg (by simp [hend]), if_pos rfl]
  · obtain ⟨hskip, hdrop⟩ := hscan (word ++ b :: rest) (by
      obtain ⟨c, u, rfl⟩ := List.exists_cons_of_ne_nil hne
      rintro d hd
      cases hd
      exact hfirst c (hword c List.mem_cons_self))
    have hcall : strtok nul delim (m.take p ++ (skipped ++ (word ++ b :: rest))) (m.take p).length
        = _ := strtok_token hskipped hword hne hb
    have htoken : (word ++ b :: rest).takeWhile (inToken nul delim) = word :=
      takeWhile_append_stop hword (by simpa using hb)
    have hclean : nul ∉ word := by
      intro h0
      have hin := hword nul h0
      simp [inToken] at hin
    have hstring := stringAt_append (m.take p ++ skipped) hclean rest
    have hblock : m.take p ++ (skipped ++ (word ++ nul :: rest))
        = m.set (p + skipped.length + word.length) nul := by
      have hset := set_append_append (m.take p) skipped word b nul rest
      rw [← hm, hlen] at hset
      exact hset.symm
    have hended : Ended nul delim (skipped ++ (word ++ b :: rest)) :=
      ⟨b, by rw [hdrop]; exact List.mem_append_right _ List.mem_cons_self, hb⟩
    rw [List.length_append, hlen, List.append_assoc, hblock] at hstring
    rw [← hm, hlen, hblock] at hcall
    rw [hcall, if_pos hended, hskip, hdrop, htoken, if_neg hne]
    simp only [hstring, Option.map_some]

/-- The token that a call has found, and the block it has left. -/
theorem eq_of_nextToken (hnul : delim nul = false) {m m' token : List α} {p : ℕ}
    (hp : p ≤ m.length) (h : nextToken nul delim m p = some (some (token, m'))) :
    token = firstToken nul delim (m.drop p) ∧
      m' = m.set (p + ((m.drop p).takeWhile delim).length + token.length) nul := by
  rw [nextToken_eq hnul hp] at h
  split_ifs at h with hend hempty
  · cases h
  · simp only [Option.some.injEq, Prod.mk.injEq] at h
    obtain ⟨rfl, rfl⟩ := h
    exact ⟨rfl, rfl⟩

/-! ## Writing -/

/-- A block with a range replaced, as `memset` and `sprintf` do. -/
def store (m : List α) (p : ℕ) (s : List α) : Option (List α) :=
  if p + s.length ≤ m.length then some (m.take p ++ (s ++ m.drop (p + s.length))) else none

/-- Strings stored with their terminators, the first one at the position and each other one at the
distance from the one before. -/
def storeStrings (nul : α) (distance : ℕ) : List (List α) → ℕ → List α → Option (List α)
  | [], _, m => some m
  | s :: strings, p, m =>
      (store m p (s ++ [nul])).bind (storeStrings nul distance strings (p + distance))

omit [DecidableEq α] in
theorem store_append (pre : List α) {old s : List α} (h : s.length ≤ old.length) :
    store (pre ++ old) pre.length s = some (pre ++ (s ++ old.drop s.length)) := by
  rw [store, if_pos, List.take_left, List.drop_append]
  · simp
  · rw [List.length_append]
    omega

omit [DecidableEq α] in
theorem exists_store {m s : List α} {p : ℕ} (h : p + s.length ≤ m.length) :
    ∃ m', store m p s = some m' := ⟨_, if_pos h⟩

omit [DecidableEq α] in
/-- A write directly behind what has been stored. -/
theorem store_concat {m m' s : List α} {p : ℕ} (h : store m p s = some m')
    (hroom : p + s.length < m.length) (b : α) :
    store m p (s ++ [b]) = some (m'.set (p + s.length) b) := by
  have hp : (m.take p).length = p := List.length_take_of_le (by omega)
  have hdrop : m.drop (p + s.length) = m[p + s.length] :: m.drop (p + s.length + 1) :=
    List.drop_eq_getElem_cons hroom
  rw [store, if_pos (by omega)] at h
  cases h
  rw [store, if_pos (by rw [List.length_append, List.length_singleton]; omega), hdrop,
    List.set_append_right _ _ (by omega), List.set_append_right _ _ (by omega)]
  have hzero : p + s.length - (m.take p).length - s.length = 0 := by omega
  rw [hzero, List.set_cons_zero]
  simp only [List.length_append, List.length_singleton, List.append_assoc, List.cons_append,
    List.nil_append, Nat.add_assoc]

omit [DecidableEq α] in
theorem store_singleton {m : List α} {p : ℕ} (hp : p < m.length) (b : α) :
    store m p [b] = some (m.set p b) := by
  have hnil : store m p [] = some m := by
    rw [store, List.length_nil, Nat.add_zero, if_pos (Nat.le_of_lt hp)]
    exact congrArg some (List.take_append_drop p m)
  exact store_concat hnil hp b

omit [DecidableEq α] in
theorem length_store {m m' s : List α} {p : ℕ} (h : store m p s = some m') :
    m'.length = m.length := by
  rw [store] at h
  split_ifs at h with hroom
  cases h
  simp only [List.length_append, List.length_take, List.length_drop]
  omega

omit [DecidableEq α] in
/-- The places outside of the range. -/
theorem getElem?_store {m m' s : List α} {p i : ℕ} (h : store m p s = some m')
    (hi : i < p ∨ p + s.length ≤ i) : m'[i]? = m[i]? := by
  rw [store] at h
  split_ifs at h with hroom
  cases h
  have hp : (m.take p).length = p := List.length_take_of_le (by omega)
  rcases hi with hi | hi
  · rw [List.getElem?_append_left (by omega), List.getElem?_take_of_lt hi]
  · rw [List.getElem?_append_right (by omega), List.getElem?_append_right (by omega),
      List.getElem?_drop]
    congr 1
    omega

omit [DecidableEq α] in
/-- The range is read back. -/
theorem take_drop_store {m m' s rest : List α} {p : ℕ} (h : store m p (s ++ rest) = some m') :
    (m'.drop p).take s.length = s := by
  rw [store] at h
  split_ifs at h with hroom
  cases h
  have hp : (m.take p).length = p := List.length_take_of_le (by omega)
  rw [List.drop_left' hp, List.append_assoc, List.take_left]

omit [DecidableEq α] in
/-- Strings of one length, stored at that distance: each covers the terminator of the one before,
and the last terminator needs one more place. -/
theorem exists_storeStrings (nul : α) {distance : ℕ} {strings : List (List α)}
    (hstrings : ∀ s ∈ strings, s.length = distance) (pre : List α) {old : List α}
    (hroom : strings.length * distance < old.length) :
    ∃ rest, storeStrings nul distance strings pre.length (pre ++ old)
        = some (pre ++ (strings.flatten ++ rest)) ∧
      rest.length = old.length - strings.length * distance := by
  induction strings generalizing pre old with
  | nil => exact ⟨old, rfl, by simp⟩
  | cons s strings ih =>
      obtain ⟨hs, htail⟩ := List.forall_mem_cons.mp hstrings
      have hlen : (s :: strings).length * distance = strings.length * distance + distance := by
        rw [List.length_cons]
        ring
      rw [hlen] at hroom ⊢
      have hfits : (s ++ [nul]).length ≤ old.length := by
        rw [List.length_append, hs, List.length_singleton]
        omega
      have hstore := store_append pre hfits
      -- the string is done, and its terminator is where the next one goes
      have hleft : strings.length * distance < (nul :: old.drop (distance + 1)).length := by
        rw [List.length_cons, List.length_drop]
        omega
      obtain ⟨rest, hrest, hcount⟩ := ih htail (pre ++ s) hleft
      refine ⟨rest, ?_, ?_⟩
      · rw [storeStrings, hstore, Option.bind_some]
        have hshape : pre ++ (s ++ [nul] ++ old.drop (s ++ [nul]).length)
            = pre ++ s ++ nul :: old.drop (distance + 1) := by
          simp [hs]
        rw [hshape, ← hs, ← List.length_append, hs, hrest, List.flatten_cons]
        simp only [List.append_assoc]
      · rw [hcount, List.length_cons, List.length_drop]
        omega

end Block
