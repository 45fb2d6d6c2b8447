/-
# Tokens between separators

The nonempty pieces of a text between separators, as C's `strtok` finds them, and how they depend
on a cut of the text into successive parts: a part that ends inside a token splits it in two.

* `tokens` : the tokens of a text;
* `tokens_cons_sep`, `tokens_cons_last`, `tokens_cons_text` : how they are computed;
* `Clean`, `Whole` : boundaries between parts that split no token;
* `flatMap_tokens_eq_iff` : the parts have the tokens of the text if and only if no boundary
  splits one.

Nothing here mentions a program of the repository.
-/
import Mathlib.Data.List.Basic
import Mathlib.Data.List.Chain

variable {α : Type*} {p : α → Bool}

/-- The nonempty pieces of a text between the elements that satisfy `p`. -/
def tokens (p : α → Bool) (s : List α) : List (List α) :=
  (s.splitOnP p).filter fun t => !t.isEmpty

@[simp] theorem tokens_nil : tokens p [] = [] := rfl

/-- A separator between two texts. -/
theorem tokens_append_cons (s : List α) {a : α} (ha : p a = true) (t : List α) :
    tokens p (s ++ a :: t) = tokens p s ++ tokens p t := by
  rw [tokens, List.splitOnP_append_cons s t ha, List.filter_append, tokens, tokens]

/-- A separator in front of a text. -/
theorem tokens_cons_sep {a : α} (ha : p a = true) (s : List α) :
    tokens p (a :: s) = tokens p s :=
  tokens_append_cons [] ha s

/-- An element behind which no token goes on. -/
theorem tokens_cons_last {a : α} (ha : p a = false) {s : List α} (hs : ∀ b ∈ s.head?, p b = true) :
    tokens p (a :: s) = [a] :: tokens p s := by
  have hone : tokens p [a] = [[a]] := by
    rw [tokens, List.splitOnP_eq_singleton (by simpa using ha)]
    rfl
  cases s with
  | nil => exact hone
  | cons b s =>
      have hb : p b = true := hs b rfl
      rw [← List.singleton_append, tokens_append_cons [a] hb, hone, tokens_cons_sep hb,
        List.singleton_append]

/-- An element in front of a token. -/
theorem tokens_cons_text {a b : α} (ha : p a = false) (hb : p b = false) (s : List α) :
    ∃ t ts, tokens p (b :: s) = t :: ts ∧ tokens p (a :: b :: s) = (a :: t) :: ts := by
  obtain ⟨t, ts, hts⟩ := List.exists_cons_of_ne_nil (List.splitOnP_ne_nil p s)
  refine ⟨b :: t, ts.filter fun t => !t.isEmpty, ?_, ?_⟩
  · rw [tokens, List.splitOnP_cons_eq_if_modifyHead, if_neg (by simp [hb]), hts]
    rfl
  · rw [tokens, List.splitOnP_cons_eq_if_modifyHead, if_neg (by simp [ha]),
      List.splitOnP_cons_eq_if_modifyHead, if_neg (by simp [hb]), hts]
    rfl

/-- A token at the beginning of a text. -/
theorem tokens_append {t s : List α} (ht : ∀ a ∈ t, p a = false) (hne : t ≠ [])
    (hs : ∀ b ∈ s.head?, p b = true) : tokens p (t ++ s) = t :: tokens p s := by
  induction t with
  | nil => exact absurd rfl hne
  | cons a t ih =>
      have ha := ht a List.mem_cons_self
      cases t with
      | nil => exact tokens_cons_last ha hs
      | cons b t =>
          have hb := ht b (List.mem_cons_of_mem _ List.mem_cons_self)
          have htail := ih (fun c hc => ht c (List.mem_cons_of_mem _ hc)) (List.cons_ne_nil b t)
          obtain ⟨u, us, hu, hau⟩ := tokens_cons_text ha hb (t ++ s)
          rw [List.cons_append] at htail
          rw [htail, List.cons.injEq] at hu
          rw [List.cons_append, List.cons_append, hau, ← hu.1, ← hu.2]

/-- Separators in front of a text play no part. -/
theorem tokens_dropWhile (s : List α) : tokens p (s.dropWhile p) = tokens p s := by
  induction s with
  | nil => rfl
  | cons a s ih =>
      cases ha : p a with
      | true => rw [List.dropWhile_cons_of_pos ha, ih, tokens_cons_sep ha]
      | false => rw [List.dropWhile_cons_of_neg (by simp [ha])]

/-! ## Cuts -/

/-- No token goes on from the first part into the second one. -/
def Clean (p : α → Bool) (u v : List α) : Prop :=
  ∀ a ∈ u.getLast?, ∀ b ∈ v.head?, p a = true ∨ p b = true

/-- No token goes on from one part of a cut into the next one. -/
def Whole (p : α → Bool) (c : List (List α)) : Prop := c.IsChain (Clean p)

theorem tokens_append_of_clean {u v : List α} (h : Clean p u v) :
    tokens p (u ++ v) = tokens p u ++ tokens p v := by
  rcases List.eq_nil_or_concat' u with rfl | ⟨u, a, rfl⟩
  · rfl
  · cases v with
    | nil => simp
    | cons b v =>
        rcases h a (by simp) b rfl with ha | hb
        · have hlast : tokens p (u ++ [a]) = tokens p u := by
            rw [tokens_append_cons u ha, tokens_nil, List.append_nil]
          rw [hlast, List.append_assoc, List.singleton_append, tokens_append_cons u ha]
        · rw [tokens_append_cons _ hb, tokens_cons_sep hb]

/-- A token that is split counts twice. -/
theorem length_tokens_split {x y : α} (hx : p x = false) (hy : p y = false) (u v : List α) :
    (tokens p (u ++ x :: y :: v)).length + 1
      = (tokens p (u ++ [x])).length + (tokens p (y :: v)).length := by
  induction u with
  | nil =>
      obtain ⟨t, ts, hv, hxv⟩ := tokens_cons_text hx hy v
      have hone : tokens p [x] = [[x]] := tokens_cons_last hx (by simp)
      rw [List.nil_append, List.nil_append, hxv, hv, hone]
      simp only [List.length_cons, List.length_nil]
      omega
  | cons a u ih =>
      rw [List.cons_append, List.cons_append]
      cases ha : p a with
      | true => rw [tokens_cons_sep ha, tokens_cons_sep ha, ih]
      | false =>
          -- the two texts behind `a` begin alike
          obtain ⟨b, s, s', hs, hs'⟩ : ∃ b s s', u ++ x :: y :: v = b :: s ∧ u ++ [x] = b :: s' := by
            cases u with
            | nil => exact ⟨x, y :: v, [], rfl, rfl⟩
            | cons b u => exact ⟨b, u ++ x :: y :: v, u ++ [x], rfl, rfl⟩
          rw [hs, hs'] at ih ⊢
          cases hb : p b with
          | true =>
              have hhead : ∀ s : List α, ∀ c ∈ (b :: s).head?, p c = true := by
                rintro s c ⟨⟩
                exact hb
              rw [tokens_cons_last ha (hhead s), tokens_cons_last ha (hhead s'), List.length_cons,
                List.length_cons, ih]
              omega
          | false =>
              obtain ⟨t, ts, h, hcons⟩ := tokens_cons_text ha hb s
              obtain ⟨t', ts', h', hcons'⟩ := tokens_cons_text ha hb s'
              rw [h, h'] at ih
              rw [hcons, hcons']
              exact ih

theorem length_tokens_append_of_not_clean {u v : List α} (h : ¬ Clean p u v) :
    (tokens p (u ++ v)).length + 1 = (tokens p u).length + (tokens p v).length := by
  rcases List.eq_nil_or_concat' u with rfl | ⟨u, x, rfl⟩
  · exact absurd (by rintro a ⟨⟩) h
  · cases v with
    | nil => exact absurd (by rintro a - b ⟨⟩) h
    | cons y v =>
        have hxy : ¬ (p x = true ∨ p y = true) := by
          intro hsep
          refine h fun a ha b hb => ?_
          obtain rfl : x = a := by simpa using ha
          obtain rfl : y = b := by simpa using hb
          exact hsep
        rw [not_or, Bool.not_eq_true, Bool.not_eq_true] at hxy
        rw [List.append_assoc, List.singleton_append, length_tokens_split hxy.1 hxy.2]

/-- The tokens of the parts are those of the text when no boundary splits a token, and more
otherwise. -/
theorem flatMap_tokens {c : List (List α)} (hne : ∀ u ∈ c, u ≠ []) :
    (Whole p c → c.flatMap (tokens p) = tokens p c.flatten) ∧
      (¬ Whole p c → (tokens p c.flatten).length < (c.flatMap (tokens p)).length) := by
  induction c with
  | nil => exact ⟨fun _ => rfl, fun h => absurd List.isChain_nil h⟩
  | cons u c ih =>
      obtain ⟨ihwhole, ihsplit⟩ := ih fun v hv => hne v (List.mem_cons_of_mem _ hv)
      have hle : (tokens p c.flatten).length ≤ (c.flatMap (tokens p)).length := by
        by_cases hc : Whole p c
        · rw [ihwhole hc]
        · exact (ihsplit hc).le
      -- the next part begins like all that follows
      have hclean : Whole p (u :: c) ↔ Clean p u c.flatten ∧ Whole p c := by
        cases c with
        | nil => simp [Whole, Clean]
        | cons v c =>
            have hhead : (v :: c).flatten.head? = v.head? := by
              obtain ⟨b, v, rfl⟩ := List.exists_cons_of_ne_nil
                (hne v (List.mem_cons_of_mem _ List.mem_cons_self))
              rfl
            rw [Whole, List.isChain_cons_cons, Clean, Clean, hhead, Whole]
      rw [hclean, List.flatten_cons, List.flatMap_cons]
      constructor
      · rintro ⟨hu, hc⟩
        rw [tokens_append_of_clean hu, ihwhole hc]
      · intro hsplit
        rw [List.length_append]
        by_cases hu : Clean p u c.flatten
        · have hc := ihsplit fun hc => hsplit ⟨hu, hc⟩
          rw [tokens_append_of_clean hu, List.length_append]
          omega
        · have hlen := length_tokens_append_of_not_clean hu
          omega

/-- The parts of a text have its tokens, or the same image of them, if and only if no boundary
splits a token. -/
theorem flatMap_tokens_eq_iff {β : Type*} (f : List α → β) {c : List (List α)}
    (hne : ∀ u ∈ c, u ≠ []) :
    (c.flatMap fun u => (tokens p u).map f) = (tokens p c.flatten).map f ↔ Whole p c := by
  obtain ⟨hwhole, hsplit⟩ := flatMap_tokens (p := p) hne
  rw [← List.map_flatMap]
  constructor
  · intro heq
    by_contra hc
    have hlt := hsplit hc
    have hlen := congrArg List.length heq
    rw [List.length_map, List.length_map] at hlen
    omega
  · intro hc
    rw [hwhole hc]

example : tokens (· = 0) [0, 1, 2, 0, 0, 3] = [[1, 2], [3]] := by decide
