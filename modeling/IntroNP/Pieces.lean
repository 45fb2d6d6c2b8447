/-
# The pieces of a text

The cut of a text at a separator, where a separator at the very end opens no further piece.
Lines of a text file are cut like this at line feeds, and so are the labels of a domain name at
dots.

* `pieces` : the cut;
* `pieces_append_sep`, `pieces_of_notMem` : how it is computed from a known first piece;
* `pieces_separated` : joining pieces and cutting again, with or without a separator at the
  end;
* `length_pieces_le` : the pieces are not longer than the text;
* `exists_separated`, `eq_of_pieces_eq` : a text is its pieces joined again, so that texts with the
  same pieces differ by a separator at the end.
-/
import Mathlib.Data.List.Basic

variable {α : Type*} [DecidableEq α]

/-- The pieces of a text between separators; a separator at the end opens no piece. -/
def pieces (sep : α) : List α → List (List α)
  | [] => []
  | a :: s =>
      if a = sep then [] :: pieces sep s
      else match pieces sep s with
        | [] => [[a]]
        | t :: ts => (a :: t) :: ts

/-- The pieces with the separator between them, and at the end if asked for. -/
def separated (sep : α) (last : Bool) : List (List α) → List α
  | [] => []
  | [t] => if last then t ++ [sep] else t
  | t :: u :: ts => t ++ sep :: separated sep last (u :: ts)

variable {sep : α}

/-- A piece without the separator, closed by it. -/
theorem pieces_append_sep {t : List α} (h : sep ∉ t) (s : List α) :
    pieces sep (t ++ sep :: s) = t :: pieces sep s := by
  induction t with
  | nil => simp [pieces]
  | cons a t ih =>
      rw [List.mem_cons, not_or] at h
      obtain ⟨ha, ht⟩ := h
      rw [List.cons_append, pieces, if_neg (Ne.symm ha), ih ht]

/-- A last piece, not empty and not closed. -/
theorem pieces_of_notMem {t : List α} (h : sep ∉ t) (hne : t ≠ []) : pieces sep t = [t] := by
  induction t with
  | nil => exact absurd rfl hne
  | cons a t ih =>
      rw [List.mem_cons, not_or] at h
      obtain ⟨ha, ht⟩ := h
      rw [pieces, if_neg (Ne.symm ha)]
      cases t with
      | nil => rfl
      | cons b t => rw [ih ht (List.cons_ne_nil b t)]

omit [DecidableEq α] in
/-- What stands in joined pieces is the separator or stands in a piece. -/
theorem mem_separated {last : Bool} {ts : List (List α)} {a : α}
    (h : a ∈ separated sep last ts) : a = sep ∨ ∃ t ∈ ts, a ∈ t := by
  induction ts with
  | nil => cases h
  | cons t ts ih =>
      cases ts with
      | nil =>
          rw [separated] at h
          cases last with
          | true =>
              rw [if_pos rfl, List.mem_append, List.mem_singleton] at h
              rcases h with h | h
              · exact Or.inr ⟨t, List.mem_cons_self, h⟩
              · exact Or.inl h
          | false => exact Or.inr ⟨t, List.mem_cons_self, h⟩
      | cons u ts =>
          rw [separated, List.mem_append, List.mem_cons] at h
          rcases h with h | h | h
          · exact Or.inr ⟨t, List.mem_cons_self, h⟩
          · exact Or.inl h
          · rcases ih h with h | ⟨v, hv, h⟩
            · exact Or.inl h
            · exact Or.inr ⟨v, List.mem_cons_of_mem _ hv, h⟩

omit [DecidableEq α] in
theorem separated_ne_nil {last : Bool} {ts : List (List α)} (hts : ts ≠ [])
    (h : ∀ t ∈ ts, t ≠ []) : separated sep last ts ≠ [] := by
  match ts with
  | [] => exact absurd rfl hts
  | [t] =>
      have ht := h t List.mem_cons_self
      cases last <;> simp [separated, ht]
  | t :: u :: ts => simp [separated]

/-- Pieces joined by separators; the last one must not be empty if it is not closed. -/
theorem pieces_separated {last : Bool} {ts : List (List α)} (h : ∀ t ∈ ts, sep ∉ t)
    (hlast : last = true ∨ ∀ t ∈ ts.getLast?, t ≠ []) : pieces sep (separated sep last ts) = ts := by
  induction ts with
  | nil => rfl
  | cons t ts ih =>
      have ht := h t List.mem_cons_self
      cases ts with
      | nil =>
          rw [separated]
          rcases hlast with rfl | hne
          · rw [if_pos rfl, pieces_append_sep ht, pieces]
          · cases last with
            | true => rw [if_pos rfl, pieces_append_sep ht, pieces]
            | false => exact pieces_of_notMem ht (hne t rfl)
      | cons u ts =>
          rw [separated, pieces_append_sep ht,
            ih (fun v hv => h v (List.mem_cons_of_mem _ hv)) (by simpa using hlast)]

/-- The pieces, each with a place for its separator, take at most one place more than the text. -/
theorem length_pieces_le (s : List α) :
    (pieces sep s).flatten.length + (pieces sep s).length ≤ s.length + 1 := by
  induction s with
  | nil => exact Nat.zero_le _
  | cons a s ih =>
      rw [pieces]
      by_cases ha : a = sep
      · rw [if_pos ha, List.flatten_cons, List.nil_append, List.length_cons, List.length_cons]
        omega
      · rw [if_neg ha]
        cases hp : pieces sep s with
        | nil => simp
        | cons t ts =>
            rw [hp] at ih
            simp only [List.flatten_cons, List.length_append, List.length_cons] at ih ⊢
            omega

omit [DecidableEq α] in
/-- A closed last piece. -/
theorem separated_true {ts : List (List α)} (h : ts ≠ []) :
    separated sep true ts = separated sep false ts ++ [sep] := by
  induction ts with
  | nil => exact absurd rfl h
  | cons t ts ih =>
      cases ts with
      | nil => rfl
      | cons u ts =>
          rw [separated, separated, ih (List.cons_ne_nil u ts), List.append_assoc,
            List.cons_append]

omit [DecidableEq α] in
theorem separated_cons_cons {last : Bool} (a : α) (t : List α) (ts : List (List α)) :
    separated sep last ((a :: t) :: ts) = a :: separated sep last (t :: ts) := by
  cases ts with
  | nil => cases last <;> rfl
  | cons u ts => rfl

/-- A text is its pieces joined again. -/
theorem exists_separated (s : List α) : ∃ last, s = separated sep last (pieces sep s) := by
  induction s with
  | nil => exact ⟨false, rfl⟩
  | cons a s ih =>
      obtain ⟨last, hs⟩ := ih
      rw [pieces]
      by_cases ha : a = sep
      · rw [if_pos ha, ha]
        cases hp : pieces sep s with
        | nil =>
            rw [hp] at hs
            rw [hs]
            exact ⟨true, rfl⟩
        | cons t ts =>
            rw [hp] at hs
            exact ⟨last, by rw [separated, ← hs, List.nil_append]⟩
      · rw [if_neg ha]
        cases hp : pieces sep s with
        | nil =>
            rw [hp] at hs
            rw [hs]
            exact ⟨false, rfl⟩
        | cons t ts =>
            rw [hp] at hs
            exact ⟨last, by rw [separated_cons_cons, ← hs]⟩

theorem pieces_eq_nil {s : List α} (h : pieces sep s = []) : s = [] := by
  obtain ⟨last, hs⟩ : ∃ last, s = separated sep last (pieces sep s) := exists_separated s
  rw [hs, h, separated]

/-- A separator between two texts. -/
theorem pieces_append_cons (s t : List α) :
    pieces sep (s ++ sep :: t) = pieces sep (s ++ [sep]) ++ pieces sep t := by
  induction s with
  | nil => simp [pieces]
  | cons a s ih =>
      rw [List.cons_append, List.cons_append, pieces, pieces, ih]
      by_cases ha : a = sep
      · rw [if_pos ha, if_pos ha, List.cons_append]
      · rw [if_neg ha, if_neg ha]
        cases hp : pieces sep (s ++ [sep]) with
        | nil => exact absurd (pieces_eq_nil hp) (List.append_ne_nil_of_right_ne_nil _ (by simp))
        | cons u us => rfl

/-- The first piece begins as the text does, up to a separator. -/
theorem exists_pieces_append {t : List α} (h : sep ∉ t) (hne : t ≠ []) (s : List α) :
    ∃ u us, pieces sep (t ++ s) = (t ++ u) :: us := by
  induction t with
  | nil => exact absurd rfl hne
  | cons a t ih =>
      rw [List.mem_cons, not_or] at h
      obtain ⟨ha, ht⟩ := h
      rw [List.cons_append, pieces, if_neg (Ne.symm ha)]
      by_cases hnil : t = []
      · subst hnil
        rw [List.nil_append]
        cases pieces sep s with
        | nil => exact ⟨[], [], rfl⟩
        | cons u us => exact ⟨u, us, rfl⟩
      · obtain ⟨u, us, hpieces⟩ := ih ht hnil
        rw [hpieces]
        exact ⟨u, us, rfl⟩

/-- A separator at the end, behind a piece that is not closed yet. -/
theorem pieces_concat {s : List α} (hne : s ≠ []) (h : s.getLast? ≠ some sep) :
    pieces sep (s ++ [sep]) = pieces sep s := by
  induction s with
  | nil => exact absurd rfl hne
  | cons a s ih =>
      cases s with
      | nil =>
          have ha : a ≠ sep := by simpa using h
          simp [pieces, ha]
      | cons b s =>
          rw [List.getLast?_cons_cons] at h
          rw [List.cons_append, pieces, pieces, ih (List.cons_ne_nil b s) h]

/-- Texts with the same pieces are the same, or one has a separator more at the end. -/
theorem eq_of_pieces_eq {s t : List α} (h : pieces sep s = pieces sep t) :
    s = t ∨ s = t ++ [sep] ∨ t = s ++ [sep] := by
  by_cases hnil : pieces sep s = []
  · left
    rw [pieces_eq_nil hnil, pieces_eq_nil (h.symm.trans hnil)]
  · obtain ⟨last, hs⟩ : ∃ last, s = separated sep last (pieces sep s) := exists_separated s
    obtain ⟨last', ht⟩ : ∃ last, t = separated sep last (pieces sep t) := exists_separated t
    rw [← h] at ht
    have htrue : separated sep true (pieces sep s) = separated sep false (pieces sep s) ++ [sep] :=
      separated_true hnil
    cases last with
    | false =>
        cases last' with
        | false => exact Or.inl (hs.trans ht.symm)
        | true => exact Or.inr (Or.inr (by rw [ht, htrue, ← hs]))
    | true =>
        cases last' with
        | false => exact Or.inr (Or.inl (by rw [hs, htrue, ← ht]))
        | true => exact Or.inl (hs.trans ht.symm)

example : pieces 0 [1, 2, 0, 0, 3, 0] = [[1, 2], [], [3]] := by decide
