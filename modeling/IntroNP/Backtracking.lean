/-
# Backtracking in place

A search that fills the empty cells of a board one after another and gives up a value as soon as a
check of the whole board fails.  It has one board, which it changes: where no value is left for a
cell, the cell is emptied again.

* `search` : the search, through a list of cells;
* `Completes` : the boards that it looks for;
* `tryValues_cases` : the loop over the values of one cell, whatever the rest of the search does;
* `search_true`, `search_false` : a search that succeeds, and one that fails;
* `search_iff` : it finds a board if there is one, as long as the check never fails on a part of
  one.

Nothing here mentions a program of the repository.
-/
import Mathlib.Logic.Function.Basic
import Mathlib.Data.List.Basic

namespace Backtracking

variable {Cell Value : Type*} [DecidableEq Cell] [DecidableEq Value]

section search

variable (check : (Cell → Value) → Bool) (empty : Value)

/-- The loop over the values of a cell.  Each is written, and the rest of the search follows if the
check succeeds; what the rest leaves behind when it fails is where the loop goes on. -/
def tryValues (next : (Cell → Value) → Bool × (Cell → Value)) (c : Cell) :
    List Value → (Cell → Value) → Bool × (Cell → Value)
  | [], mp => (false, Function.update mp c empty)
  | x :: xs, mp =>
      let mp := Function.update mp c x
      if check mp then
        let r := next mp
        if r.1 then (true, r.2) else tryValues next c xs r.2
      else tryValues next c xs mp

/-- The search through a list of cells; the cells that are not empty are skipped. -/
def search (values : List Value) : List Cell → (Cell → Value) → Bool × (Cell → Value)
  | [], mp => (true, mp)
  | c :: cs, mp =>
      if mp c ≠ empty then search values cs mp
      else tryValues check empty (search values cs) c values mp

end search

/-- A board agrees with another one where that is not empty. -/
def Extends (empty : Value) (mp s : Cell → Value) : Prop := ∀ c, mp c ≠ empty → s c = mp c

/-- A board with values in all the cells of a list that agrees with another one and passes the
check. -/
structure Completes (check : (Cell → Value) → Bool) (empty : Value) (values : List Value)
    (cells : List Cell) (mp s : Cell → Value) : Prop where
  agrees : Extends empty mp s
  full : ∀ c ∈ cells, s c ∈ values
  passes : check s = true

variable {check : (Cell → Value) → Bool} {empty : Value} {values : List Value}
  {next : (Cell → Value) → Bool × (Cell → Value)} {c : Cell} {cells : List Cell}
  {mp s : Cell → Value}

omit [DecidableEq Cell] [DecidableEq Value] in
theorem Extends.refl (mp : Cell → Value) : Extends empty mp mp := fun _ _ => rfl

omit [DecidableEq Cell] [DecidableEq Value] in
theorem Extends.trans {t : Cell → Value} (h₁ : Extends empty mp s) (h₂ : Extends empty s t) :
    Extends empty mp t := by
  intro c hc
  rw [h₂ c (by rw [h₁ c hc]; exact hc), h₁ c hc]

omit [DecidableEq Value] in
/-- A value in an empty cell. -/
theorem extends_update (hc : mp c = empty) (x : Value) :
    Extends empty mp (Function.update mp c x) := by
  intro d hd
  have hne : d ≠ c := by
    rintro rfl
    exact hd hc
  rw [Function.update_of_ne hne]

omit [DecidableEq Value] in
/-- A board with the right value in one more cell is still a part of the solution. -/
theorem Extends.update (h : Extends empty mp s) (c : Cell) :
    Extends empty (Function.update mp c (s c)) s := by
  intro d hd
  by_cases hne : d = c
  · rw [hne, Function.update_self]
  · rw [Function.update_of_ne hne] at hd ⊢
    exact h d hd

omit [DecidableEq Value] in
/-- The loop over the values, if the rest of the search leaves the board as it was when it fails:
either the rest has succeeded with one of them, or it has failed with all of them. -/
theorem tryValues_cases (hnext : ∀ mp, (next mp).1 = false → (next mp).2 = mp) (xs : List Value)
    (mp : Cell → Value) :
    (∃ x ∈ xs, check (Function.update mp c x) = true ∧ (next (Function.update mp c x)).1 = true ∧
      tryValues check empty next c xs mp = next (Function.update mp c x)) ∨
    (tryValues check empty next c xs mp = (false, Function.update mp c empty) ∧
      ∀ x ∈ xs, check (Function.update mp c x) = true →
        (next (Function.update mp c x)).1 = false) := by
  induction xs generalizing mp with
  | nil => exact Or.inr ⟨rfl, List.forall_mem_nil _⟩
  | cons x xs ih =>
      -- what an earlier value has left in the cell is written over
      have hover : ∀ y, Function.update (Function.update mp c x) c y = Function.update mp c y :=
        fun y => Function.update_idem x y mp
      have hlater := ih (Function.update mp c x)
      simp only [hover] at hlater
      rw [tryValues]
      dsimp only
      by_cases hcheck : check (Function.update mp c x) = true
      · rw [if_pos hcheck]
        cases hrest : (next (Function.update mp c x)).1 with
        | true =>
            rw [if_pos rfl]
            exact Or.inl ⟨x, List.mem_cons_self, hcheck, hrest, Prod.ext hrest.symm rfl⟩
        | false =>
            rw [if_neg Bool.false_ne_true, hnext _ hrest]
            rcases hlater with ⟨y, hy, hfound⟩ | ⟨hfail, hnone⟩
            · exact Or.inl ⟨y, List.mem_cons_of_mem _ hy, hfound⟩
            · exact Or.inr ⟨hfail, List.forall_mem_cons.mpr ⟨fun _ => hrest, hnone⟩⟩
      · rw [if_neg hcheck]
        rcases hlater with ⟨y, hy, hfound⟩ | ⟨hfail, hnone⟩
        · exact Or.inl ⟨y, List.mem_cons_of_mem _ hy, hfound⟩
        · exact Or.inr ⟨hfail, List.forall_mem_cons.mpr ⟨fun h => absurd h hcheck, hnone⟩⟩

/-- A search that fails leaves the board as it was. -/
theorem search_restores (h : (search check empty values cells mp).1 = false) :
    (search check empty values cells mp).2 = mp := by
  induction cells generalizing mp with
  | nil => cases h
  | cons c cells ih =>
      rw [search] at h ⊢
      by_cases hc : mp c ≠ empty
      · rw [if_pos hc] at h ⊢
        exact ih h
      · rw [if_neg hc] at h ⊢
        rcases tryValues_cases (fun mp h => ih h) values mp with
          ⟨x, -, -, hrest, hfound⟩ | ⟨hfail, -⟩
        · rw [hfound, hrest] at h
          cases h
        · rw [hfail]
          exact Function.update_eq_self_iff.mpr (not_not.mp hc).symm

/-- There is nothing to do where no cell is empty. -/
theorem search_skip (h : ∀ c ∈ cells, mp c ≠ empty) :
    search check empty values cells mp = (true, mp) := by
  induction cells with
  | nil => rfl
  | cons c cells ih =>
      obtain ⟨hc, h⟩ := List.forall_mem_cons.mp h
      rw [search, if_pos hc, ih h]

/-- A search that succeeds has filled the cells, with one check of the whole board unless there was
nothing to fill. -/
theorem search_true (hempty : empty ∉ values) (h : (search check empty values cells mp).1 = true) :
    Extends empty mp (search check empty values cells mp).2 ∧
      (∀ c ∈ cells, (search check empty values cells mp).2 c ≠ empty) ∧
      (∀ c, mp c = empty → (search check empty values cells mp).2 c = empty ∨
        (search check empty values cells mp).2 c ∈ values) ∧
      ((∀ c ∈ cells, mp c ≠ empty) ∨
        check (search check empty values cells mp).2 = true) := by
  induction cells generalizing mp with
  | nil =>
      exact ⟨Extends.refl mp, List.forall_mem_nil _, fun c hc => Or.inl hc,
        Or.inl (List.forall_mem_nil _)⟩
  | cons c cells ih =>
      rw [search] at h ⊢
      by_cases hc : mp c ≠ empty
      · rw [if_pos hc] at h ⊢
        obtain ⟨hext, hfull, hvalues, hcheck⟩ := ih h
        refine ⟨hext, List.forall_mem_cons.mpr ⟨?_, hfull⟩, hvalues, ?_⟩
        · rw [hext c hc]
          exact hc
        · exact hcheck.imp_left fun hnone => List.forall_mem_cons.mpr ⟨hc, hnone⟩
      · rw [if_neg hc] at h ⊢
        rcases tryValues_cases (fun mp h => search_restores h) values mp with
          ⟨x, hx, hpass, hrest, hfound⟩ | ⟨hfail, -⟩
        · rw [hfound]
          obtain ⟨hext, hfull, hvalues, hcheck⟩ := ih hrest
          have hne : Function.update mp c x c ≠ empty := by
            rw [Function.update_self]
            rintro rfl
            exact hempty hx
          refine ⟨(extends_update (not_not.mp hc) x).trans hext,
            List.forall_mem_cons.mpr ⟨?_, hfull⟩, fun d hd => ?_, Or.inr ?_⟩
          · rw [hext c hne]
            exact hne
          · by_cases hdc : d = c
            · subst hdc
              rw [hext d hne, Function.update_self]
              exact Or.inr hx
            · exact hvalues d (by rw [Function.update_of_ne hdc]; exact hd)
          · -- if no cell is left, the check after the last value was about the whole board
            rcases hcheck with hnone | hcheck
            · rw [search_skip hnone]
              exact hpass
            · exact hcheck
        · rw [hfail] at h
          cases h

/-- A search that fails has missed nothing, if the check succeeds on all parts of a solution. -/
theorem search_false (hparts : ∀ mp s, Extends empty mp s → check s = true → check mp = true)
    (h : (search check empty values cells mp).1 = false) :
    ¬ ∃ s, Completes check empty values cells mp s := by
  rintro ⟨s, hs⟩
  induction cells generalizing mp with
  | nil => cases h
  | cons c cells ih =>
      obtain ⟨hvalue, hfull⟩ := List.forall_mem_cons.mp hs.full
      rw [search] at h
      by_cases hc : mp c ≠ empty
      · rw [if_pos hc] at h
        exact ih h ⟨hs.agrees, hfull, hs.passes⟩
      · rw [if_neg hc] at h
        rcases tryValues_cases (fun mp h => search_restores h) values mp with
          ⟨x, -, -, hrest, hfound⟩ | ⟨-, hnone⟩
        · rw [hfound, hrest] at h
          cases h
        · -- the value of the solution is tried too, and the rest of the search has failed with it
          have hagrees := hs.agrees.update c
          exact ih (hnone (s c) hvalue (hparts _ s hagrees hs.passes))
            ⟨hagrees, hfull, hs.passes⟩

/-- The search through all cells of a board with an empty cell finds a solution if and only if
there is one. -/
theorem search_iff (hempty : empty ∉ values) (hcells : ∀ c, c ∈ cells)
    (hparts : ∀ mp s, Extends empty mp s → check s = true → check mp = true)
    (hvalues : ∀ c, mp c = empty ∨ mp c ∈ values) (hsome : ∃ c, mp c = empty) :
    ((search check empty values cells mp).1 = true ↔
      ∃ s, Completes check empty values cells mp s) ∧
    ((search check empty values cells mp).1 = true →
      Completes check empty values cells mp (search check empty values cells mp).2) := by
  have hfound : (search check empty values cells mp).1 = true →
      Completes check empty values cells mp (search check empty values cells mp).2 := by
    intro h
    obtain ⟨hext, hfull, hnew, hcheck⟩ := search_true hempty h
    refine ⟨hext, fun c hc => ?_, ?_⟩
    · rcases hvalues c with hc' | hc'
      · exact (hnew c hc').resolve_left (hfull c hc)
      · have hne : mp c ≠ empty := by
          intro heq
          rw [heq] at hc'
          exact hempty hc'
        rw [hext c hne]
        exact hc'
    · obtain ⟨c, hc⟩ := hsome
      exact hcheck.resolve_left fun hnone => hnone c (hcells c) hc
  refine ⟨⟨fun h => ⟨_, hfound h⟩, fun hs => ?_⟩, hfound⟩
  by_contra h
  exact search_false hparts (Bool.eq_false_iff.mpr h) hs

end Backtracking
