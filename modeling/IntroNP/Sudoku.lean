/-
# The Sudoku solver

The client of the lab reads a board, fills it with `dfs` and sends it back.  The board is an array
of rows of numbers, where 0 stands for an empty cell; `dfs` changes it in place.

* `valid` : no row, column or box has a value twice, the empty cells apart;
* `dfs` : the search from the `k`-th cell on, with the board that it leaves behind;
* `Solution` : what the solver looks for;
* `valid_iff` : what the three loops of `valid` say;
* `completes_iff` : the boards that a search with `valid` looks for are the solutions;
* `dfs_correct` : the search finds a solution if there is one, and restores the board if not;
* `session`, `session_spec` : what the client writes to the server of the game.

* source : `Lab/9/UNIX Domain Sudoku/solver.cpp`
-/
import IntroNP.Backtracking
import IntroNP.Bytes
import Mathlib.Data.List.FinRange
import Mathlib.Data.List.Nodup

namespace Sudoku

/-! ## The board -/

/-- A row and a column. -/
abbrev Cell := Fin 9 × Fin 9

/-- `Board`. -/
abbrev Board := Cell → ℕ

/-- The `j`-th cell of the `i`-th box: `mp[ix*3+jx][iy*3+jy]`. -/
def boxCell (i j : Fin 9) : Cell :=
  (⟨i.val / 3 * 3 + j.val / 3, by omega⟩, ⟨i.val % 3 * 3 + j.val % 3, by omega⟩)

/-- `cnt` : how often each of the numbers 0 to 9 occurs. -/
def counts (l : List ℕ) : List ℕ :=
  l.foldl (fun cnt x => cnt.modify x (· + 1)) (List.replicate 10 0)

/-- The body of the loops in `valid`: the largest number of `cnt`, where `cnt[0]` is cleared, is not
above 1. -/
def noRepeat (l : List ℕ) : Bool := ((counts l).set 0 0).foldr max 0 ≤ 1

/-- `valid`. -/
def valid (mp : Board) : Bool :=
  (List.finRange 9).all (fun i => noRepeat ((List.finRange 9).map fun j => mp (i, j))) &&
  (List.finRange 9).all (fun i => noRepeat ((List.finRange 9).map fun j => mp (j, i))) &&
  (List.finRange 9).all (fun i => noRepeat ((List.finRange 9).map fun j => mp (boxCell i j)))

/-- `mp[k / 9][k % 9]`. -/
def cellAt (k : ℕ) : Cell := (Fin.ofNat 9 (k / 9), Fin.ofNat 9 (k % 9))

/-- The values that are tried in a cell. -/
def values : List ℕ := List.range' 1 9

/-- `dfs`, with the number of cells that are left. -/
def dfsLeft : ℕ → Board → Bool × Board
  | 0, mp => (true, mp)
  | n + 1, mp =>
      if mp (cellAt (80 - n)) ≠ 0 then dfsLeft n mp
      else Backtracking.tryValues valid 0 (dfsLeft n) (cellAt (80 - n)) values mp

/-- `dfs(mp, k)` : the answer, and the board afterwards. -/
def dfs (mp : Board) (k : ℕ) : Bool × Board := dfsLeft (81 - k) mp

theorem dfs_last (mp : Board) : dfs mp 81 = (true, mp) := rfl

/-- One call of `dfs`. -/
theorem dfs_eq (mp : Board) {k : ℕ} (hk : k < 81) :
    dfs mp k =
      if mp (cellAt k) ≠ 0 then dfs mp (k + 1)
      else Backtracking.tryValues valid 0 (fun mp => dfs mp (k + 1)) (cellAt k) values mp := by
  have hleft : 81 - k = (81 - (k + 1)) + 1 := by omega
  have hcell : 80 - (81 - (k + 1)) = k := by omega
  rw [dfs, hleft, dfsLeft, hcell]
  rfl

/-- `solve`, which ends the program where there is no solution. -/
def solve (mp : Board) : Option Board := if (dfs mp 0).1 then some (dfs mp 0).2 else none

/-! ## The rules -/

/-- The two cells are in the same box. -/
def SameBox (c d : Cell) : Prop :=
  c.1.val / 3 = d.1.val / 3 ∧ c.2.val / 3 = d.2.val / 3

/-- A full board that agrees with `mp` and has no value twice in a row, a column or a box. -/
structure Solution (mp s : Board) : Prop where
  agrees : ∀ c, mp c ≠ 0 → s c = mp c
  full : ∀ c, 1 ≤ s c ∧ s c ≤ 9
  rows : ∀ i j j', s (i, j) = s (i, j') → j = j'
  columns : ∀ j i i', s (i, j) = s (i', j) → i = i'
  boxes : ∀ c d, SameBox c d → s c = s d → c = d

/-- No two of the cells have the same value, among the values 1 to 9. -/
def Distinct (f : Fin 9 → ℕ) : Prop := ∀ j j', f j = f j' → f j ≠ 0 → f j ≤ 9 → j = j'

/-! ## The check -/

theorem counts_foldl (l cnt : List ℕ) (x : ℕ) :
    (l.foldl (fun cnt x => cnt.modify x (· + 1)) cnt)[x]? = cnt[x]?.map (· + l.count x) := by
  induction l generalizing cnt with
  | nil => simp
  | cons y l ih =>
      rw [List.foldl_cons, ih, List.getElem?_modify, List.count_cons]
      cases cnt[x]? with
      | none => rfl
      | some n =>
          by_cases h : y = x <;> simp [h]
          omega

theorem counts_getElem? (l : List ℕ) {x : ℕ} (hx : x ≤ 9) : (counts l)[x]? = some (l.count x) := by
  rw [counts, counts_foldl, List.getElem?_replicate, if_pos (by omega)]
  simp

theorem length_counts (l : List ℕ) : (counts l).length = 10 := by
  have h : ∀ cnt : List ℕ,
      (l.foldl (fun cnt x => cnt.modify x (· + 1)) cnt).length = cnt.length := by
    induction l with
    | nil => exact fun _ => rfl
    | cons x l ih =>
        intro cnt
        rw [List.foldl_cons, ih, List.length_modify]
  rw [counts, h, List.length_replicate]

theorem foldr_max_le {l : List ℕ} {n : ℕ} : l.foldr max 0 ≤ n ↔ ∀ x ∈ l, x ≤ n := by
  induction l with
  | nil => simp
  | cons x l ih => rw [List.foldr_cons, Nat.max_le, ih, List.forall_mem_cons]

/-- The body of a loop looks at the counts of the values 1 to 9. -/
theorem noRepeat_iff (l : List ℕ) :
    noRepeat l = true ↔ ∀ x, x ≠ 0 → x ≤ 9 → l.count x ≤ 1 := by
  rw [noRepeat, decide_eq_true_iff, foldr_max_le]
  constructor
  · intro h x hx hle
    apply h
    rw [List.mem_iff_getElem?]
    exact ⟨x, by rw [List.getElem?_set_ne hx.symm, counts_getElem? l hle]⟩
  · intro h y hy
    obtain ⟨x, hx⟩ := List.mem_iff_getElem?.mp hy
    by_cases hzero : x = 0
    · rw [hzero, List.getElem?_set_self (by rw [length_counts]; omega)] at hx
      cases hx
      exact Nat.zero_le 1
    · rw [List.getElem?_set_ne (Ne.symm hzero)] at hx
      have hle : x ≤ 9 := by
        have hlt := List.getElem?_eq_some_iff.mp hx |>.1
        rw [length_counts] at hlt
        omega
      rw [counts_getElem? l hle] at hx
      cases hx
      exact h x hzero hle

/-- The same of nine cells. -/
theorem noRepeat_map (f : Fin 9 → ℕ) :
    noRepeat ((List.finRange 9).map f) = true ↔ Distinct f := by
  rw [noRepeat_iff]
  have hnodup : (∀ x, x ≠ 0 → x ≤ 9 → ((List.finRange 9).map f).count x ≤ 1) ↔
      ((((List.finRange 9).map f).filter fun x => x ≠ 0 ∧ x ≤ 9)).Nodup := by
    rw [List.nodup_iff_count_le_one]
    refine forall_congr' fun x => ?_
    by_cases hx : x ≠ 0 ∧ x ≤ 9
    · rw [List.count_filter (by simpa using hx)]
      exact ⟨fun h => h hx.1 hx.2, fun h _ _ => h⟩
    · have hnot : x ∉ ((List.finRange 9).map f).filter fun x => x ≠ 0 ∧ x ≤ 9 := by
        rw [List.mem_filter, decide_eq_true_iff]
        exact fun h => hx h.2
      rw [List.count_eq_zero_of_not_mem hnot]
      exact ⟨fun _ => Nat.zero_le 1, fun _ h h' => absurd ⟨h, h'⟩ hx⟩
  rw [hnodup, List.filter_map, List.nodup_map_iff_inj_on ((List.nodup_finRange 9).filter _)]
  simp only [List.mem_filter, List.mem_finRange, true_and, Function.comp_apply,
    decide_eq_true_iff]
  constructor
  · intro h j j' heq hne hle
    exact h j ⟨hne, hle⟩ j' (by rw [← heq]; exact ⟨hne, hle⟩) heq
  · intro h j hj j' _ heq
    exact h j j' heq hj.1 hj.2

/-- `valid` is about the rows, the columns and the boxes. -/
theorem valid_iff (mp : Board) :
    valid mp = true ↔
      (∀ i, Distinct fun j => mp (i, j)) ∧ (∀ i, Distinct fun j => mp (j, i)) ∧
        ∀ i, Distinct fun j => mp (boxCell i j) := by
  simp only [valid, Bool.and_eq_true, List.all_eq_true, List.mem_finRange, true_implies,
    noRepeat_map, and_assoc]

theorem Distinct.of_extends {f g : Fin 9 → ℕ} (hg : Distinct g)
    (h : ∀ j, f j ≠ 0 → g j = f j) : Distinct f := by
  intro j j' heq hne hle
  have hj := h j hne
  have hj' := h j' (by rw [← heq]; exact hne)
  exact hg j j' (by rw [hj, hj', heq]) (by rw [hj]; exact hne) (by rw [hj]; exact hle)

/-- The check does not fail on a part of a board on which it succeeds. -/
theorem valid_of_extends (mp s : Board) (h : Backtracking.Extends 0 mp s)
    (hs : valid s = true) : valid mp = true := by
  rw [valid_iff] at hs ⊢
  obtain ⟨hrows, hcolumns, hboxes⟩ := hs
  exact ⟨fun i => (hrows i).of_extends fun j => h (i, j),
    fun i => (hcolumns i).of_extends fun j => h (j, i),
    fun i => (hboxes i).of_extends fun j => h (boxCell i j)⟩

/-! ## The search -/

/-- All cells, in the order in which `dfs` goes through them. -/
def cells : List Cell := (List.range 81).map cellAt

theorem mem_cells (c : Cell) : c ∈ cells := by
  apply List.mem_map.mpr
  refine ⟨9 * c.1.val + c.2.val, List.mem_range.mpr (by omega), ?_⟩
  apply Prod.ext
  · apply Fin.ext
    show (9 * c.1.val + c.2.val) / 9 % 9 = c.1.val
    omega
  · apply Fin.ext
    show (9 * c.1.val + c.2.val) % 9 % 9 = c.2.val
    omega

/-- `dfs` is a search through the cells that are left. -/
theorem dfsLeft_eq_search {n : ℕ} (hn : n ≤ 81) :
    dfsLeft n = Backtracking.search valid 0 values ((List.range' (81 - n) n).map cellAt) := by
  induction n with
  | zero => rfl
  | succ n ih =>
      funext mp
      have hfirst : 81 - (n + 1) = 80 - n := by omega
      have hrest : 80 - n + 1 = 81 - n := by omega
      rw [dfsLeft, ih (by omega), hfirst, List.range'_succ, List.map_cons, Backtracking.search,
        hrest]

theorem dfs_eq_search (mp : Board) : dfs mp 0 = Backtracking.search valid 0 values cells mp := by
  rw [dfs, dfsLeft_eq_search (Nat.sub_le 81 0), cells, List.range_eq_range']

theorem mem_values {x : ℕ} : x ∈ values ↔ 1 ≤ x ∧ x ≤ 9 := by
  rw [values, List.mem_range'_1]
  omega

/-- The box of a cell. -/
def boxOf (c : Cell) : Fin 9 := ⟨c.1.val / 3 * 3 + c.2.val / 3, by omega⟩

/-- The number of a cell in its box. -/
def indexInBox (c : Cell) : Fin 9 := ⟨c.1.val % 3 * 3 + c.2.val % 3, by omega⟩

theorem boxCell_of (c : Cell) : boxCell (boxOf c) (indexInBox c) = c := by
  apply Prod.ext
  · apply Fin.ext
    show (c.1.val / 3 * 3 + c.2.val / 3) / 3 * 3 + (c.1.val % 3 * 3 + c.2.val % 3) / 3 = c.1.val
    omega
  · apply Fin.ext
    show (c.1.val / 3 * 3 + c.2.val / 3) % 3 * 3 + (c.1.val % 3 * 3 + c.2.val % 3) % 3 = c.2.val
    omega

theorem SameBox.boxOf_eq {c d : Cell} (h : SameBox c d) : boxOf c = boxOf d := by
  apply Fin.ext
  show c.1.val / 3 * 3 + c.2.val / 3 = d.1.val / 3 * 3 + d.2.val / 3
  rw [h.1, h.2]

theorem boxCell_injective (i : Fin 9) : Function.Injective (boxCell i) := by
  intro j j' h
  obtain ⟨hrow, hcolumn⟩ := Prod.ext_iff.mp h
  have hrow : i.val / 3 * 3 + j.val / 3 = i.val / 3 * 3 + j'.val / 3 := Fin.ext_iff.mp hrow
  have hcolumn : i.val % 3 * 3 + j.val % 3 = i.val % 3 * 3 + j'.val % 3 := Fin.ext_iff.mp hcolumn
  apply Fin.ext
  omega

theorem sameBox_boxCell (i j j' : Fin 9) : SameBox (boxCell i j) (boxCell i j') := by
  constructor
  · show (i.val / 3 * 3 + j.val / 3) / 3 = (i.val / 3 * 3 + j'.val / 3) / 3
    omega
  · show (i.val % 3 * 3 + j.val % 3) / 3 = (i.val % 3 * 3 + j'.val % 3) / 3
    omega

/-- The boards that the search looks for are the solutions. -/
theorem completes_iff (mp s : Board) :
    Backtracking.Completes valid 0 values cells mp s ↔ Solution mp s := by
  constructor
  · rintro ⟨hagrees, hfull, hvalid⟩
    have hfull : ∀ c, 1 ≤ s c ∧ s c ≤ 9 := fun c => mem_values.mp (hfull c (mem_cells c))
    have hne : ∀ c, s c ≠ 0 := fun c => Nat.one_le_iff_ne_zero.mp (hfull c).1
    obtain ⟨hrows, hcolumns, hboxes⟩ := (valid_iff s).mp hvalid
    refine ⟨hagrees, hfull, fun i j j' h => hrows i j j' h (hne _) (hfull _).2,
      fun j i i' h => hcolumns j i i' h (hne _) (hfull _).2, ?_⟩
    intro c d hbox h
    -- both are cells of one box
    rw [← boxCell_of c, ← boxCell_of d, hbox.boxOf_eq] at h ⊢
    rw [hboxes _ _ _ h (hne _) (hfull _).2]
  · rintro ⟨hagrees, hfull, hrows, hcolumns, hboxes⟩
    refine ⟨hagrees, fun c _ => mem_values.mpr (hfull c), (valid_iff s).mpr ⟨?_, ?_, ?_⟩⟩
    · exact fun i j j' h _ _ => hrows i j j' h
    · exact fun i j j' h _ _ => hcolumns i j j' h
    · exact fun i j j' h _ _ =>
        boxCell_injective i (hboxes _ _ (sameBox_boxCell i j j') h)

theorem zero_notMem_values : 0 ∉ values := fun h => absurd (mem_values.mp h).1 (Nat.not_lt_zero 0)

theorem zero_or_mem_values {mp : Board} (h : ∀ c, mp c ≤ 9) (c : Cell) :
    mp c = 0 ∨ mp c ∈ values := by
  rcases Nat.eq_zero_or_pos (mp c) with hc | hc
  · exact Or.inl hc
  · exact Or.inr (mem_values.mpr ⟨hc, h c⟩)

/-- From a board with an empty cell, `dfs` succeeds if and only if there is a solution.  It has
written one into the board when it succeeds, and the board is as before when it fails. -/
theorem dfs_correct (mp : Board) (hrange : ∀ c, mp c ≤ 9) (hsome : ∃ c, mp c = 0) :
    ((dfs mp 0).1 = true ↔ ∃ s, Solution mp s) ∧
    ((dfs mp 0).1 = true → Solution mp (dfs mp 0).2) ∧
    ((dfs mp 0).1 = false → (dfs mp 0).2 = mp) := by
  have hsearch := Backtracking.search_iff zero_notMem_values mem_cells valid_of_extends
    (zero_or_mem_values hrange) hsome
  simp only [completes_iff, ← dfs_eq_search] at hsearch
  refine ⟨hsearch.1, hsearch.2, fun h => ?_⟩
  rw [dfs_eq_search] at h ⊢
  exact Backtracking.search_restores h

/-- A board whose rows are shifted against each other. -/
def shifted : Board := fun c => (3 * c.1.val + c.1.val / 3 + c.2.val) % 9 + 1

/-- The same board, in which every other cell is empty. -/
def halfEmpty : Board := fun c => if (c.1.val + c.2.val) % 2 = 0 then 0 else shifted c

/-- A board with two ones in its first row. -/
def clash : Board := fun c => if c.1 = 0 ∧ c.2.val < 2 then 1 else 0

theorem solution_shifted : Solution halfEmpty shifted where
  agrees := by
    intro c hc
    rw [halfEmpty] at hc ⊢
    split_ifs at hc ⊢
    · exact absurd rfl hc
    · rfl
  full := by
    intro c
    rw [shifted]
    omega
  rows := by decide +kernel
  columns := by decide +kernel
  boxes := by
    rintro ⟨i, j⟩ ⟨i', j'⟩ ⟨hrow, hcolumn⟩ h
    dsimp only [shifted] at hrow hcolumn h
    apply Prod.ext
    · apply Fin.ext
      show i.val = i'.val
      omega
    · apply Fin.ext
      show j.val = j'.val
      omega

theorem halfEmpty_le (c : Cell) : halfEmpty c ≤ 9 := by
  rw [halfEmpty]
  split_ifs
  · exact Nat.zero_le 9
  · exact (solution_shifted.full c).2

theorem clash_le (c : Cell) : clash c ≤ 9 := by
  rw [clash]
  split_ifs <;> decide

theorem not_solution_clash : ¬ ∃ s, Solution clash s := by
  rintro ⟨s, hs⟩
  have hone : s (0, 0) = s (0, 1) :=
    (hs.agrees (0, 0) (by decide)).trans (hs.agrees (0, 1) (by decide)).symm
  exact absurd (hs.rows 0 0 1 hone) (by decide)

/-- A board that is half empty is solved, and one with a clash is left as it is. -/
theorem dfs_correct_boards :
    ((dfs halfEmpty 0).1 = true ∧ Solution halfEmpty (dfs halfEmpty 0).2) ∧
    (dfs clash 0).1 = false ∧ (dfs clash 0).2 = clash := by
  obtain ⟨hsolved, hsolution, -⟩ := dfs_correct halfEmpty halfEmpty_le ⟨(0, 0), rfl⟩
  obtain ⟨hclash, -, hrestored⟩ := dfs_correct clash clash_le ⟨(1, 0), rfl⟩
  have htrue := hsolved.mpr ⟨shifted, solution_shifted⟩
  have hfalse : (dfs clash 0).1 = false :=
    Bool.eq_false_of_not_eq_true fun h => not_solution_clash (hclash.mp h)
  exact ⟨⟨htrue, hsolution htrue⟩, hfalse, hrestored hfalse⟩

/-- `solve` gives a solution of a board with an empty cell, or fails if there is none. -/
theorem solve_spec (mp : Board) (hrange : ∀ c, mp c ≤ 9) (hsome : ∃ c, mp c = 0) :
    match solve mp with
    | some s => Solution mp s
    | none => ¬ ∃ s, Solution mp s := by
  have hsearch := Backtracking.search_iff zero_notMem_values mem_cells valid_of_extends
    (zero_or_mem_values hrange) hsome
  simp only [completes_iff, ← dfs_eq_search] at hsearch
  rw [solve]
  by_cases h : (dfs mp 0).1 = true
  · rw [if_pos h]
    exact hsearch.2 h
  · rw [if_neg h]
    exact fun hs => h (hsearch.1.mpr hs)

/-! ## The session -/

/-- `n2c`. -/
def n2c (x : ℕ) : UInt8 := if x = 0 then ch '.' else UInt8.ofNat (x + 48)

/-- `c2n`, where a character may be negative and the difference becomes a `size_t`. -/
def c2n (c : UInt8) : ℕ := if c = ch '.' then 0 else ((c.toInt8.toInt - 48) % 2 ^ 64).toNat

/-- The board in the answer to `S`. -/
def readBoard (buf : Bytes) : Board := fun c => c2n (buf.getD (4 + c.1.val * 9 + c.2.val) 0)

/-- The line of `main` for a cell. -/
def setLine (c : Cell) (x : ℕ) : Bytes :=
  ascii "V " ++ dec c.1.val ++ ascii " " ++ dec c.2.val ++ ascii " " ++ [n2c x] ++ ascii "\n"

/-- The cells of a board that are empty. -/
def emptyCells (mp : Board) : List Cell := cells.filter fun c => mp c = 0

/-- The lines of `main` for the empty cells. -/
def setLines (init done : Board) : List Bytes := (emptyCells init).map fun c => setLine c (done c)

/-- What `main` writes to the server, whose first answer is in the buffer; the program ends early if
`solve` fails. -/
def session (buf : Bytes) : List Bytes :=
  ascii "S\n" :: match solve (readBoard buf) with
    | some done => setLines (readBoard buf) done ++ [ascii "C\n"]
    | none => []

/-- The numbers of a line `V row column value`. -/
def parseSet : Bytes → Option (Cell × ℕ)
  | [v, b, row, b', column, b'', value, e] =>
      if [v, b, b', b'', e] = ascii "V   \n" ∧ isDigit row ∧ isDigit column ∧ isDigit value then
        some ((Fin.ofNat 9 (row.toNat - 48), Fin.ofNat 9 (column.toNat - 48)), value.toNat - 48)
      else none
  | _ => none

/-- The rule of the game: such a line sets the value of a cell that is empty at first. -/
def obey (init mp : Board) (line : Bytes) : Option Board :=
  (parseSet line).bind fun r => if init r.1 = 0 then some (Function.update mp r.1 r.2) else none

theorem c2n_n2c {x : ℕ} (hx : x ≤ 9) : c2n (n2c x) = x := by
  have hall : ∀ x < 10, c2n (n2c x) = x := by decide
  exact hall x (Nat.lt_succ_of_le hx)

theorem mem_emptyCells {mp : Board} {c : Cell} : c ∈ emptyCells mp ↔ mp c = 0 := by
  rw [emptyCells, List.mem_filter, decide_eq_true_eq]
  exact and_iff_right (mem_cells c)

/-- The server reads a line as it was meant. -/
theorem parseSet_setLine (c : Cell) {x : ℕ} (hx : x ∈ values) :
    parseSet (setLine c x) = some (c, x) := by
  have hall : ∀ i j : Fin 9, ∀ x ∈ values, parseSet (setLine (i, j) x) = some ((i, j), x) := by
    decide +kernel
  exact hall c.1 c.2 x hx

/-- The lines for some empty cells put the values of the solution there. -/
theorem foldlM_obey {init s : Board} (hs : ∀ c, s c ∈ values) {l : List Cell}
    (hl : ∀ c ∈ l, init c = 0) (mp : Board) :
    (l.map fun c => setLine c (s c)).foldlM (obey init) mp
      = some fun c => if c ∈ l then s c else mp c := by
  induction l generalizing mp with
  | nil => simp
  | cons c l ih =>
      have hobey : obey init mp (setLine c (s c)) = some (Function.update mp c (s c)) := by
        rw [obey, parseSet_setLine c (hs c), Option.bind_some, if_pos (hl c List.mem_cons_self)]
      rw [List.map_cons, List.foldlM_cons, hobey, Option.bind_eq_bind, Option.bind_some,
        ih fun d hd => hl d (List.mem_cons_of_mem c hd)]
      congr 1
      funext d
      by_cases hd : d = c
      · subst hd
        simp
      · simp [hd]

/-- On the text of a board with an empty cell, the session ends after its first line if there is no
solution; else it sends, for each empty cell, one line that the server can read, by the rule of the
game these lines turn the board into a solution, and the last line asks for the check. -/
theorem session_spec {mp : Board} (hrange : ∀ c, mp c ≤ 9) (hsome : ∃ c, mp c = 0) {buf : Bytes}
    (hbuf : ∀ c : Cell, buf[4 + c.1.val * 9 + c.2.val]? = some (n2c (mp c))) :
    ((¬ ∃ s, Solution mp s) → session buf = [ascii "S\n"]) ∧
    ((∃ s, Solution mp s) → ∃ lines s, session buf = ascii "S\n" :: (lines ++ [ascii "C\n"]) ∧
      lines.length = (emptyCells mp).length ∧ lines.foldlM (obey mp) mp = some s ∧
        Solution mp s) := by
  have hread : readBoard buf = mp := by
    funext c
    rw [readBoard, List.getD_eq_getElem?_getD, hbuf, Option.getD_some, c2n_n2c (hrange c)]
  have hsolve := solve_spec mp hrange hsome
  rw [session, hread]
  cases hresult : solve mp with
  | none =>
      rw [hresult] at hsolve
      exact ⟨fun _ => rfl, fun h => absurd h hsolve⟩
  | some s =>
      rw [hresult] at hsolve
      refine ⟨fun h => absurd ⟨s, hsolve⟩ h, fun _ => ⟨setLines mp s, s, rfl, ?_, ?_, hsolve⟩⟩
      · exact List.length_map _
      · rw [setLines, foldlM_obey (fun c => mem_values.mpr (hsolve.full c))
          fun c hc => mem_emptyCells.mp hc]
        congr 1
        funext c
        by_cases hc : mp c = 0
        · rw [if_pos (mem_emptyCells.mpr hc)]
        · rw [if_neg fun hin => hc (mem_emptyCells.mp hin), hsolve.agrees c hc]

/-- The first answer of the server. -/
def boardText (mp : Board) : Bytes := ascii "S: \n" ++ cells.map fun c => n2c (mp c)

/-- The half empty board is solved by 41 lines, and the client gives up on the other one. -/
theorem session_spec_boards :
    (∃ lines s, session (boardText halfEmpty) = ascii "S\n" :: (lines ++ [ascii "C\n"]) ∧
      lines.length = 41 ∧ lines.foldlM (obey halfEmpty) halfEmpty = some s ∧
        Solution halfEmpty s) ∧
    session (boardText clash) = [ascii "S\n"] := by
  have hhalf : ∀ i j : Fin 9, (boardText halfEmpty)[4 + i.val * 9 + j.val]?
      = some (n2c (halfEmpty (i, j))) := by decide +kernel
  have hclash : ∀ i j : Fin 9, (boardText clash)[4 + i.val * 9 + j.val]?
      = some (n2c (clash (i, j))) := by decide +kernel
  have hcount : (emptyCells halfEmpty).length = 41 := by decide +kernel
  obtain ⟨lines, s, hsession, hlines, hobey, hs⟩ :=
    (session_spec halfEmpty_le ⟨(0, 0), rfl⟩ fun c => hhalf c.1 c.2).2 ⟨shifted, solution_shifted⟩
  refine ⟨⟨lines, s, hsession, hlines.trans hcount, hobey, hs⟩, ?_⟩
  exact (session_spec clash_le ⟨(1, 0), rfl⟩ fun c => hclash c.1 c.2).1 not_solution_clash

end Sudoku
