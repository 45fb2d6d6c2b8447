/-
# Files, and the names under which they are opened

A file system as far as `openat` and `write` see it: its directories, and the bytes of its files,
both by their paths from the root.  There are no links, names may have any length, whoever opens a
file may do so, and nothing runs out of room.

* `Name`, `parse` : a name, absolute or not, as components between slashes;
* `FileSystem` : a tree of directories, with files in them;
* `openat` : where a name leads, for a file that is opened for writing and may be new;
* `climb`, `Name.Inside` : how far a name climbs, and whether it comes back to a directory;
* `openat_inside` : a file that is opened lies in the directory if and only if its name is inside;
* `overwrite`, `writeAll` : writes over what is there, which is not truncated;
* `lookup_writeAll` : what a file has after writes, with `overwriteAll_eq_last` for when that is no
  more than the last of them.

Nothing here mentions a program of the repository.
-/
import Mathlib.Data.List.Induction
import IntroNP.Bytes
import IntroNP.Tables

namespace Posix

variable {N B : Type*}

/-! ## Names -/

/-- The names from the root on. -/
abbrev Path (N : Type*) := List N

/-- A component of a name. -/
inductive Component (N : Type*)
  /-- `.`, and what stands between two slashes in a row. -/
  | here
  | up
  | down (n : N)

/-- The directory or file to which a component leads; the root is its own parent. -/
def Component.follow (d : Path N) : Component N → Path N
  | .here => d
  | .up => d.dropLast
  | .down n => d ++ [n]

/-- A name: the components of the way, and the last one. -/
structure Name (N : Type*) where
  absolute : Bool
  way : List (Component N)
  last : Component N

/-- Where a name starts. -/
def Name.start (dst : Path N) (name : Name N) : Path N := if name.absolute then [] else dst

/-- A component, from its bytes. -/
def component (s : Bytes) : Component Bytes :=
  if s = [] ∨ s = ascii "." then .here else if s = ascii ".." then .up else .down s

/-- A name, from its bytes. -/
def parse (s : Bytes) : Name Bytes where
  absolute := s.head? = some (ch '/')
  way := ((s.splitOn (ch '/')).map component).dropLast
  last := (((s.splitOn (ch '/')).map component).getLast?).getD .here

/-! ## Where a name leads -/

/-- What the components do to any directory: how far they lead up, and what they lead down to from
there. -/
def climb (cs : List (Component N)) : ℕ × Path N :=
  cs.foldl (fun r c =>
    match c with
    | .here => r
    | .up => if r.2 = [] then (r.1 + 1, []) else (r.1, r.2.dropLast)
    | .down n => (r.1, r.2 ++ [n])) (0, [])

/-- The name stays in the directory, or comes back to it: what it climbs over, it names again. -/
def Name.Inside (dst : Path N) (name : Name N) : Prop :=
  if name.absolute then dst <+: (climb (name.way ++ [name.last])).2
  else dst.drop (dst.length - (climb (name.way ++ [name.last])).1)
    <+: (climb (name.way ++ [name.last])).2

instance [DecidableEq N] (dst : Path N) (name : Name N) : Decidable (name.Inside dst) := by
  rw [Name.Inside]
  infer_instance

theorem climb_append_singleton (cs : List (Component N)) (c : Component N) :
    climb (cs ++ [c]) = match c with
      | .here => climb cs
      | .up => if (climb cs).2 = [] then ((climb cs).1 + 1, [])
          else ((climb cs).1, (climb cs).2.dropLast)
      | .down n => ((climb cs).1, (climb cs).2 ++ [n]) := by
  rw [climb, List.foldl_append]
  rfl

/-- The components lead up and down as computed. -/
theorem foldl_follow (d : Path N) (cs : List (Component N)) :
    cs.foldl Component.follow d = d.take (d.length - (climb cs).1) ++ (climb cs).2 := by
  induction cs using List.reverseRecOn with
  | nil =>
      show d = d.take (d.length - 0) ++ []
      rw [Nat.sub_zero, List.take_length, List.append_nil]
  | append_singleton cs c ih =>
      rw [List.foldl_append, ih, List.foldl_cons, List.foldl_nil]
      cases c with
      | here =>
          rw [climb_append_singleton]
          rfl
      | up =>
          have hup : climb (cs ++ [.up]) = if (climb cs).2 = [] then ((climb cs).1 + 1, [])
              else ((climb cs).1, (climb cs).2.dropLast) := climb_append_singleton cs .up
          show List.dropLast _ = _
          rw [hup]
          by_cases hnil : (climb cs).2 = []
          · -- one component of the directory less
            rw [if_pos hnil, hnil, List.append_nil, List.append_nil, List.dropLast_eq_take,
              List.take_take, List.length_take]
            exact congrArg (fun k => d.take k) (by omega)
          · rw [if_neg hnil, List.dropLast_append_of_ne_nil hnil]
      | down n =>
          rw [climb_append_singleton]
          exact List.append_assoc _ _ _

/-- Components without the parent do not climb. -/
theorem climb_fst_eq_zero {cs : List (Component N)} (h : Component.up ∉ cs) :
    (climb cs).1 = 0 := by
  induction cs using List.reverseRecOn with
  | nil => rfl
  | append_singleton cs c ih =>
      rw [List.mem_append, List.mem_singleton, not_or] at h
      rw [climb_append_singleton]
      cases c with
      | here => exact ih h.1
      | up => exact absurd rfl h.2
      | down n => exact ih h.1

/-- A name that is not absolute and never leads to a parent is inside any directory. -/
theorem inside_of_not_up {name : Name N} (habs : name.absolute = false)
    (hway : Component.up ∉ name.way) (hlast : name.last ≠ .up) (dst : Path N) :
    name.Inside dst := by
  have hzero : (climb (name.way ++ [name.last])).1 = 0 := by
    apply climb_fst_eq_zero
    rw [List.mem_append, List.mem_singleton, not_or]
    exact ⟨hway, hlast.symm⟩
  rw [Name.Inside, habs, if_neg Bool.false_ne_true, hzero, Nat.sub_zero, List.drop_length]
  exact List.nil_prefix

/-! ## Files -/

variable [DecidableEq N]

/-- The directories, and the files in them. -/
structure FileSystem (N B : Type*) [DecidableEq N] where
  dirs : List (Path N)
  files : Table (Path N) (List B)
  parents : ∀ d ∈ dirs, d.dropLast ∈ dirs
  homes : ∀ p ∈ files, p.dropLast ∈ dirs
  /-- A file is not a directory. -/
  apart : ∀ p ∈ files, p ∉ dirs

/-- The way from a directory, all of which must exist. -/
def walk (dirs : List (Path N)) : Path N → List (Component N) → Option (Path N)
  | d, [] => if d ∈ dirs then some d else none
  | d, c :: cs => if d ∈ dirs then walk dirs (c.follow d) cs else none

/-- `openat` with `O_CREAT` and `O_WRONLY`: the file that is opened.  What it creates is a file in
the last directory of the way, and a directory cannot be opened. -/
def openat (dirs : List (Path N)) (dst : Path N) (name : Name N) : Option (Path N) :=
  (walk dirs (name.start dst) name.way).bind fun d =>
    match name.last with
    | .down n => if d ++ [n] ∈ dirs then none else some (d ++ [n])
    | _ => none

theorem walk_eq {dirs : List (Path N)} {cs : List (Component N)} {d d' : Path N}
    (h : walk dirs d cs = some d') : d' = cs.foldl Component.follow d ∧ d' ∈ dirs := by
  induction cs generalizing d with
  | nil =>
      rw [walk] at h
      split_ifs at h with hd
      obtain rfl := Option.some.inj h
      exact ⟨rfl, hd⟩
  | cons c cs ih =>
      rw [walk] at h
      split_ifs at h
      exact ih h

/-- A file that is opened: where its name leads, in an existing directory. -/
theorem openat_eq {dirs : List (Path N)} {dst p : Path N} {name : Name N}
    (h : openat dirs dst name = some p) :
    p = (name.way ++ [name.last]).foldl Component.follow (name.start dst)
      ∧ p.dropLast ∈ dirs ∧ p ∉ dirs := by
  obtain ⟨d, hwalk, hlast⟩ := Option.bind_eq_some_iff.mp h
  obtain ⟨rfl, hd⟩ := walk_eq hwalk
  rw [List.foldl_append]
  cases hc : name.last with
  | here => simp [hc] at hlast
  | up => simp [hc] at hlast
  | down n =>
      simp only [hc] at hlast
      split_ifs at hlast with hnew
      obtain rfl := Option.some.inj hlast
      exact ⟨rfl, by rwa [List.dropLast_concat], hnew⟩

/-- A file that is opened lies in the directory if and only if its name is inside. -/
theorem openat_inside {dirs : List (Path N)} {dst p : Path N} {name : Name N}
    (h : openat dirs dst name = some p) : dst <+: p ↔ name.Inside dst := by
  rw [(openat_eq h).1, foldl_follow, Name.Inside, Name.start]
  by_cases habs : name.absolute = true
  · rw [if_pos habs, if_pos habs, List.take_nil, List.nil_append]
  · rw [if_neg habs, if_neg habs]
    generalize dst.length - (climb (name.way ++ [name.last])).1 = k
    generalize (climb (name.way ++ [name.last])).2 = ns
    have hcut : dst.take k ++ dst.drop k <+: dst.take k ++ ns ↔ dst.drop k <+: ns :=
      List.prefix_append_right_inj (dst.take k)
    rwa [List.take_append_drop] at hcut

/-! ## Writes -/

/-- `write` from the beginning of a file: what the file has behind the written bytes stays. -/
def overwrite (old new : List B) : List B := new ++ old.drop new.length

/-- One write after another. -/
def overwriteAll (old : List B) (news : List (List B)) : List B := news.foldl overwrite old

namespace FileSystem

variable {fs : FileSystem N B} {dst p : Path N}

/-- A file is opened and written; nothing happens if it cannot be opened. -/
def writeAt (fs : FileSystem N B) (dst : Path N) (w : Name N × List B) : FileSystem N B :=
  match h : openat fs.dirs dst w.1 with
  | none => fs
  | some p =>
      { fs with
        files := fs.files.insert p (overwrite ((fs.files.lookup p).getD []) w.2)
        homes := by
          intro q hq
          rcases AList.mem_insert _ |>.mp hq with rfl | hq
          · exact (openat_eq h).2.1
          · exact fs.homes q hq
        apart := by
          intro q hq
          rcases AList.mem_insert _ |>.mp hq with rfl | hq
          · exact (openat_eq h).2.2
          · exact fs.apart q hq }

/-- The files are written one after another. -/
def writeAll (fs : FileSystem N B) (dst : Path N) (ws : List (Name N × List B)) :
    FileSystem N B :=
  ws.foldl (fun fs w => fs.writeAt dst w) fs

/-- The files that are opened meanwhile. -/
def opened (fs : FileSystem N B) (dst : Path N) : List (Name N × List B) → List (Path N)
  | [] => []
  | w :: ws => (openat fs.dirs dst w.1).toList ++ (fs.writeAt dst w).opened dst ws

@[simp] theorem dirs_writeAt (w : Name N × List B) : (fs.writeAt dst w).dirs = fs.dirs := by
  rw [writeAt]
  split <;> rfl

/-- The one file that is opened changes. -/
theorem lookup_writeAt (w : Name N × List B) (p : Path N) :
    (fs.writeAt dst w).files.lookup p = if openat fs.dirs dst w.1 = some p
      then some (overwrite ((fs.files.lookup p).getD []) w.2) else fs.files.lookup p := by
  rw [writeAt]
  split
  · next hnone => rw [hnone, if_neg (Option.some_ne_none p).symm]
  · next q hq =>
      show AList.lookup p (fs.files.insert q _) = _
      by_cases hpq : q = p
      · rw [if_pos (hq.trans (congrArg some hpq)), hpq, AList.lookup_insert]
      · have hne : openat fs.dirs dst w.1 ≠ some p := by
          rw [hq]
          exact fun h => hpq (Option.some.inj h)
        rw [if_neg hne, AList.lookup_insert_ne (Ne.symm hpq)]

/-- No directory appears, so that all the names are resolved in the same ones. -/
theorem opened_eq (ws : List (Name N × List B)) :
    fs.opened dst ws = ws.filterMap fun w => openat fs.dirs dst w.1 := by
  induction ws generalizing fs with
  | nil => rfl
  | cons w ws ih =>
      rw [opened, ih, dirs_writeAt]
      rw [List.filterMap_cons]
      cases openat fs.dirs dst w.1 with
      | none => rfl
      | some p => rfl

/-- What is written to a file. -/
def written (dirs : List (Path N)) (dst : Path N) (ws : List (Name N × List B)) (p : Path N) :
    List (List B) :=
  (ws.filter fun w => openat dirs dst w.1 = some p).map Prod.snd

theorem written_append (dirs : List (Path N)) (dst : Path N) (ws vs : List (Name N × List B))
    (p : Path N) :
    written dirs dst (ws ++ vs) p = written dirs dst ws p ++ written dirs dst vs p := by
  rw [written, List.filter_append, List.map_append, written, written]

/-- A file after all the writes. -/
theorem lookup_writeAll (ws : List (Name N × List B)) (p : Path N) :
    (fs.writeAll dst ws).files.lookup p = if written fs.dirs dst ws p = [] then fs.files.lookup p
      else some (overwriteAll ((fs.files.lookup p).getD []) (written fs.dirs dst ws p)) := by
  induction ws generalizing fs with
  | nil => rfl
  | cons w ws ih =>
      show ((fs.writeAt dst w).writeAll dst ws).files.lookup p = _
      rw [ih, dirs_writeAt, lookup_writeAt]
      by_cases hp : openat fs.dirs dst w.1 = some p
      · have hcons : written fs.dirs dst (w :: ws) p = w.2 :: written fs.dirs dst ws p := by
          rw [written, List.filter_cons_of_pos (by simpa using hp), List.map_cons, written]
        rw [if_pos hp, hcons, if_neg (List.cons_ne_nil _ _), Option.getD_some]
        by_cases hnil : written fs.dirs dst ws p = []
        · rw [if_pos hnil, hnil]
          rfl
        · rw [if_neg hnil]
          rfl
      · have hcons : written fs.dirs dst (w :: ws) p = written fs.dirs dst ws p := by
          rw [written, List.filter_cons_of_neg (by simpa using hp), written]
        rw [if_neg hp, hcons]

end FileSystem

omit [DecidableEq N] in
theorem length_overwrite (old new : List B) :
    (overwrite old new).length = max new.length old.length := by
  rw [overwrite, List.length_append, List.length_drop]
  omega

theorem overwrite_eq_iff {old new : List B} :
    overwrite old new = new ↔ old.length ≤ new.length := by
  rw [overwrite, List.append_right_eq_self, List.drop_eq_nil_iff]

/-- The length of a file only grows. -/
theorem length_overwriteAll_le_iff {old : List B} {news : List (List B)} {n : ℕ} :
    (overwriteAll old news).length ≤ n ↔ old.length ≤ n ∧ ∀ new ∈ news, new.length ≤ n := by
  induction news generalizing old with
  | nil => simp [overwriteAll]
  | cons new news ih =>
      show (overwriteAll (overwrite old new) news).length ≤ n ↔ _
      rw [ih, length_overwrite, List.forall_mem_cons, Nat.max_le]
      tauto

/-- A file consists of what was written last if and only if it has never been longer. -/
theorem overwriteAll_eq_last {old new : List B} (news : List (List B)) :
    overwriteAll old (news ++ [new]) = new
      ↔ old.length ≤ new.length ∧ ∀ new' ∈ news, new'.length ≤ new.length := by
  rw [overwriteAll, List.foldl_append, List.foldl_cons, List.foldl_nil, overwrite_eq_iff]
  exact length_overwriteAll_le_iff

end Posix
