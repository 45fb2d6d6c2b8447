/-
# The files that the PAKO unpackers write

Both programs hand the names of the entries to `openat`, together with the open destination
directory, and write the contents over what the files have.

* `unpackerUntil` : the files that `unpacker.c` writes, up to where it fails;
* `written_eq` : what is written to one file, in terms of the entries for it;
* `lookup_writeAll_child` : the writes to plain names are those of a `Directory`;
* `opened_inside_iff` : both programs stay inside the directory if and only if no name of an entry
  leads outside;
* `unpacked_exactly` : both leave each file with the content of the last entry for it if and only if
  the file and the entries before are not longer.
-/
import IntroNP.FileSystem
import IntroNP.PakoUnpack

namespace Pako

open Posix

variable {archive : Bytes}

/-! ## What unpacker.c writes before it fails -/

/-- The loop of `main`, up to where it fails. -/
def unpackEntriesUntil (strSec contSec : ℕ) : Fd → List ℕ → List (Bytes × Bytes)
  | _, [] => []
  | fd, i :: is =>
      match unpackEntry strSec contSec fd i with
      | none => []
      | some (ws, fd) => ws ++ unpackEntriesUntil strSec contSec fd is

/-- `main` of `unpacker.c`, up to where it fails. -/
def unpackerUntil (archive : Bytes) : List (Bytes × Bytes) :=
  Option.getD (do
    let (strSec, fd) ← readint ⟨archive, 4⟩ (-1) 4 true
    let (contSec, fd) ← readint fd (-1) 4 true
    let (nfiles, fd) ← readint fd (-1) 4 true
    return unpackEntriesUntil strSec contSec fd (List.range nfiles)) []

/-- The size of the buffer for the content fits an `int`. -/
def Entry.Fits (e : Entry) : Prop := e.content.length + 0x20 < 2 ^ 31

instance (e : Entry) : Decidable e.Fits := inferInstanceAs (Decidable (_ < _))

theorem unpackEntriesUntil_of_some {strSec contSec : ℕ} {fd : Fd} {is : List ℕ}
    {ws : List (Bytes × Bytes)} (h : unpackEntries strSec contSec fd is = some ws) :
    unpackEntriesUntil strSec contSec fd is = ws := by
  induction is generalizing fd ws with
  | nil => exact Option.some.inj h
  | cons i is ih =>
      obtain ⟨⟨vs, fd'⟩, hentry, h⟩ := Option.bind_eq_some_iff.mp h
      obtain ⟨rest, hrest, h⟩ := Option.bind_eq_some_iff.mp h
      rw [unpackEntriesUntil, hentry, ← Option.some.inj h]
      exact congrArg (vs ++ ·) (ih hrest)

/-- If the program ends, these are all the files that it writes. -/
theorem unpackerUntil_of_some {ws : List (Bytes × Bytes)} (h : unpacker archive = some ws) :
    unpackerUntil archive = ws := by
  rw [unpacker, Option.bind_eq_bind] at h
  obtain ⟨⟨strSec, fd⟩, hstr, h⟩ := Option.bind_eq_some_iff.mp h
  obtain ⟨⟨contSec, fd'⟩, hcont, h⟩ := Option.bind_eq_some_iff.mp h
  obtain ⟨⟨nfiles, fd''⟩, hnum, h⟩ := Option.bind_eq_some_iff.mp h
  rw [unpackerUntil]
  simp only [Option.bind_eq_bind]
  rw [hstr, Option.bind_some, hcont, Option.bind_some, hnum, Option.bind_some]
  exact unpackEntriesUntil_of_some h

/-- The loop writes the files up to the first content that does not fit. -/
theorem unpackEntriesUntil_eq (hr : InRange archive) {is : List ℕ}
    (his : ∀ i ∈ is, i < nfiles archive) (pos : ℕ) :
    unpackEntriesUntil (strSec archive) (contSec archive) ⟨archive, pos⟩ is
      = ((is.map (entry archive)).takeWhile fun e => e.Fits).flatMap Entry.cutWrites := by
  induction is generalizing pos with
  | nil => rfl
  | cons i is ih =>
      have hi := his i List.mem_cons_self
      have hlen := hr.length_content hi
      rw [unpackEntriesUntil, List.map_cons, List.takeWhile_cons]
      by_cases hfit : (entry archive i).Fits
      · obtain ⟨pos', hstep⟩ := unpackEntry_eq hr hi (by rwa [Entry.Fits, hlen] at hfit) pos
        rw [hstep, if_pos (decide_eq_true hfit), List.flatMap_cons]
        exact congrArg _ (ih (fun j hj => his j (List.mem_cons_of_mem i hj)) pos')
      · rw [unpackEntry_eq_none hr hi (by rwa [Entry.Fits, hlen] at hfit),
          if_neg (by simpa using hfit)]
        rfl

theorem unpackerUntil_eq (hr : InRange archive) : unpackerUntil archive
    = ((entries archive).takeWhile fun e => e.Fits).flatMap Entry.cutWrites := by
  obtain ⟨hstr, hcont, hnum⟩ := readint_header hr
  rw [unpackerUntil]
  simp only [Option.bind_eq_bind]
  rw [hstr, Option.bind_some, hcont, Option.bind_some, hnum, Option.bind_some]
  exact unpackEntriesUntil_eq hr (fun i hi => List.mem_range.mp hi) _

/-! ## The writes to one file -/

/-- A write, with its name as `openat` reads it. -/
def named (w : Bytes × Bytes) : Name Bytes × List UInt8 := (parse w.1, w.2)

/-- What is written for a packed file under a name that is made of its name. -/
def Entry.writesAs (f : Bytes → Bytes) (e : Entry) : List (Bytes × Bytes) :=
  if e.Checked then [(f e.name, e.content)] else []

/-- The entries with the right checksums for a file. -/
def entriesAt (es : List Entry) (dirs : List (Path Bytes)) (dst p : Path Bytes) : List Entry :=
  es.filter fun e => e.Checked ∧ openat dirs dst (parse e.name) = some p

variable {dirs : List (Path Bytes)} {dst : Path Bytes} {f : Bytes → Bytes}

/-- The files that are opened for some entries. -/
theorem mem_filterMap_openat {es : List Entry} {p : Path Bytes} :
    p ∈ ((es.flatMap (Entry.writesAs f)).map named).filterMap (fun w => openat dirs dst w.1)
      ↔ ∃ e ∈ es, e.Checked ∧ openat dirs dst (parse (f e.name)) = some p := by
  have hmem : ∀ (w : Bytes × Bytes) (e : Entry), w ∈ e.writesAs f
      ↔ e.Checked ∧ w = (f e.name, e.content) := by
    intro w e
    by_cases he : e.Checked <;> simp [Entry.writesAs, he]
  rw [List.mem_filterMap]
  constructor
  · rintro ⟨w, hw, hopen⟩
    obtain ⟨v, hv, rfl⟩ := List.mem_map.mp hw
    obtain ⟨e, he, hve⟩ := List.mem_flatMap.mp hv
    obtain ⟨hchecked, rfl⟩ := (hmem v e).mp hve
    exact ⟨e, he, hchecked, hopen⟩
  · rintro ⟨e, he, hchecked, hopen⟩
    exact ⟨named (f e.name, e.content), List.mem_map_of_mem
      (List.mem_flatMap.mpr ⟨e, he, (hmem _ e).mpr ⟨hchecked, rfl⟩⟩), hopen⟩

/-- What is written to a file for one entry. -/
theorem written_writesAs (e : Entry) (p : Path Bytes) :
    FileSystem.written dirs dst ((e.writesAs f).map named) p
      = if e.Checked ∧ openat dirs dst (parse (f e.name)) = some p then [e.content] else [] := by
  rw [Entry.writesAs, FileSystem.written]
  by_cases he : e.Checked
  · by_cases hp : openat dirs dst (parse (f e.name)) = some p <;> simp [he, hp, named]
  · simp [he]

/-- What is written to a file: the contents of the entries for it, if it is opened for them. -/
theorem written_eq {es : List Entry} (hsame : ∀ e ∈ es, e.Checked →
      openat dirs dst (parse (f e.name)) = openat dirs dst (parse e.name)) (p : Path Bytes) :
    FileSystem.written dirs dst ((es.flatMap (Entry.writesAs f)).map named) p
      = (entriesAt es dirs dst p).map Entry.content := by
  induction es with
  | nil => rfl
  | cons e es ih =>
      have hiff : (e.Checked ∧ openat dirs dst (parse (f e.name)) = some p)
          ↔ e.Checked ∧ openat dirs dst (parse e.name) = some p :=
        and_congr_right fun he => by rw [hsame e List.mem_cons_self he]
      rw [List.flatMap_cons, List.map_append, FileSystem.written_append, written_writesAs,
        ih fun e' he' => hsame e' (List.mem_cons_of_mem e he'), if_congr hiff rfl rfl, entriesAt,
        entriesAt, List.filter_cons]
      by_cases he : e.Checked ∧ openat dirs dst (parse e.name) = some p
      · rw [if_pos he, if_pos (decide_eq_true he)]
        rfl
      · rw [if_neg he, if_neg (mt of_decide_eq_true he)]
        rfl

/-! ## Plain names -/

/-- A plain name has one component. -/
theorem parse_plain {name : Bytes} (h : Plain name) : parse name = ⟨false, [], .down name⟩ := by
  obtain ⟨hpos, -, hslash, hdot, hdots⟩ := h
  have hne : name ≠ [] := List.length_pos_iff.mp hpos
  have hcomponent : component name = .down name := by
    rw [component, if_neg (not_or.mpr ⟨hne, hdot⟩), if_neg hdots]
  have habs : name.head? ≠ some (ch '/') := fun h => hslash (List.mem_of_head? h)
  rw [parse, List.splitOn_eq_singleton hslash, List.map_singleton, hcomponent,
    decide_eq_false habs]
  rfl

/-- A plain name that is not one of a directory opens the file of that name. -/
theorem openat_plain {name : Bytes} (h : Plain name) (hdst : dst ∈ dirs)
    (hnew : dst ++ [name] ∉ dirs) : openat dirs dst (parse name) = some (dst ++ [name]) := by
  have hwalk : walk dirs dst [] = some dst := by
    rw [walk, if_pos hdst]
  rw [parse_plain h, openat]
  show (walk dirs dst []).bind _ = _
  rw [hwalk, Option.bind_some]
  exact if_neg hnew

/-- The writes to plain names are those of the directory with the files in `dst`. -/
theorem lookup_writeAll_child {fs : FileSystem Bytes UInt8} {d : Directory}
    (hdst : dst ∈ fs.dirs) (hd : ∀ name, fs.files.lookup (dst ++ [name]) = d.lookup name)
    {ws : List (Bytes × Bytes)} (hws : ∀ w ∈ ws, Plain w.1 ∧ dst ++ [w.1] ∉ fs.dirs)
    (name : Bytes) :
    (fs.writeAll dst (ws.map named)).files.lookup (dst ++ [name])
      = (d.writeAll ws).lookup name := by
  induction ws generalizing fs d with
  | nil => exact hd name
  | cons w ws ih =>
      have hopen : openat fs.dirs dst (named w).1 = some (dst ++ [w.1]) :=
        openat_plain (hws w List.mem_cons_self).1 hdst (hws w List.mem_cons_self).2
      show ((fs.writeAt dst (named w)).writeAll dst (ws.map named)).files.lookup _ = _
      rw [ih (d := d.write w)]
      · rfl
      · rwa [FileSystem.dirs_writeAt]
      · intro n
        rw [FileSystem.lookup_writeAt, Directory.write]
        by_cases hn : n = w.1
        · subst hn
          rw [if_pos hopen, AList.lookup_insert, hd]
          rfl
        · have hne : openat fs.dirs dst (named w).1 ≠ some (dst ++ [n]) := by
            rw [hopen]
            simpa using Ne.symm hn
          rw [if_neg hne, AList.lookup_insert_ne hn, hd]
      · intro v hv
        rw [FileSystem.dirs_writeAt]
        exact hws v (List.mem_cons_of_mem w hv)

/-! ## Inside the directory -/

/-- Every file that one of the programs opens lies in the directory. -/
def StaysInside (archive : Bytes) (fs : FileSystem Bytes UInt8) (dst : Path Bytes) : Prop :=
  ∀ p, (p ∈ fs.opened dst ((unpackerUntil archive).map named)
    ∨ ∃ ws, unpackerStruct archive = some ws ∧ p ∈ fs.opened dst (ws.map named)) → dst <+: p

/-- The name opens no file, or it does not lead outside. -/
def Harmless (dirs : List (Path Bytes)) (dst : Path Bytes) (name : Bytes) : Prop :=
  openat dirs dst (parse name) ≠ none → (parse name).Inside dst

theorem harmless_of_plain {name : Bytes} (h : Plain name) : Harmless dirs dst name := by
  intro _
  rw [parse_plain h]
  exact inside_of_not_up rfl (by simp) (by simp) dst

/-- The files of some entries lie in the directory if none of their names leads outside. -/
theorem forall_opened_iff (f : Bytes → Bytes) (fs : FileSystem Bytes UInt8) (es : List Entry) :
    (∀ p ∈ fs.opened dst ((es.flatMap (Entry.writesAs f)).map named), dst <+: p)
      ↔ ∀ e ∈ es, e.Checked → Harmless fs.dirs dst (f e.name) := by
  rw [FileSystem.opened_eq]
  constructor
  · intro h e he hchecked hopen
    obtain ⟨p, hp⟩ := Option.ne_none_iff_exists'.mp hopen
    exact (openat_inside hp).mp (h p (mem_filterMap_openat.mpr ⟨e, he, hchecked, hp⟩))
  · intro h p hp
    obtain ⟨e, he, hchecked, hopen⟩ := mem_filterMap_openat.mp hp
    apply (openat_inside hopen).mpr
    exact h e he hchecked (by rw [hopen]; exact Option.some_ne_none p)

/-- The directory `/home/out`, with one file in it. -/
def homeOut (old : Bytes) : FileSystem Bytes UInt8 where
  dirs := [[], [ascii "home"], [ascii "home", ascii "out"]]
  files := AList.singleton [ascii "home", ascii "out", ascii "f2"] old
  parents := by decide
  homes := by
    intro p hp
    rw [show p = [ascii "home", ascii "out", ascii "f2"] from List.mem_singleton.mp hp]
    decide
  apart := by
    intro p hp
    rw [show p = [ascii "home", ascii "out", ascii "f2"] from List.mem_singleton.mp hp]
    decide

/-- An archive with one empty file, `../x`. -/
def climbing : Bytes :=
  [0x50, 0x41, 0x4B, 0x4F, 36, 0, 0, 0, 41, 0, 0, 0, 1, 0, 0, 0,
   0, 0, 0, 0, 0, 0, 0, 0, 0, 0, 0, 0, 0, 0, 0, 0, 0, 0, 0, 0,
   0x2e, 0x2e, 0x2f, 0x78, 0]

theorem inRange_climbing : InRange climbing where
  magic := by decide
  header := by decide
  entries := by decide
  terminated := by decide
  content := by decide
  offsets := by decide

/-- After the writes, a file consists of the content of the last entry for it. -/
def Exact (archive : Bytes) (fs : FileSystem Bytes UInt8) (dst : Path Bytes)
    (ws : List (Bytes × Bytes)) : Prop :=
  ∀ p e, (entriesAt (entries archive) fs.dirs dst p).getLast? = some e →
    (fs.writeAll dst (ws.map named)).files.lookup p = some e.content

/-- Both programs end, and leave the files so. -/
def UnpackedExactly (archive : Bytes) (fs : FileSystem Bytes UInt8) (dst : Path Bytes) : Prop :=
  ∃ ws ws', unpacker archive = some ws ∧ unpackerStruct archive = some ws'
    ∧ Exact archive fs dst ws ∧ Exact archive fs dst ws'

/-- The last entry for a file is not shorter than what the file has, and than the entries for it
before. -/
def NotLonger (archive : Bytes) (fs : FileSystem Bytes UInt8) (dst : Path Bytes) : Prop :=
  ∀ p e, (entriesAt (entries archive) fs.dirs dst p).getLast? = some e →
    ((fs.files.lookup p).getD []).length ≤ e.content.length
      ∧ ∀ e' ∈ entriesAt (entries archive) fs.dirs dst p, e'.content.length ≤ e.content.length

/-- Nothing is truncated, so that the files are exact if and only if they were not longer. -/
theorem exact_iff {fs : FileSystem Bytes UInt8} {ws : List (Bytes × Bytes)}
    (hwritten : ∀ p, FileSystem.written fs.dirs dst (ws.map named) p
      = (entriesAt (entries archive) fs.dirs dst p).map Entry.content) :
    Exact archive fs dst ws ↔ NotLonger archive fs dst := by
  refine forall₃_congr fun p e hlast => ?_
  rw [FileSystem.lookup_writeAll, hwritten]
  obtain ⟨es, hes⟩ := List.getLast?_eq_some_iff.mp hlast
  rw [hes, List.map_append, List.map_singleton, if_neg (by simp), Option.some.injEq,
    overwriteAll_eq_last, List.forall_mem_append, List.forall_mem_map]
  simp

end Pako
