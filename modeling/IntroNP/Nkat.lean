/-
# The server nkat of Lab 4

`nkat` executes a program for each connection, with the connection as its standard input, output and
error.  The child moves the connection to the numbers 0, 1 and 2 and closes all else that the server
has opened; the old standard error is kept for the case that the program cannot be executed.

* `child` : what a child does with its descriptors;
* `Server`, `start`, `system` : the server and any number of connections, whose programs can be
  executed or not;
* `child_program`, `child_failed` : the descriptors of a program, and where an error is reported;
* `served_run` : in every run each program has its own connection and nothing else of the server.

The processes share no table, so that the order of their steps plays no part; the messages of the
server and the path of the program are left out.

* source : `Lab/4/nkat/nkat.c`
-/
import IntroNP.Descriptors
import IntroNP.Runs

namespace Nkat

open Machine

/-! ## The server -/

/-- The files that descriptors stand for. -/
inductive File
  /-- A file that the server has been started with. -/
  | inherited (n : ℕ)
  /-- The socket that listens. -/
  | listen
  /-- A connection, by its number. -/
  | conn (n : ℕ)
  deriving DecidableEq

/-- How a child ends: the program starts with some descriptors, or an error is reported to a file,
if there is one. -/
inductive Child
  | program (files : Descriptors File)
  | failed (stderr : Option File)

/-- The child, from `close(listenfd)` on.  `dup` fails if there is no standard error. -/
def child (files : Descriptors File) (listenfd connfd : ℕ) (executes : Bool) : Child :=
  let files := files.close listenfd
  match files.get 2 with
  | none => .failed none
  | some _ =>
      let oldstderr := files.lowest
      let files := (files.dup 2).setCloexec oldstderr
      let files := ((files.dup2 connfd 0).dup2 connfd 1).dup2 connfd 2
      let files := files.close connfd
      if executes then .program files.exec
      else .failed (((files.dup2 oldstderr 2).get 2).map Descriptor.file)

/-- The variables of the server. -/
structure Server where
  /-- Its descriptors. -/
  files : Descriptors File
  /-- `listenfd`. -/
  listenfd : ℕ
  /-- The number of connections so far. -/
  accepted : ℕ

/-- The server before its loop. -/
def start (files : Descriptors File) : Server where
  files := (files.openFile .listen).setCloexec files.lowest
  listenfd := files.lowest
  accepted := 0

/-- One turn of the loop. -/
inductive Event
  /-- `accept` fails. -/
  | failure
  /-- A connection is accepted, and its program can be executed or not. -/
  | connection (executes : Bool)
  deriving DecidableEq

/-- What a turn does; it shows the number of the connection and its child. -/
def next (s : Server) : Event → Option (Server × Option (ℕ × Child))
  | .failure => some (s, none)
  | .connection executes =>
      let connfd := s.files.lowest
      let files := s.files.openFile (.conn s.accepted)
      some ({ s with files := files.close connfd, accepted := s.accepted + 1 },
        some (s.accepted, child files s.listenfd connfd executes))

/-- The server, started with some files. -/
def system (files : Descriptors File) : Machine Server Event (Option (ℕ × Child)) :=
  ⟨start files, next⟩

/-! ## Children -/

/-- The descriptors that the server has after `accept`. -/
structure Accepted (initial files : Descriptors File) (listenfd connfd n : ℕ) : Prop where
  /-- The server has been started with the standard descriptors. -/
  standard : ∀ k < 3, ∃ d, initial.get k = some d
  /-- What it has opened was free. -/
  free : initial.get listenfd = none ∧ initial.get connfd = none
  /-- It has opened two descriptors. -/
  different : connfd ≠ listenfd
  /-- The table. -/
  table : ∀ k, files.get k = if k = connfd then some ⟨.conn n, false⟩
    else if k = listenfd then some ⟨.listen, true⟩ else initial.get k

section children

variable {initial files : Descriptors File} {listenfd connfd n : ℕ}

/-- The standard descriptors are none of them. -/
theorem three_le_of_free (h : ∀ k < 3, ∃ d, initial.get k = some d) {fd : ℕ}
    (hfree : initial.get fd = none) : 3 ≤ fd := by
  by_contra hlt
  obtain ⟨d, hd⟩ := h fd (Nat.lt_of_not_le hlt)
  rw [hfree] at hd
  cases hd

/-- The descriptors of a child before it executes its program: its connection, the old standard
error under a number that was free, and what the server has been started with. -/
theorem child_eq (h : Accepted initial files listenfd connfd n) {d : Descriptor File}
    (hd : initial.get 2 = some d) : ∃ (t : Descriptors File) (oldstderr : ℕ),
      3 ≤ oldstderr ∧ oldstderr ≠ connfd ∧ initial.get oldstderr = none ∧
      (∀ k, t.get k = if k < 3 then some ⟨.conn n, false⟩
        else if k = oldstderr then some ⟨d.file, true⟩ else initial.get k) ∧
      ∀ executes, child files listenfd connfd executes = if executes then .program t.exec
        else .failed (((t.dup2 oldstderr 2).get 2).map Descriptor.file) := by
  have hlisten := three_le_of_free h.standard h.free.1
  have hconn := three_le_of_free h.standard h.free.2
  set files₁ := files.close listenfd with hfiles₁
  have hget₁ : ∀ k, files₁.get k
      = if k = connfd then some ⟨.conn n, false⟩ else initial.get k := by
    intro k
    rw [hfiles₁, Descriptors.get_close, h.table]
    by_cases hk : k = listenfd
    · subst hk
      rw [if_pos rfl, if_neg h.different.symm, h.free.1]
    · rw [if_neg hk, if_neg hk]
  have hstderr : files₁.get 2 = some d := by
    rw [hget₁, if_neg (by omega), hd]
  set oldstderr := files₁.lowest with hold
  have hfree := Descriptors.lowest_free files₁
  rw [← hold, hget₁] at hfree
  have hne : oldstderr ≠ connfd := by
    intro heq
    rw [if_pos heq] at hfree
    cases hfree
  rw [if_neg hne] at hfree
  have holdstderr := three_le_of_free h.standard hfree
  set files₂ := (files₁.dup 2).setCloexec oldstderr with hfiles₂
  have hget₂ : ∀ k, files₂.get k = if k = oldstderr then some ⟨d.file, true⟩ else files₁.get k := by
    intro k
    have hdup : (files₁.dup 2).get oldstderr = some ⟨d.file, false⟩ := by
      rw [Descriptors.get_dup _ _ _ hstderr, if_pos hold]
    rw [hfiles₂, Descriptors.get_setCloexec _ _ _ hdup, Descriptors.get_dup _ _ _ hstderr, ← hold]
    split_ifs <;> rfl
  set files₃ := ((files₂.dup2 connfd 0).dup2 connfd 1).dup2 connfd 2 with hfiles₃
  have hget₃ : ∀ k, files₃.get k = if k < 3 then some ⟨.conn n, false⟩ else files₂.get k := by
    have hsock : files₂.get connfd = some ⟨.conn n, false⟩ := by
      rw [hget₂, if_neg hne.symm, hget₁, if_pos rfl]
    have hsock₀ : (files₂.dup2 connfd 0).get connfd = some ⟨.conn n, false⟩ := by
      rw [Descriptors.get_dup2 _ _ _ hsock (by omega), if_neg (by omega), hsock]
    have hsock₁ : ((files₂.dup2 connfd 0).dup2 connfd 1).get connfd
        = some ⟨.conn n, false⟩ := by
      rw [Descriptors.get_dup2 _ _ _ hsock₀ (by omega), if_neg (by omega), hsock₀]
    intro k
    rw [hfiles₃, Descriptors.get_dup2 _ _ _ hsock₁ (by omega),
      Descriptors.get_dup2 _ _ _ hsock₀ (by omega), Descriptors.get_dup2 _ _ _ hsock (by omega)]
    by_cases hk : k < 3
    · rw [if_pos hk]
      obtain rfl | rfl | rfl : k = 0 ∨ k = 1 ∨ k = 2 := by omega
      · rfl
      · rfl
      · rfl
    · rw [if_neg hk, if_neg (by omega), if_neg (by omega), if_neg (by omega)]
  refine ⟨files₃.close connfd, oldstderr, holdstderr, hne, hfree, fun k => ?_, fun executes => ?_⟩
  · rw [Descriptors.get_close, hget₃, hget₂, hget₁]
    by_cases hk : k = connfd
    · rw [if_pos hk, hk, if_neg (by omega), if_neg hne.symm, h.free.2]
    · rw [if_neg hk]
      split_ifs <;> rfl
  · rw [child]
    dsimp only
    rw [← hfiles₁, hstderr]

/-- A program has its connection as the standard descriptors, and of the others what a program of
the server's own would have. -/
theorem child_program (h : Accepted initial files listenfd connfd n) :
    ∃ t, child files listenfd connfd true = .program t ∧
      ∀ k, t.get k = if k < 3 then some ⟨.conn n, false⟩ else initial.exec.get k := by
  obtain ⟨d, hd⟩ := h.standard 2 (by decide)
  obtain ⟨t, oldstderr, -, -, hfree, hget, hall⟩ := child_eq h hd
  refine ⟨t.exec, hall true, fun k => ?_⟩
  rw [Descriptors.get_exec, hget, Descriptors.get_exec]
  by_cases hk : k < 3
  · rw [if_pos hk, if_pos hk]
    rfl
  · rw [if_neg hk, if_neg hk]
    by_cases hold : k = oldstderr
    · rw [if_pos hold, hold, hfree]
      rfl
    · rw [if_neg hold]

/-- The error is reported to the standard error of the server. -/
theorem child_failed (h : Accepted initial files listenfd connfd n) :
    child files listenfd connfd false = .failed ((initial.get 2).map Descriptor.file) := by
  obtain ⟨d, hd⟩ := h.standard 2 (by decide)
  obtain ⟨t, oldstderr, hle, -, -, hget, hall⟩ := child_eq h hd
  have hold : t.get oldstderr = some ⟨d.file, true⟩ := by
    rw [hget, if_neg (by omega), if_pos rfl]
  rw [hall, if_neg Bool.false_ne_true, Descriptors.get_dup2 _ _ _ hold (by omega), if_pos rfl, hd]
  rfl

end children

/-! ## Runs -/

/-- The server between two connections has opened one descriptor. -/
structure Waiting (initial : Descriptors File) (s : Server) : Prop where
  /-- Its number. -/
  listenfd : s.listenfd = initial.lowest
  /-- The table. -/
  table : ∀ k, s.files.get k
    = if k = s.listenfd then some ⟨.listen, true⟩ else initial.get k

theorem waiting_start (initial : Descriptors File) : Waiting initial (start initial) := by
  refine ⟨rfl, fun k => ?_⟩
  have hlisten : (initial.openFile File.listen).get initial.lowest = some ⟨.listen, false⟩ := by
    rw [Descriptors.get_openFile, if_pos rfl]
  show ((initial.openFile .listen).setCloexec initial.lowest).get k
    = if k = initial.lowest then _ else _
  rw [Descriptors.get_setCloexec _ _ _ hlisten, Descriptors.get_openFile]
  split_ifs <;> rfl

section runs

variable {initial : Descriptors File} {s : Server}

/-- A connection is accepted. -/
theorem Waiting.accepted (h : Waiting initial s)
    (hstandard : ∀ k < 3, ∃ d, initial.get k = some d) :
    Accepted initial (s.files.openFile (.conn s.accepted)) s.listenfd s.files.lowest
      s.accepted := by
  have hfree := Descriptors.lowest_free s.files
  rw [h.table] at hfree
  split_ifs at hfree with heq
  refine ⟨hstandard, ⟨?_, hfree⟩, heq, fun k => ?_⟩
  · rw [h.listenfd]
    exact Descriptors.lowest_free initial
  · rw [Descriptors.get_openFile, h.table]

/-- A turn of the loop leaves no descriptor open. -/
theorem Waiting.next (h : Waiting initial s) {s' : Server} {e : Event} {o : Option (ℕ × Child)}
    (hs : Nkat.next s e = some (s', o)) : Waiting initial s' := by
  cases e with
  | failure =>
      cases hs
      exact h
  | connection executes =>
      cases hs
      refine ⟨h.listenfd, fun k => ?_⟩
      rw [Descriptors.get_close, Descriptors.get_openFile]
      by_cases hk : k = s.files.lowest
      · rw [if_pos hk, ← h.table, hk, Descriptors.lowest_free]
      · rw [if_neg hk, if_neg hk, h.table]

/-- In every run of a server that has been started with the three standard descriptors, the server
keeps no descriptor of a connection; the program of each connection has it as its standard input,
output and error, and else exactly the descriptors that the server has been started with and that
are not closed on execution; and where a program cannot be executed, the error goes to the standard
error of the server, not to the connection. -/
theorem served_run {past : List (Moment Server Event (Option (ℕ × Child)))}
    (hstandard : ∀ k < 3, ∃ d, initial.get k = some d) (hrun : Run (system initial) past s) :
    (∀ k, s.files.get k = if k = initial.lowest then some ⟨.listen, true⟩ else initial.get k) ∧
    ∀ m ∈ past, ∀ executes, m.event = .connection executes →
      ∃ c, m.shown = some (m.pre.accepted, c) ∧
        if executes then ∃ files, c = .program files ∧ ∀ k, files.get k
          = if k < 3 then some ⟨.conn m.pre.accepted, false⟩ else initial.exec.get k
        else c = .failed ((initial.get 2).map Descriptor.file) := by
  have hwaiting : Waiting initial s :=
    hrun.always (waiting_start initial) fun _ _ _ _ h hs => h.next hs
  refine ⟨fun k => by rw [hwaiting.table, hwaiting.listenfd], ?_⟩
  refine hrun.moments (C := fun _ _ => True) (I := Waiting initial) (waiting_start initial) ?_
    fun _ _ => trivial
  intro s e s' o h _ hs
  refine ⟨h.next hs, fun executes he => ?_⟩
  obtain rfl : e = .connection executes := he
  have haccepted := h.accepted hstandard
  cases hs
  refine ⟨_, rfl, ?_⟩
  cases executes with
  | true => exact child_program haccepted
  | false => exact child_failed haccepted

end runs

/-- A terminal under the three standard numbers, and a log that is not closed on execution. -/
def terminal : Descriptors File :=
  ⟨[some ⟨.inherited 0, false⟩, some ⟨.inherited 0, false⟩, some ⟨.inherited 0, false⟩,
    some ⟨.inherited 1, false⟩]⟩

/-- Two connections, and the program of the second one has its descriptors and the log. -/
theorem served_run_two : ∃ past s, Run (system terminal) past s ∧
    ∃ m ∈ past, ∃ files, m.shown = some (1, .program files) ∧
      ∀ k, files.get k = if k < 3 then some ⟨.conn 1, false⟩ else terminal.exec.get k := by
  obtain ⟨past, s, hrun, htest⟩ := exists_run_of_replay (system terminal)
    [.connection false, .failure, .connection true]
    (fun r => r.1.any fun m => m.event = .connection true && m.pre.accepted = 1)
    (by decide +kernel)
  simp only [List.any_eq_true, Bool.and_eq_true, decide_eq_true_eq] at htest
  obtain ⟨m, hm, hevent, hnumber⟩ := htest
  have hstandard : ∀ k < 3, (terminal.get k).isSome = true := by decide
  obtain ⟨c, hshown, files, hc, hfiles⟩ := (served_run
    (fun k hk => Option.isSome_iff_exists.mp (hstandard k hk)) hrun).2 m hm true hevent
  rw [hnumber] at hshown hfiles
  rw [hc] at hshown
  exact ⟨past, s, hrun, m, hm, files, hshown, hfiles⟩

end Nkat
