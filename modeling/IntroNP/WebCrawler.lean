/-
# The web crawler of Lab 7

`webcrawler.cpp` takes names of servers from a menu and asks the servers for their first page.  The
menu puts the names into a queue, from which two threads take them.  A thread resolves the name,
refuses private addresses, and connects.  `gethostbyname2` returns its answer in a place that all
the threads share, and the thread reads the address there once for each comparison, and again for
each connection.

The steps of the threads are interleaved in any order; what is done under the lock is one step.

* `command`, `Crawler.menu` : the menu;
* `Pc`, `Crawler.acquire`, `Crawler.run` : a thread;
* `machine` : the steps of a run, with what they show;
* `Step`, `step_cases` : what a step can do;
* `pool`, `pool_run` : a run of the program is a run of the queue;
* `jobs_in_order`, `no_job_forgotten` : what this says about the jobs;
* `Alone`, `private_needs_race` : without a race no private address is connected to.

* source : `Lab/7/Web Crawler/webcrawler.cpp`
-/
import IntroNP.Blocks
import IntroNP.Conversions
import IntroNP.WorkQueue

namespace WebCrawler

open Block

/-! ## The menu -/

/-- The delimiters of a request. -/
def isBlank (b : UInt8) : Bool := b = ch ' ' || b = ch '\t' || b = ch '\n' || b = ch '\r'

/-- What the menu does with its input: it quits, or it goes on with the rest, after a request. -/
def command (stdin : Bytes) : Option (Option Bytes × Bytes) :=
  -- `menu`
  if stdin = [] then none
  else
    let line := fgets 64 stdin
    let c := line.headD 0
    let stdin := stdin.drop line.length
    if c = ch 'q' then none
    else if c = ch 'r' then
      if stdin = [] then some (none, [])
      else
        let line := fgets 256 stdin
        let token := firstToken 0 isBlank (line ++ [0])
        some (if token = [] then none else some token, stdin.drop line.length)
    else some (none, stdin)

/-- A command is read, and a request is not empty. -/
theorem command_some {stdin rest : Bytes} {request : Option Bytes}
    (h : command stdin = some (request, rest)) :
    rest.length < stdin.length ∧ ∀ server ∈ request, server ≠ [] := by
  have hnil : stdin ≠ [] := by
    rintro rfl
    cases h
  have hpos := length_fgets_pos (show 1 < 64 by omega) hnil
  have hstdin := List.length_pos_iff.mpr hnil
  have hrest : (stdin.drop (fgets 64 stdin).length).length < stdin.length := by
    rw [List.length_drop]
    omega
  have hnone : ∀ server ∈ (none : Option Bytes), server ≠ [] := fun server hs => by cases hs
  simp only [command] at h
  split_ifs at h with _ _ _ _ htoken
  · cases h
    exact ⟨hstdin, hnone⟩
  · cases h
    refine ⟨lt_of_le_of_lt ?_ hrest, hnone⟩
    rw [List.length_drop]
    exact Nat.sub_le _ _
  · cases h
    refine ⟨lt_of_le_of_lt ?_ hrest, ?_⟩
    · rw [List.length_drop]
      exact Nat.sub_le _ _
    · intro server hs
      cases hs
      exact htoken
  · cases h
    exact ⟨hrest, hnone⟩

/-- The requests in the input, up to the command that quits. -/
def requests (stdin : Bytes) : List Bytes :=
  match _h : command stdin with
  | none => []
  | some (request, rest) => request.toList ++ requests rest
termination_by stdin.length
decreasing_by exact (command_some _h).1

/-- `MAX_ATTEMPTS`. -/
def maxAttempts : ℕ := 16

/-! ## Addresses -/

/-- The bytes of an address in memory, as `NIPQUAD` numbers them. -/
def nipquad (addr : UInt32) (i : ℕ) : ℕ := addr.toNat / 256 ^ i % 256

/-- `htonl` of a number that is given by its bytes, the high one first. -/
def htonl (a b c d : ℕ) : UInt32 := UInt32.ofNat (a + 256 * b + 65536 * c + 16777216 * d)

/-- The comparisons of `do_job` that refuse an address. -/
def refused (addr : UInt32) (k : ℕ) : Bool :=
  match k with
  | 0 => addr &&& htonl 0xff 0 0 0 = htonl 0x0a 0 0 0
  | 1 => addr &&& htonl 0xff 0 0 0 = htonl 0x7f 0 0 0
  | 2 => addr &&& htonl 0xff 0xf0 0 0 = htonl 0xac 0x10 0 0
  | 3 => addr &&& htonl 0xff 0xff 0 0 = htonl 0xc0 0xa8 0 0
  | _ => addr = 0

/-- The number of comparisons. -/
def comparisons : ℕ := 5

/-! ## The threads -/

/-- Where a thread is. -/
inductive Pc
  /-- Before `_lock.lock()`. -/
  | lock
  /-- In `cv.wait`. -/
  | waiting
  /-- Woken up, before it has the lock again. -/
  | relock
  /-- At the beginning of `do_job`. -/
  | parse (server : Bytes)
  /-- Before `gethostbyname2`. -/
  | resolve (server : Bytes) (port : ℕ)
  /-- Before a comparison of the address. -/
  | check (server : Bytes) (port k : ℕ)
  /-- Before a connection, with the number of connections that have failed. -/
  | attempt (server : Bytes) (port i : ℕ)
  /-- Before `socket`, with the address in `sin`. -/
  | connecting (server : Bytes) (port i : ℕ) (addr : UInt32)
  /-- Out of its loop. -/
  | stopped

/-- What the network answers. -/
inductive Outcome
  /-- There is no socket. -/
  | noSocket (error : Bytes)
  /-- The connection, the request or the reply has failed. -/
  | failed (error : Bytes)
  /-- A reply. -/
  | reply (data : Bytes)

/-- The variables of the program. -/
structure Crawler where
  /-- What is left of the input. -/
  stdin : Bytes
  /-- `jcount`. -/
  jcount : ℕ
  /-- `jobs`. -/
  jobs : List Bytes
  /-- `status`. -/
  status : List Bytes
  /-- `h_addr_list[0]` of the answer of `gethostbyname2`. -/
  host : UInt32
  /-- The menu is before `notify_one`. -/
  notifying : Bool
  /-- The program has ended. -/
  exited : Bool
  /-- The threads. -/
  workers : List Pc

/-- The steps. -/
inductive Event
  /-- The menu carries out a command. -/
  | menu
  /-- The menu wakes up a thread, or none. -/
  | notify (w : Option ℕ)
  /-- A thread wakes up without a notification. -/
  | wake (w : ℕ)
  /-- A thread gets the lock and looks for a job. -/
  | acquire (w : ℕ)
  /-- A thread goes on with its job. -/
  | run (w : ℕ)
  /-- `gethostbyname2` returns to a thread, and has written an address. -/
  | resolve (w : ℕ) (found : Bool) (host : UInt32)
  /-- A thread connects, and the network answers. -/
  | exchange (w : ℕ) (outcome : Outcome)

/-- What a step shows. -/
inductive Shown
  /-- Nothing. -/
  | nothing
  /-- A job is added. -/
  | added (server : Bytes)
  /-- A thread takes a job. -/
  | taken (w : ℕ) (server : Bytes)
  /-- A thread looks up a name. -/
  | lookup (w : ℕ) (name : Bytes)
  /-- A thread connects. -/
  | connect (w : ℕ) (addr : UInt32) (port : ℕ)
  deriving DecidableEq

namespace Crawler

/-- A thread goes on. -/
def goto (s : Crawler) (w : ℕ) (pc : Pc) : Crawler := { s with workers := s.workers.set w pc }

/-- `update_status`. -/
def update (s : Crawler) (w : ℕ) (server msg : Bytes) : Crawler :=
  { s with status := s.status.set w (ascii "[" ++ server ++ ascii "] " ++ msg) }

/-- A command of the menu, with `add_job` up to its `notify_one`. -/
def menu (s : Crawler) : Option (Crawler × Shown) :=
  if s.notifying then none
  else match command s.stdin with
    | none => some ({ s with exited := true }, .nothing)
    | some (none, stdin) => some ({ s with stdin := stdin }, .nothing)
    | some (some server, stdin) =>
        some ({ s with stdin := stdin, jobs := s.jobs ++ [server], jcount := s.jcount + 1
                       notifying := true, exited := decide (s.jcount + 1 > maxAttempts) },
          .added server)

/-- `notify_one`. -/
def notify (s : Crawler) (w : Option ℕ) : Option Crawler :=
  if s.notifying then
    match w with
    | none =>
        if s.workers.countP (· matches .waiting) = 0 then some { s with notifying := false }
        else none
    | some w =>
        match s.workers[w]? with
        | some .waiting => some ({ s with notifying := false }.goto w .relock)
        | _ => none
  else none

/-- The loop of `worker`, once the thread has the lock. -/
def acquire (s : Crawler) (w : ℕ) : Crawler × Shown :=
  match s.jobs with
  | [] => (s.goto w .waiting, .nothing)
  | server :: jobs =>
      ({ s with jobs := jobs }.goto w (if server = [] then .stopped else .parse server),
        .taken w server)

/-- `do_job` up to the port. -/
def parse (s : Crawler) (w : ℕ) (server : Bytes) : Crawler :=
  let slash := server.idxOf (ch '/')
  if slash = server.length ∨ slash = 0 ∨ slash + 1 = server.length then
    (s.update w server (ascii "Incorrect server/port format.")).goto w .lock
  else
    s.goto w (.resolve server (strtol (server.drop (slash + 1)) % 65536).toNat)

/-- The return of `gethostbyname2`. -/
def resolved (s : Crawler) (w : ℕ) (server : Bytes) (port : ℕ) (found : Bool) (host : UInt32) :
    Crawler :=
  let s := { s with host := host }
  if found then s.goto w (.check server port 0)
  else (s.update w server (ascii "Resolve failed.")).goto w .lock

/-- A comparison of the address. -/
def check (s : Crawler) (w : ℕ) (server : Bytes) (port k : ℕ) : Crawler :=
  if refused s.host k then
    (s.update w server (if k < 4 then ascii "Get from local or private address is not allowed."
      else ascii "Get from * is not allowed.")).goto w .lock
  else if k + 1 < comparisons then s.goto w (.check server port (k + 1))
  else s.goto w (.attempt server port 0)

/-- The beginning of the loop over the connections. -/
def attempt (s : Crawler) (w : ℕ) (server : Bytes) (port i : ℕ) : Crawler :=
  (s.update w server (ascii "Connecting to " ++ dec (nipquad s.host 0) ++ ascii "."
    ++ dec (nipquad s.host 1) ++ ascii "." ++ dec (nipquad s.host 2) ++ ascii "."
    ++ dec (nipquad s.host 3) ++ ascii ":" ++ dec port ++ ascii " ... (" ++ dec (i + 1)
    ++ ascii ")")).goto w (.connecting server port i s.host)

/-- A step of `do_job` that needs nobody else. -/
def run (s : Crawler) (w : ℕ) : Option Crawler :=
  match s.workers[w]? with
  | some (.parse server) => some (s.parse w server)
  | some (.check server port k) => some (s.check w server port k)
  | some (.attempt server port i) => some (s.attempt w server port i)
  | _ => none

/-- The characters of a reply in the status. -/
def clean (b : UInt8) : UInt8 :=
  if isSpace b then ch ' ' else if 32 ≤ b.toNat ∧ b.toNat ≤ 126 then b else ch '.'

/-- The end of a connection. -/
def exchange (s : Crawler) (w : ℕ) (server : Bytes) (port i : ℕ) (outcome : Outcome) : Crawler :=
  let again (error : Bytes) :=
    (s.update w server error).goto w (if i + 1 < 2 then .attempt server port (i + 1) else .lock)
  match outcome with
  | .noSocket error => again error
  | .failed error => again error
  | .reply data => (s.update w server (data.map clean)).goto w .lock

end Crawler

/-- A step, as long as the program runs. -/
def step (s : Crawler) : Event → Option (Crawler × Shown)
  | .menu => s.menu
  | .notify w => (s.notify w).map (·, .nothing)
  | .wake w =>
      match s.workers[w]? with
      | some .waiting => some (s.goto w .relock, .nothing)
      | _ => none
  | .acquire w =>
      match s.workers[w]? with
      | some .lock | some .relock => some (s.acquire w)
      | _ => none
  | .run w => (s.run w).map (·, .nothing)
  | .resolve w found host =>
      match s.workers[w]? with
      | some (.resolve server port) =>
          some (s.resolved w server port found host,
            .lookup w (server.take (server.idxOf (ch '/'))))
      | _ => none
  | .exchange w outcome =>
      match s.workers[w]? with
      | some (.connecting server port i addr) =>
          some (s.exchange w server port i outcome,
            match outcome with
            | .noSocket _ => .nothing
            | _ => .connect w addr port)
      | _ => none

/-- A step. -/
def next (s : Crawler) (e : Event) : Option (Crawler × Shown) :=
  if s.exited then none else step s e

/-- The program with its input. -/
def machine (stdin : Bytes) : Machine Crawler Event Shown where
  init := ⟨stdin, 0, [], [[], []], 0, false, false, [.lock, .lock]⟩
  next := next

/-! ## Steps -/

/-- What a connection shows. -/
def Outcome.shown (w : ℕ) (addr : UInt32) (port : ℕ) : Outcome → Shown
  | .noSocket _ => .nothing
  | _ => .connect w addr port

/-- What a step can do. -/
inductive Step (s : Crawler) : Event → Crawler → Shown → Prop
  | quit (hnotifying : ¬ s.notifying = true) (hcommand : command s.stdin = none) :
      Step s .menu { s with exited := true } .nothing
  | line (rest : Bytes) (hnotifying : ¬ s.notifying = true)
      (hcommand : command s.stdin = some (none, rest)) :
      Step s .menu { s with stdin := rest } .nothing
  | add (server rest : Bytes) (hnotifying : ¬ s.notifying = true)
      (hcommand : command s.stdin = some (some server, rest)) :
      Step s .menu { s with stdin := rest, jobs := s.jobs ++ [server], jcount := s.jcount + 1
                            notifying := true, exited := decide (s.jcount + 1 > maxAttempts) }
        (.added server)
  | unheard (hnotifying : s.notifying = true) (hnone : ∀ pc ∈ s.workers, pc ≠ .waiting) :
      Step s (.notify none) { s with notifying := false } .nothing
  | heard (w : ℕ) (hnotifying : s.notifying = true) (hw : s.workers[w]? = some .waiting) :
      Step s (.notify (some w)) ({ s with notifying := false }.goto w .relock) .nothing
  | wake (w : ℕ) (hw : s.workers[w]? = some .waiting) :
      Step s (.wake w) (s.goto w .relock) .nothing
  | acquire (w : ℕ) (pc : Pc) (hw : s.workers[w]? = some pc) (hpc : pc = .lock ∨ pc = .relock) :
      Step s (.acquire w) (s.acquire w).1 (s.acquire w).2
  | parse (w : ℕ) (server : Bytes) (hw : s.workers[w]? = some (.parse server)) :
      Step s (.run w) (s.parse w server) .nothing
  | check (w : ℕ) (server : Bytes) (port k : ℕ)
      (hw : s.workers[w]? = some (.check server port k)) :
      Step s (.run w) (s.check w server port k) .nothing
  | attempt (w : ℕ) (server : Bytes) (port i : ℕ)
      (hw : s.workers[w]? = some (.attempt server port i)) :
      Step s (.run w) (s.attempt w server port i) .nothing
  | resolve (w : ℕ) (server : Bytes) (port : ℕ) (found : Bool) (host : UInt32)
      (hw : s.workers[w]? = some (.resolve server port)) :
      Step s (.resolve w found host) (s.resolved w server port found host)
        (.lookup w (server.take (server.idxOf (ch '/'))))
  | exchange (w : ℕ) (server : Bytes) (port i : ℕ) (addr : UInt32) (outcome : Outcome)
      (hw : s.workers[w]? = some (.connecting server port i addr)) :
      Step s (.exchange w outcome) (s.exchange w server port i outcome)
        (outcome.shown w addr port)

section steps

variable {s s' : Crawler} {e : Event} {o : Shown}

theorem menu_cases (h : s.menu = some (s', o)) : Step s .menu s' o := by
  rw [Crawler.menu] at h
  split_ifs at h with hnotifying
  split at h
  · rename_i hcommand
    cases h
    exact .quit hnotifying hcommand
  · rename_i rest hcommand
    cases h
    exact .line rest hnotifying hcommand
  · rename_i server rest hcommand
    cases h
    exact .add server rest hnotifying hcommand

theorem notify_cases {w : Option ℕ} (h : s.notify w = some s') :
    Step s (.notify w) s' .nothing := by
  cases w with
  | none =>
      rw [Crawler.notify] at h
      split_ifs at h with hnotifying hcount
      cases h
      refine .unheard hnotifying ?_
      rintro pc hpc rfl
      exact List.countP_eq_zero.mp hcount _ hpc rfl
  | some w =>
      rw [Crawler.notify] at h
      split_ifs at h with hnotifying
      split at h
      · rename_i hw
        cases h
        exact .heard w hnotifying hw
      · cases h

theorem run_cases {w : ℕ} (h : s.run w = some s') : Step s (.run w) s' .nothing := by
  rw [Crawler.run] at h
  split at h
  · rename_i server hw
    cases h
    exact .parse w server hw
  · rename_i server port k hw
    cases h
    exact .check w server port k hw
  · rename_i server port i hw
    cases h
    exact .attempt w server port i hw
  · cases h

/-- A step can do nothing else. -/
theorem step_cases (h : step s e = some (s', o)) : Step s e s' o := by
  cases e with
  | menu => exact menu_cases h
  | notify w =>
      obtain ⟨t, ht, heq⟩ := Option.map_eq_some_iff.mp h
      cases heq
      exact notify_cases ht
  | wake w =>
      rw [step] at h
      split at h
      · rename_i hw
        cases h
        exact .wake w hw
      · cases h
  | acquire w =>
      rw [step] at h
      split at h
      · rename_i hw
        have hstep := Step.acquire w _ hw (Or.inl rfl)
        rwa [Option.some.inj h] at hstep
      · rename_i hw
        have hstep := Step.acquire w _ hw (Or.inr rfl)
        rwa [Option.some.inj h] at hstep
      · cases h
  | run w =>
      obtain ⟨t, ht, heq⟩ := Option.map_eq_some_iff.mp h
      cases heq
      exact run_cases ht
  | resolve w found host =>
      rw [step] at h
      split at h
      · rename_i server port hw
        cases h
        exact .resolve w server port found host hw
      · cases h
  | exchange w outcome =>
      rw [step] at h
      split at h
      · rename_i server port i addr hw
        cases h
        exact .exchange w server port i addr outcome hw
      · cases h

end steps

/-! ## The queue -/

/-- What a thread is for the queue. -/
def Pc.phase : Pc → WorkQueue.Phase Bytes
  | .lock => .idle
  | .waiting => .waiting
  | .relock => .idle
  | .parse server => .busy server
  | .resolve server _ => .busy server
  | .check server _ _ => .busy server
  | .attempt server _ _ => .busy server
  | .connecting server _ _ _ => .busy server
  | .stopped => .busy []

/-- The queue and the threads of a state. -/
def pool (s : Crawler) : WorkQueue.Pool Bytes :=
  ⟨s.jobs, if s.notifying then 1 else 0, s.workers.map Pc.phase⟩

/-- The job that a step has added. -/
def Shown.addedJob : Shown → Option Bytes
  | .added server => some server
  | _ => none

/-- The job that a step has taken. -/
def Shown.takenJob : Shown → Option Bytes
  | .taken _ server => some server
  | _ => none

/-- The jobs that have been added, in order. -/
def requested (past : List (Moment Crawler Event Shown)) : List Bytes :=
  past.reverse.filterMap fun m => m.shown.addedJob

/-- The jobs that have been taken, in order. -/
def started (past : List (Moment Crawler Event Shown)) : List Bytes :=
  past.reverse.filterMap fun m => m.shown.takenJob

section simulation

variable {s s' : Crawler} {o : Shown}

theorem phase_at {w : ℕ} {pc : Pc} (hw : s.workers[w]? = some pc) :
    (pool s).workers[w]? = some pc.phase := by
  rw [pool, List.getElem?_map, hw, Option.map_some]

theorem pool_set (s : Crawler) (w : ℕ) (pc : Pc) :
    pool (s.goto w pc) = { pool s with workers := (pool s).workers.set w pc.phase } := by
  rw [pool, pool, Crawler.goto, List.map_set]

/-- A thread that goes on with its job. -/
theorem pool_goto {w : ℕ} {pc pc' : Pc} (hw : s.workers[w]? = some pc)
    (h : pc'.phase = pc.phase) (hs : s'.jobs = s.jobs ∧ s'.notifying = s.notifying
      ∧ s'.workers = s.workers) : pool (s'.goto w pc') = pool s := by
  have hset : (s.workers.map Pc.phase).set w pc.phase = s.workers.map Pc.phase := by
    obtain ⟨hlt, hget⟩ := List.getElem?_eq_some_iff.mp hw
    have hphase : pc.phase = (s.workers.map Pc.phase).get ⟨w, by simpa using hlt⟩ := by simp [hget]
    rw [hphase, List.get_eq_getElem, List.set_getElem_self]
  rw [pool, pool, Crawler.goto, hs.1, hs.2.1, hs.2.2, List.map_set, h, hset]

/-- A thread that is done with its job. -/
theorem pool_done {w : ℕ} {pc : Pc} {server : Bytes} (hw : s.workers[w]? = some pc)
    (hpc : pc.phase = .busy server) (hs : s'.jobs = s.jobs ∧ s'.notifying = s.notifying
      ∧ s'.workers = s.workers) :
    WorkQueue.next (pool s) (.finish w) = some (pool (s'.goto w .lock), none) := by
  rw [WorkQueue.next, phase_at hw, hpc]
  show some _ = _
  rw [pool, pool, Crawler.goto, hs.1, hs.2.1, hs.2.2, List.map_set]
  rfl

/-- What a step is for the queue. -/
def Follows (s s' : Crawler) (o : Shown) : Prop :=
  (pool s' = pool s ∧ o.addedJob = none ∧ o.takenJob = none) ∨
    ∃ a t, WorkQueue.next (pool s) a = some (pool s', t)
      ∧ a.job = o.addedJob ∧ t.map Prod.snd = o.takenJob

theorem follows_done {w : ℕ} {pc : Pc} {server : Bytes} (hw : s.workers[w]? = some pc)
    (hpc : pc.phase = .busy server) (hs : s'.jobs = s.jobs ∧ s'.notifying = s.notifying
      ∧ s'.workers = s.workers) (ho : o.addedJob = none ∧ o.takenJob = none) :
    Follows s (s'.goto w .lock) o :=
  Or.inr ⟨_, _, pool_done hw hpc hs, ho.1.symm, ho.2.symm⟩

theorem follows_goto {w : ℕ} {pc pc' : Pc} (hw : s.workers[w]? = some pc)
    (h : pc'.phase = pc.phase) (hs : s'.jobs = s.jobs ∧ s'.notifying = s.notifying
      ∧ s'.workers = s.workers) (ho : o.addedJob = none ∧ o.takenJob = none) :
    Follows s (s'.goto w pc') o := Or.inl ⟨pool_goto hw h hs, ho⟩

theorem follows_add {server rest : Bytes} (hnotifying : ¬ s.notifying = true) :
    Follows s { s with stdin := rest, jobs := s.jobs ++ [server], jcount := s.jcount + 1
                       notifying := true, exited := decide (s.jcount + 1 > maxAttempts) }
      (.added server) := by
  refine Or.inr ⟨.add server, none, ?_, rfl, rfl⟩
  rw [WorkQueue.next, pool, pool, if_neg hnotifying]
  rfl

theorem signals_eq (hnotifying : s.notifying = true) : (pool s).signals = 1 := if_pos hnotifying

theorem follows_unheard (hnotifying : s.notifying = true)
    (hnone : ∀ pc ∈ s.workers, pc ≠ .waiting) :
    Follows s { s with notifying := false } .nothing := by
  have hcount : (pool s).workers.countP WorkQueue.Phase.isWaiting = 0 := by
    rw [pool, List.countP_map, List.countP_eq_zero]
    intro pc hpc hwaiting
    cases pc with
    | waiting => exact hnone _ hpc rfl
    | _ => cases hwaiting
  refine Or.inr ⟨.notify none, none, ?_, rfl, rfl⟩
  rw [WorkQueue.next, signals_eq hnotifying, if_pos ⟨Nat.one_pos, hcount⟩]
  rfl

theorem follows_heard {w : ℕ} (hnotifying : s.notifying = true)
    (hw : s.workers[w]? = some .waiting) :
    Follows s ({ s with notifying := false }.goto w .relock) .nothing := by
  refine Or.inr ⟨.notify (some w), none, ?_, rfl, rfl⟩
  rw [WorkQueue.next, phase_at hw, pool_set]
  show (if 0 < (pool s).signals then _ else _) = _
  rw [signals_eq hnotifying]
  rfl

theorem follows_acquire {w : ℕ} {pc : Pc} (hw : s.workers[w]? = some pc) (hpc : pc.phase = .idle) :
    Follows s (s.acquire w).1 (s.acquire w).2 := by
  rw [Crawler.acquire]
  cases hjobs : s.jobs with
  | nil =>
      refine Or.inr ⟨.take w, none, ?_, rfl, rfl⟩
      have hqueue : (pool s).queue = [] := hjobs
      rw [WorkQueue.next, phase_at hw, hpc, hqueue, pool_set]
      exact congrArg (fun queue => some (WorkQueue.Pool.mk queue _ _, none)) hqueue.symm
  | cons server jobs =>
      refine Or.inr ⟨.take w, some (w, server), ?_, rfl, rfl⟩
      have hqueue : (pool s).queue = server :: jobs := hjobs
      have hphase : (if server = [] then Pc.stopped else Pc.parse server).phase = .busy server := by
        split_ifs with hnil
        · rw [hnil]
          rfl
        · rfl
      rw [WorkQueue.next, phase_at hw, hpc, hqueue, pool_set, hphase]
      rfl

theorem follows_check {w port k : ℕ} {server : Bytes}
    (hw : s.workers[w]? = some (.check server port k)) :
    Follows s (s.check w server port k) .nothing := by
  rw [Crawler.check]
  split_ifs
  · exact follows_done hw rfl ⟨rfl, rfl, rfl⟩ ⟨rfl, rfl⟩
  · exact follows_done hw rfl ⟨rfl, rfl, rfl⟩ ⟨rfl, rfl⟩
  · exact follows_goto hw rfl ⟨rfl, rfl, rfl⟩ ⟨rfl, rfl⟩
  · exact follows_goto hw rfl ⟨rfl, rfl, rfl⟩ ⟨rfl, rfl⟩

theorem follows_exchange {w port i : ℕ} {server : Bytes} {addr : UInt32} {outcome : Outcome}
    (hw : s.workers[w]? = some (.connecting server port i addr))
    (ho : o.addedJob = none ∧ o.takenJob = none) :
    Follows s (s.exchange w server port i outcome) o := by
  have hagain : ∀ error, Follows s ((s.update w server error).goto w
      (if i + 1 < 2 then .attempt server port (i + 1) else .lock)) o := by
    intro error
    split_ifs
    · exact follows_goto hw rfl ⟨rfl, rfl, rfl⟩ ho
    · exact follows_done hw rfl ⟨rfl, rfl, rfl⟩ ho
  cases outcome with
  | noSocket error => exact hagain error
  | failed error => exact hagain error
  | reply data => exact follows_done hw rfl ⟨rfl, rfl, rfl⟩ ho

/-- A step of the program is one of the queue, or does not concern it. -/
theorem follows_step {e : Event} (h : step s e = some (s', o)) : Follows s s' o := by
  cases step_cases h with
  | quit hnotifying hcommand => exact Or.inl ⟨rfl, rfl, rfl⟩
  | line rest hnotifying hcommand => exact Or.inl ⟨rfl, rfl, rfl⟩
  | add server rest hnotifying hcommand => exact follows_add hnotifying
  | unheard hnotifying hnone => exact follows_unheard hnotifying hnone
  | heard w hnotifying hw => exact follows_heard hnotifying hw
  | wake w hw =>
      refine Or.inr ⟨.wake w, none, ?_, rfl, rfl⟩
      rw [WorkQueue.next, phase_at hw, pool_set]
      rfl
  | acquire w pc hw hpc => exact follows_acquire hw (by rcases hpc with rfl | rfl <;> rfl)
  | parse w server hw =>
      rw [Crawler.parse]
      split_ifs
      · exact follows_done hw rfl ⟨rfl, rfl, rfl⟩ ⟨rfl, rfl⟩
      · exact follows_goto hw rfl ⟨rfl, rfl, rfl⟩ ⟨rfl, rfl⟩
  | check w server port k hw => exact follows_check hw
  | attempt w server port i hw => exact follows_goto hw rfl ⟨rfl, rfl, rfl⟩ ⟨rfl, rfl⟩
  | resolve w server port found host hw =>
      rw [Crawler.resolved]
      cases found with
      | true => exact follows_goto hw rfl ⟨rfl, rfl, rfl⟩ ⟨rfl, rfl⟩
      | false => exact follows_done hw rfl ⟨rfl, rfl, rfl⟩ ⟨rfl, rfl⟩
  | exchange w server port i addr outcome hw =>
      apply follows_exchange hw
      cases outcome <;> exact ⟨rfl, rfl⟩

end simulation

section jobs

variable {stdin : Bytes} {past : List (Moment Crawler Event Shown)} {s : Crawler}

theorem step_of_next {s s' : Crawler} {e : Event} {o : Shown} (h : next s e = some (s', o)) :
    s.exited = false ∧ step s e = some (s', o) := by
  rw [next] at h
  split_ifs at h with hexited
  exact ⟨Bool.eq_false_of_not_eq_true hexited, h⟩

theorem requested_cons (s : Crawler) (e : Event) (o : Shown)
    (past : List (Moment Crawler Event Shown)) :
    requested (⟨s, e, o⟩ :: past) = requested past ++ o.addedJob.toList := by
  rw [requested, List.reverse_cons, List.filterMap_append]
  cases o <;> rfl

theorem started_cons (s : Crawler) (e : Event) (o : Shown)
    (past : List (Moment Crawler Event Shown)) :
    started (⟨s, e, o⟩ :: past) = started past ++ o.takenJob.toList := by
  rw [started, List.reverse_cons, List.filterMap_append]
  cases o <;> rfl

/-- A run of the program is a run of the queue, with the same jobs. -/
theorem pool_run (hrun : (machine stdin).Run past s) : ∃ past',
    (WorkQueue.machine 2).Run past' (pool s)
      ∧ WorkQueue.added past' = requested past ∧ WorkQueue.taken past' = started past := by
  apply hrun.simulation pool (R := fun past past' => WorkQueue.added past' = requested past
    ∧ WorkQueue.taken past' = started past) rfl ⟨rfl, rfl⟩
  rintro past past' s e s' o - ⟨hadded, htaken⟩ h
  rw [requested_cons, started_cons]
  rcases follows_step (step_of_next h).2 with ⟨hpool, hadd, htake⟩ | ⟨a, t, hnext, hadd, htake⟩
  · left
    rw [hadd, htake, Option.toList_none, List.append_nil, List.append_nil]
    exact ⟨hpool, hadded, htaken⟩
  · right
    refine ⟨a, t, hnext, ?_, ?_⟩
    · rw [WorkQueue.added_cons, hadded, hadd]
    · rw [WorkQueue.taken_cons, htaken, htake]

theorem requests_eq {rest : Bytes} {request : Option Bytes}
    (h : command stdin = some (request, rest)) :
    requests stdin = request.toList ++ requests rest := by
  rw [requests]
  split
  · rename_i hnone
    rw [h] at hnone
    cases hnone
  · rename_i hsome
    rw [h] at hsome
    cases hsome
    rfl

/-- Only the menu reads, counts and ends the program. -/
theorem frame_step {s s' : Crawler} {e : Event} {o : Shown} (h : step s e = some (s', o)) :
    e = .menu ∨ (s'.stdin = s.stdin ∧ s'.jcount = s.jcount ∧ s'.exited = s.exited)
      ∧ o.addedJob = none := by
  cases step_cases h with
  | quit hnotifying hcommand => exact Or.inl rfl
  | line rest hnotifying hcommand => exact Or.inl rfl
  | add server rest hnotifying hcommand => exact Or.inl rfl
  | unheard hnotifying hnone => exact Or.inr ⟨⟨rfl, rfl, rfl⟩, rfl⟩
  | heard w hnotifying hw => exact Or.inr ⟨⟨rfl, rfl, rfl⟩, rfl⟩
  | wake w hw => exact Or.inr ⟨⟨rfl, rfl, rfl⟩, rfl⟩
  | acquire w pc hw hpc =>
      rw [Crawler.acquire]
      cases s.jobs <;> exact Or.inr ⟨⟨rfl, rfl, rfl⟩, rfl⟩
  | parse w server hw =>
      rw [Crawler.parse]
      split_ifs <;> exact Or.inr ⟨⟨rfl, rfl, rfl⟩, rfl⟩
  | check w server port k hw =>
      rw [Crawler.check]
      split_ifs <;> exact Or.inr ⟨⟨rfl, rfl, rfl⟩, rfl⟩
  | attempt w server port i hw => exact Or.inr ⟨⟨rfl, rfl, rfl⟩, rfl⟩
  | resolve w server port found host hw =>
      cases found <;> exact Or.inr ⟨⟨rfl, rfl, rfl⟩, rfl⟩
  | exchange w server port i addr outcome hw =>
      cases outcome <;> exact Or.inr ⟨⟨rfl, rfl, rfl⟩, rfl⟩

/-- What a step adds, and what it leaves in the input. -/
theorem requests_step {s s' : Crawler} {e : Event} {o : Shown} (h : step s e = some (s', o)) :
    requests s.stdin = o.addedJob.toList ++ requests s'.stdin
      ∧ (s'.exited = false → s'.jcount ≤ maxAttempts ∨ s'.jcount = s.jcount)
      ∧ s'.jcount = s.jcount + o.addedJob.toList.length
      ∧ ∀ server ∈ o.addedJob, server ≠ [] := by
  rcases frame_step h with rfl | ⟨⟨hstdin, hcount, -⟩, hadded⟩
  · cases step_cases h with
    | quit hnotifying hcommand =>
        exact ⟨rfl, fun _ => Or.inr rfl, rfl, fun server hs => by cases hs⟩
    | line rest hnotifying hcommand =>
        exact ⟨requests_eq hcommand, fun _ => Or.inr rfl, rfl, fun server hs => by cases hs⟩
    | add server rest hnotifying hcommand =>
        refine ⟨requests_eq hcommand, fun hexited => Or.inl ?_, rfl, (command_some hcommand).2⟩
        exact Nat.le_of_not_lt (of_decide_eq_false hexited)
  · rw [hadded, hstdin, hcount]
    exact ⟨rfl, fun _ => Or.inr rfl, rfl, fun server hs => by cases hs⟩

theorem requested_eq (hrun : (machine stdin).Run past s) :
    requested past = started past ++ s.jobs := by
  obtain ⟨past', hrun', hadded, htaken⟩ := pool_run hrun
  rw [← hadded, ← htaken]
  exact WorkQueue.fifo hrun'

/-- The requests are read in order, and counted. -/
theorem requests_run (hrun : (machine stdin).Run past s) :
    requests stdin = requested past ++ requests s.stdin
      ∧ s.jcount = (requested past).length ∧ (s.exited = false → s.jcount ≤ maxAttempts)
      ∧ ∀ server ∈ requested past, server ≠ [] := by
  induction hrun with
  | start => exact ⟨rfl, rfl, fun _ => Nat.zero_le _, List.forall_mem_nil _⟩
  | next hrun hnext ih =>
      obtain ⟨hstdin, hcount, hle, hne⟩ := ih
      obtain ⟨hexited, hstep⟩ := step_of_next hnext
      obtain ⟨hstdin', hle', hcount', hne'⟩ := requests_step hstep
      rw [requested_cons]
      refine ⟨?_, ?_, ?_, ?_⟩
      · rw [hstdin, hstdin', List.append_assoc]
      · rw [hcount', hcount, List.length_append]
      · intro hexited'
        rcases hle' hexited' with h | h
        · exact h
        · rw [h]
          exact hle hexited
      · intro server hserver
        rcases List.mem_append.mp hserver with h | h
        · exact hne server h
        · exact hne' server (Option.mem_toList.mp h)

/-- The jobs are started once each in the order of the requests, and sixteen at most. -/
theorem jobs_in_order (hrun : (machine stdin).Run past s) :
    requests stdin = started past ++ s.jobs ++ requests s.stdin
      ∧ (started past).length ≤ maxAttempts := by
  constructor
  · rw [← requested_eq hrun]
    exact (requests_run hrun).1
  · induction hrun with
    | start => exact Nat.zero_le _
    | next hrun hnext ih =>
        rename_i past s e s' o
        obtain ⟨-, hcount, hle, -⟩ := requests_run hrun
        have horder := congrArg List.length (requested_eq (hrun.next hnext))
        have hle := hle (step_of_next hnext).1
        rw [requested_cons, List.length_append, List.length_append] at horder
        -- a step that adds a job starts none
        have hboth : o.addedJob = none ∨ o.takenJob = none := by
          cases o with
          | added server => exact Or.inr rfl
          | _ => exact Or.inl rfl
        rcases hboth with h | h
        · rw [h, Option.toList_none, List.length_nil] at horder
          omega
        · rw [started_cons, h, Option.toList_none, List.append_nil]
          exact ih

/-- A thread has started the first of two requests, and the other one is in the queue. -/
theorem jobs_in_order_two : ∃ past s, (machine (ascii "r\na/80\nr\nb/80\n")).Run past s
    ∧ (started past).length = 1 ∧ s.jobs.length = 1
    ∧ requests (ascii "r\na/80\nr\nb/80\n") = started past ++ s.jobs ++ requests s.stdin
    ∧ (started past).length ≤ maxAttempts := by
  obtain ⟨past, s, hrun, hp⟩ := Machine.exists_run_of_replay
    (machine (ascii "r\na/80\nr\nb/80\n")) [.menu, .notify none, .menu, .notify none, .acquire 0]
    (fun r => (started r.1).length = 1 ∧ r.2.jobs.length = 1) (by decide +kernel)
  obtain ⟨hstarted, hjobs⟩ := of_decide_eq_true hp
  exact ⟨past, s, hrun, hstarted, hjobs, jobs_in_order hrun⟩

/-- A thread that waits does not leave a job alone: while there is one, a thread is about to look
for it, or all of them are busy with requests.  No thread leaves its loop. -/
theorem no_job_forgotten (hrun : (machine stdin).Run past s) :
    (s.notifying = false → s.jobs ≠ [] →
      (∃ w : ℕ, s.workers[w]? = some Pc.lock ∨ s.workers[w]? = some Pc.relock)
        ∨ ∀ pc ∈ s.workers, ∃ server ∈ requests stdin, pc.phase = .busy server)
      ∧ Pc.stopped ∉ s.workers := by
  obtain ⟨past', hrun', hadded, htaken⟩ := pool_run hrun
  have hbusy : ∀ pc ∈ s.workers, ∀ server, pc.phase = .busy server → server ∈ requested past := by
    intro pc hpc server hserver
    rw [requested_eq hrun, ← htaken]
    apply List.mem_append_left
    apply WorkQueue.busy_taken hrun' server
    rw [← hserver]
    exact List.mem_map_of_mem hpc
  constructor
  · intro hnotifying hjobs
    rcases WorkQueue.available hrun' hjobs (by rw [pool, hnotifying]; rfl) with ⟨w, hw⟩ | hall
    · left
      refine ⟨w, ?_⟩
      rw [pool, List.getElem?_map, Option.map_eq_some_iff] at hw
      obtain ⟨pc, hpc, hphase⟩ := hw
      rw [hpc]
      cases pc with
      | lock => exact Or.inl rfl
      | relock => exact Or.inr rfl
      | _ => cases hphase
    · right
      intro pc hpc
      obtain ⟨server, hserver⟩ := hall _ (List.mem_map_of_mem hpc)
      refine ⟨server, ?_, hserver⟩
      rw [(requests_run hrun).1]
      exact List.mem_append_left _ (hbusy pc hpc server hserver)
  · intro hstopped
    exact (requests_run hrun).2.2.2 [] (hbusy _ hstopped [] rfl) rfl

/-- A thread has started the first of two requests, and the other thread has still to look. -/
theorem no_job_forgotten_two : ∃ past s, (machine (ascii "r\na/80\nr\nb/80\n")).Run past s
    ∧ ((∃ w : ℕ, s.workers[w]? = some Pc.lock ∨ s.workers[w]? = some Pc.relock)
      ∨ ∀ pc ∈ s.workers, ∃ server ∈ requests (ascii "r\na/80\nr\nb/80\n"),
        pc.phase = .busy server) := by
  obtain ⟨past, s, hrun, hp⟩ := Machine.exists_run_of_replay
    (machine (ascii "r\na/80\nr\nb/80\n")) [.menu, .notify none, .menu, .notify none, .acquire 0]
    (fun r => r.2.notifying = false ∧ r.2.jobs ≠ []) (by decide +kernel)
  obtain ⟨hnotifying, hjobs⟩ := of_decide_eq_true hp
  exact ⟨past, s, hrun, (no_job_forgotten hrun).1 hnotifying hjobs⟩

end jobs

/-! ## Private addresses -/

/-- The addresses that no request may reach. -/
def Private (addr : UInt32) : Prop :=
  nipquad addr 0 = 10 ∨ nipquad addr 0 = 127 ∨ nipquad addr 0 = 172 ∧ nipquad addr 1 / 16 = 1
    ∨ nipquad addr 0 = 192 ∧ nipquad addr 1 = 168 ∨ ∀ i < 4, nipquad addr i = 0

/-- The bits under a mask, byte by byte. -/
theorem and_eq_iff (n m c k : ℕ) : n &&& m = c
    ↔ n % 2 ^ k &&& m % 2 ^ k = c % 2 ^ k ∧ n / 2 ^ k &&& m / 2 ^ k = c / 2 ^ k := by
  rw [← Nat.and_mod_two_pow, ← Nat.and_div_two_pow]
  constructor
  · intro h
    rw [h]
    exact ⟨rfl, rfl⟩
  · rintro ⟨hmod, hdiv⟩
    rw [← Nat.div_add_mod (n &&& m) (2 ^ k), hmod, hdiv, Nat.div_add_mod]

/-- The comparisons are those with the private networks. -/
theorem refused_iff (addr : UInt32) :
    (∃ k < comparisons, refused addr k = true) ↔ Private addr := by
  have hlt : addr.toNat < 2 ^ 32 := addr.toNat_lt
  have h0 : nipquad addr 0 = addr.toNat % 256 := by rw [nipquad, Nat.pow_zero, Nat.div_one]
  have h1 : nipquad addr 1 = addr.toNat / 256 % 256 := by rw [nipquad, Nat.pow_one]
  have hand : ∀ m c : UInt32, addr &&& m = c ↔ addr.toNat &&& m.toNat = c.toNat := by
    intro m c
    rw [← UInt32.toNat_inj, UInt32.toNat_and]
  have hbyte : ∀ n, n &&& 0xff = n % 256 := fun n => Nat.and_two_pow_sub_one_eq_mod n 8
  have hword : addr.toNat &&& 0xffff = 0xa8c0
      ↔ addr.toNat % 256 = 192 ∧ addr.toNat / 256 % 256 = 168 := by
    rw [show addr.toNat &&& 0xffff = addr.toNat % 2 ^ 16 from
      Nat.and_two_pow_sub_one_eq_mod _ 16]
    omega
  have hhalf : addr.toNat &&& 0xf0ff = 0x10ac
      ↔ addr.toNat % 256 = 172 ∧ addr.toNat / 256 % 256 / 16 = 1 := by
    rw [and_eq_iff _ _ _ 8, and_eq_iff (addr.toNat / 2 ^ 8) _ _ 4]
    show addr.toNat % 256 &&& 0xff = 172 ∧ addr.toNat / 256 % 16 &&& 0 = 0
      ∧ addr.toNat / 256 / 16 &&& 0xf = 1 ↔ _
    rw [hbyte, Nat.and_zero, show addr.toNat / 256 / 16 &&& 0xf = addr.toNat / 256 / 16 % 2 ^ 4 from
      Nat.and_two_pow_sub_one_eq_mod _ 4]
    omega
  have hzero : addr = 0 ↔ ∀ i < 4, nipquad addr i = 0 := by
    rw [← UInt32.toNat_inj]
    show addr.toNat = 0 ↔ _
    constructor
    · intro h i _
      rw [nipquad, h, Nat.zero_div, Nat.zero_mod]
    · intro h
      have h2 : addr.toNat / 256 ^ 2 % 256 = 0 := h 2 (by omega)
      have h3 : addr.toNat / 256 ^ 3 % 256 = 0 := h 3 (by omega)
      have h0' := h 0 (by omega)
      have h1' := h 1 (by omega)
      omega
  have hsplit : (∃ k < comparisons, refused addr k = true) ↔ refused addr 0 = true
      ∨ refused addr 1 = true ∨ refused addr 2 = true ∨ refused addr 3 = true
      ∨ refused addr 4 = true := by
    constructor
    · rintro ⟨k, hk, h⟩
      have hk : k < 5 := hk
      obtain rfl | rfl | rfl | rfl | rfl : k = 0 ∨ k = 1 ∨ k = 2 ∨ k = 3 ∨ k = 4 := by omega
      · exact Or.inl h
      · exact Or.inr (Or.inl h)
      · exact Or.inr (Or.inr (Or.inl h))
      · exact Or.inr (Or.inr (Or.inr (Or.inl h)))
      · exact Or.inr (Or.inr (Or.inr (Or.inr h)))
    · rintro (h | h | h | h | h)
      · exact ⟨0, by decide, h⟩
      · exact ⟨1, by decide, h⟩
      · exact ⟨2, by decide, h⟩
      · exact ⟨3, by decide, h⟩
      · exact ⟨4, by decide, h⟩
  rw [hsplit, Private, h0, h1]
  simp only [refused, decide_eq_true_eq, hand, hzero]
  apply or_congr
  · show addr.toNat &&& 0xff = 10 ↔ _
    rw [hbyte]
  apply or_congr
  · show addr.toNat &&& 0xff = 127 ↔ _
    rw [hbyte]
  apply or_congr
  · exact hhalf
  apply or_congr
  · exact hword
  · exact Iff.rfl

/-- The thread will read the address again. -/
def Pc.reads : Pc → Bool
  | .check _ _ _ => true
  | .attempt _ _ _ => true
  | .connecting _ _ i _ => i = 0
  | _ => false

/-- No name is looked up while another thread still reads the address of its own. -/
def Alone (s : Crawler) : Event → Prop
  | .resolve w _ _ => ∀ (w' : ℕ) (pc : Pc), w' ≠ w → s.workers[w']? = some pc → pc.reads = false
  | _ => True

theorem alone_resolve_iff {s : Crawler} {w : ℕ} {found : Bool} {host : UInt32} :
    Alone s (.resolve w found host)
      ↔ ∀ w' < s.workers.length, w' ≠ w → ∀ pc ∈ s.workers[w']?, pc.reads = false := by
  constructor
  · intro h w' _ hne pc hpc
    exact h w' pc hne hpc
  · intro h w' pc hne hpc
    exact h w' (List.getElem?_eq_some_iff.mp hpc).1 hne pc hpc

instance (s : Crawler) (e : Event) : Decidable (Alone s e) :=
  match e with
  | .resolve _ _ _ => decidable_of_iff' _ alone_resolve_iff
  | .menu | .notify _ | .wake _ | .acquire _ | .run _ | .exchange _ _ => isTrue trivial

/-- All the comparisons let the address pass. -/
def Passed (host : UInt32) (k : ℕ) : Prop := ∀ j < k, refused host j = false

/-- What a thread knows of the address. -/
def Pc.Knows (host : UInt32) : Pc → Prop
  | .check _ _ k => Passed host k
  | .attempt _ _ _ => Passed host comparisons
  | .connecting _ _ i addr => Passed addr comparisons ∧ (i = 0 → Passed host comparisons)
  | _ => True

/-- The threads know what they have compared. -/
def Compared (s : Crawler) : Prop := ∀ (w : ℕ) (pc : Pc), s.workers[w]? = some pc → pc.Knows s.host

section race

variable {s s' : Crawler} {o : Shown}

/-- A thread that goes on, with the address as it is. -/
theorem Compared.goto (hs : Compared s) {w : ℕ} {pc : Pc} (hpc : pc.Knows s.host)
    (hs' : s'.workers = s.workers ∧ s'.host = s.host) : Compared (s'.goto w pc) := by
  intro w' pc' hw'
  rw [Crawler.goto] at hw' ⊢
  simp only [hs'.1, hs'.2] at hw' ⊢
  rw [List.getElem?_set] at hw'
  split_ifs at hw'
  · cases hw'
    exact hpc
  · exact hs w' pc' hw'

/-- A comparison that lets the address pass. -/
theorem passed_succ {host : UInt32} {k : ℕ} (h : Passed host k) (hk : refused host k = false) :
    Passed host (k + 1) := by
  intro j hj
  rcases Nat.lt_succ_iff_lt_or_eq.mp hj with hj | rfl
  · exact h j hj
  · exact hk

theorem compared_check (hs : Compared s) {w port k : ℕ} {server : Bytes}
    (hw : s.workers[w]? = some (.check server port k)) : Compared (s.check w server port k) := by
  have hknows : Passed s.host k := hs w _ hw
  rw [Crawler.check]
  split_ifs with hrefused hk hmore
  · exact hs.goto trivial ⟨rfl, rfl⟩
  · exact hs.goto trivial ⟨rfl, rfl⟩
  · exact hs.goto (passed_succ hknows (Bool.eq_false_of_not_eq_true hrefused)) ⟨rfl, rfl⟩
  · apply hs.goto _ ⟨rfl, rfl⟩
    intro j hj
    exact passed_succ hknows (Bool.eq_false_of_not_eq_true hrefused) j (by omega)

theorem compared_acquire (hs : Compared s) (w : ℕ) : Compared (s.acquire w).1 := by
  rw [Crawler.acquire]
  cases s.jobs with
  | nil => exact hs.goto trivial ⟨rfl, rfl⟩
  | cons server jobs =>
      apply hs.goto _ ⟨rfl, rfl⟩
      show (if server = [] then Pc.stopped else Pc.parse server).Knows s.host
      split_ifs <;> trivial

/-- A thread that reads the address no more does not mind another one. -/
theorem knows_host {host host' : UInt32} {pc : Pc} (h : pc.Knows host) (hreads : pc.reads = false) :
    pc.Knows host' := by
  cases pc with
  | check server port k => cases hreads
  | attempt server port i => cases hreads
  | connecting server port i addr =>
      exact ⟨h.1, fun hi => absurd hi (of_decide_eq_false hreads)⟩
  | _ => trivial

theorem compared_resolved (hs : Compared s) {w port : ℕ} {server : Bytes} {found : Bool}
    {host : UInt32} (he : Alone s (.resolve w found host)) :
    Compared (s.resolved w server port found host) := by
  have hset : ∀ pc : Pc, pc.Knows host → ∀ (w' : ℕ) (pc' : Pc),
      (s.workers.set w pc)[w']? = some pc' → pc'.Knows host := by
    intro pc hpc w' pc' hw'
    rw [List.getElem?_set] at hw'
    split_ifs at hw' with hww
    · cases hw'
      exact hpc
    · exact knows_host (hs w' pc' hw') (he w' pc' (Ne.symm hww) hw')
  rw [Crawler.resolved]
  cases found with
  | true => exact hset (.check server port 0) (fun j hj => absurd hj (Nat.not_lt_zero j))
  | false => exact hset .lock trivial

theorem compared_exchange (hs : Compared s) {w port i : ℕ} {server : Bytes} {addr : UInt32}
    {outcome : Outcome} (hw : s.workers[w]? = some (.connecting server port i addr)) :
    Compared (s.exchange w server port i outcome) := by
  have hknows : Passed addr comparisons ∧ (i = 0 → Passed s.host comparisons) := hs w _ hw
  have hagain : ∀ error, Compared ((s.update w server error).goto w
      (if i + 1 < 2 then .attempt server port (i + 1) else .lock)) := by
    intro error
    split_ifs with hi
    · exact hs.goto (hknows.2 (by omega)) ⟨rfl, rfl⟩
    · exact hs.goto trivial ⟨rfl, rfl⟩
  cases outcome with
  | noSocket error => exact hagain error
  | failed error => exact hagain error
  | reply data => exact hs.goto trivial ⟨rfl, rfl⟩

/-- Without a race the threads keep what they know. -/
theorem compared_step {e : Event} (hs : Compared s) (he : Alone s e)
    (h : step s e = some (s', o)) : Compared s' := by
  cases step_cases h with
  | quit hnotifying hcommand => exact hs
  | line rest hnotifying hcommand => exact hs
  | add server rest hnotifying hcommand => exact hs
  | unheard hnotifying hnone => exact hs
  | heard w hnotifying hw => exact hs.goto trivial ⟨rfl, rfl⟩
  | wake w hw => exact hs.goto trivial ⟨rfl, rfl⟩
  | acquire w pc hw hpc => exact compared_acquire hs w
  | parse w server hw =>
      rw [Crawler.parse]
      split_ifs
      · exact hs.goto trivial ⟨rfl, rfl⟩
      · exact hs.goto trivial ⟨rfl, rfl⟩
  | check w server port k hw => exact compared_check hs hw
  | attempt w server port i hw =>
      have hknows : Passed s.host comparisons := hs w _ hw
      exact hs.goto ⟨hknows, fun _ => hknows⟩ ⟨rfl, rfl⟩
  | resolve w server port found host hw => exact compared_resolved hs he
  | exchange w server port i addr outcome hw => exact compared_exchange hs hw

/-- A thread connects to what it has compared. -/
theorem passed_of_connect {e : Event} (hs : Compared s) {w port : ℕ} {addr : UInt32}
    (h : step s e = some (s', .connect w addr port)) : Passed addr comparisons := by
  have hstep := step_cases h
  generalize ho : Shown.connect w addr port = o at hstep
  cases hstep with
  | acquire w' pc hw hpc =>
      rw [Crawler.acquire] at ho
      cases hjobs : s.jobs <;> rw [hjobs] at ho <;> cases ho
  | exchange w' server port' i addr' outcome hw =>
      cases outcome <;> cases ho <;> exact (hs w _ hw).1
  | _ => cases ho

/-- As long as no name is looked up while another thread still reads its address, no private address
is connected to. -/
theorem connects_to_public {stdin : Bytes} {past : List (Moment Crawler Event Shown)}
    {s : Crawler} (hrun : (machine stdin).Run past s) (halone : ∀ m ∈ past, Alone m.pre m.event) :
    ∀ m ∈ past, ∀ w addr port, m.shown = .connect w addr port → ¬ Private addr := by
  have hinit : Compared (machine stdin).init := by
    intro w pc hw
    have hpc : pc = .lock := by
      have hmem := List.mem_of_getElem? hw
      rcases List.mem_cons.mp hmem with h | h
      · exact h
      · exact List.mem_singleton.mp h
    rw [hpc]
    trivial
  apply hrun.moments (C := Alone) (I := Compared) (P := fun m => ∀ w addr port,
    m.shown = .connect w addr port → ¬ Private addr) hinit _ halone
  intro s e s' o hs he h
  have hstep := (step_of_next h).2
  refine ⟨compared_step hs he hstep, ?_⟩
  rintro w addr port rfl hprivate
  obtain ⟨k, hk, hrefused⟩ := (refused_iff addr).mpr hprivate
  rw [passed_of_connect hs hstep k hk] at hrefused
  cases hrefused

/-- With a race every address can be connected to. -/
theorem connects_to_any (addr : UInt32) :
    ∃ past s, (machine (ascii "r\na/80\nr\nb/80\n")).Run past s
      ∧ ∃ m ∈ past, m.shown = .connect 0 addr 80 := by
  have hreplay : ((machine (ascii "r\na/80\nr\nb/80\n")).replay []
      (machine (ascii "r\na/80\nr\nb/80\n")).init
      [.menu, .notify none, .menu, .notify none, .acquire 0, .acquire 1, .run 0, .run 1,
        .resolve 0 true (htonl 8 8 8 8), .run 0, .run 0, .run 0, .run 0, .run 0,
        .resolve 1 true addr, .run 0, .exchange 0 (.reply [])]).map
      (fun r => r.1.head?.map Moment.shown) = some (some (.connect 0 addr 80)) := by
    rfl
  obtain ⟨⟨past, s⟩, hpast, hhead⟩ := Option.map_eq_some_iff.mp hreplay
  obtain ⟨m, hm, hshown⟩ := Option.map_eq_some_iff.mp hhead
  exact ⟨past, s, Machine.Run.start.replay hpast, m, List.mem_of_head? hm, hshown⟩

/-- A race is what it takes to connect to a private address, and with one any address is reached. -/
theorem private_needs_race :
    (∀ stdin past s, (machine stdin).Run past s → (∀ m ∈ past, Alone m.pre m.event) →
      ∀ m ∈ past, ∀ w addr port, m.shown = .connect w addr port → ¬ Private addr)
    ∧ ∀ addr, ∃ stdin past s, (machine stdin).Run past s
      ∧ ∃ m ∈ past, ∃ w port, m.shown = .connect w addr port := by
  constructor
  · intro stdin past s hrun halone
    exact connects_to_public hrun halone
  · intro addr
    obtain ⟨past, s, hrun, m, hm, hshown⟩ := connects_to_any addr
    exact ⟨_, past, s, hrun, m, hm, 0, 80, hshown⟩

/-- Both threads look up a name one after the other, and connect to a public address. -/
theorem private_needs_race_public : ∃ past s,
    (machine (ascii "r\na/80\nr\nb/80\n")).Run past s ∧ (∀ m ∈ past, Alone m.pre m.event) ∧
    (∃ m ∈ past, m.shown = .connect 0 (htonl 8 8 8 8) 80) ∧
    (∃ m ∈ past, m.shown = .connect 1 (htonl 9 9 9 9) 80) ∧
    ∀ m ∈ past, ∀ w addr port, m.shown = .connect w addr port → ¬ Private addr := by
  obtain ⟨past, s, hrun, htest⟩ := Machine.exists_run_of_replay
    (machine (ascii "r\na/80\nr\nb/80\n"))
    [.menu, .notify none, .menu, .notify none, .acquire 0, .acquire 1, .run 0, .run 1,
      .resolve 0 true (htonl 8 8 8 8), .run 0, .run 0, .run 0, .run 0, .run 0, .run 0,
      .exchange 0 (.reply []), .resolve 1 true (htonl 9 9 9 9), .run 1, .run 1, .run 1, .run 1,
      .run 1, .run 1, .exchange 1 (.reply [])]
    (fun r => decide ((∀ m ∈ r.1, Alone m.pre m.event) ∧
      (∃ m ∈ r.1, m.shown = .connect 0 (htonl 8 8 8 8) 80) ∧
      ∃ m ∈ r.1, m.shown = .connect 1 (htonl 9 9 9 9) 80)) (by decide +kernel)
  obtain ⟨halone, hfirst, hsecond⟩ := of_decide_eq_true htest
  exact ⟨past, s, hrun, halone, hfirst, hsecond, private_needs_race.1 _ past s hrun halone⟩

end race

end WebCrawler
