/-
# The measuring server of Lab 6

The server of `Lab/6/How-Fast-Can-You-Deliver?` accepts connections on a command port and on a
sink port.  Three maps, by file descriptor, tell on which port a connection was accepted, how many
there are for each port, and which segment size a connection has; `emplace` fills them, and only
the first two are cleaned when a connection ends.

* `handleNewClient`, `handleDelClient`, `handleServer`, `handleSink` : the server;
* `system` : accepts, input and disconnects in any order; the state also has the connections that
  the kernel knows;
* `Stepped` : all that a step can do;
* `Mapped`, `mapped_run`, `clients_run` : the first two maps, right in every run;
* `Sized`, `sized_next`, `sameSegment_of_sized` : the third one, and the steps that keep it right;
* `bookkeeping_run` : all three maps, as long as no descriptor comes back with another segment
  size.

The clock, the rates computed from it, and the answers of `send` are outside of the model.  The
counter of received bytes is an integer and not a `long long`: the runs are those that count fewer
than `2 ^ 63` bytes.
-/
import IntroNP.Bytes
import IntroNP.Runs
import IntroNP.Tables
import IntroNP.Tokens
import Mathlib.Logic.Function.Basic

namespace FastDelivery

open Machine

/-! ## The server -/

/-- A file descriptor of a connection. -/
abbrev Fd := ℕ

/-- The two sockets that accept connections: `serverfd` and `sinkfd`. -/
inductive Port
  | server
  | sink
  deriving DecidableEq

/-- `MAX_LINE`. -/
def maxLine : ℕ := 1024

/-- `MAX_DATA_LINE`. -/
def maxDataLine : ℤ := 65536

/-- `header_size`. -/
def headerSize : ℤ := 0x42

/-- A connection that has been accepted and not been closed. -/
structure Conn where
  /-- The socket that has accepted it. -/
  port : Port
  /-- What `getsockopt` has returned for it. -/
  mssSize : ℤ
  deriving DecidableEq

/-- The variables of the server, and the connections as the kernel knows them. -/
structure State where
  /-- `mapping`. -/
  mapping : Table Fd Port
  /-- `cnt`, whose `operator[]` starts at 0. -/
  cnt : Port → ℤ
  /-- `mss`. -/
  mss : Table Fd ℤ
  /-- `recv_size`. -/
  recvSize : ℤ
  /-- `exit` has been called. -/
  exited : Bool
  /-- The open connections. -/
  live : Table Fd Conn

/-- The server before its first event. -/
def State.initial : State where
  mapping := ∅
  cnt := fun _ => 0
  mss := ∅
  recvSize := 0
  exited := false
  live := ∅

/-- `handle_new_client`, with the descriptor that `accept` returns and what `getsockopt` says. -/
def State.handleNewClient (s : State) (listenfd : Port) (connfd : Fd) (mssSize : ℤ) : State :=
  { s with
    cnt := Function.update s.cnt listenfd (s.cnt listenfd + 1)
    mapping := Table.emplace connfd listenfd s.mapping
    mss := Table.emplace connfd mssSize s.mss
    live := s.live.insert connfd ⟨listenfd, mssSize⟩ }

/-- `handle_del_client`; the iterator must be valid. -/
def State.handleDelClient (s : State) (connfd : Fd) : Option State :=
  (s.mapping.lookup connfd).map fun listenfd =>
    { s with
      cnt := Function.update s.cnt listenfd (s.cnt listenfd - 1)
      mapping := s.mapping.erase connfd
      live := s.live.erase connfd }

/-- The answers to commands, without the time. -/
inductive Reply
  | reset (recvSize : ℤ)
  | pong
  /-- The elapsed time and the rate are left out. -/
  | report (recvSize : ℤ)
  | clients (n : ℤ)
  deriving DecidableEq

/-- One turn of the loop of `handle_server`. -/
def State.command (s : State) (token : Bytes) : State × List Reply :=
  if s.exited then (s, [])
  else if token = ascii "/reset" then ({ s with recvSize := 0 }, [.reset s.recvSize])
  else if token = ascii "/ping" then (s, [.pong])
  else if token = ascii "/report" then (s, [.report s.recvSize])
  else if token = ascii "/clients" then (s, [.clients (s.cnt .sink)])
  else if token = ascii "/exit" then ({ s with exited := true }, [])
  else (s, [])

/-- The loop of `handle_server`. -/
def State.commands (s : State) : List Bytes → State × List Reply
  | [] => (s, [])
  | token :: tokens =>
      (((s.command token).1.commands tokens).1,
        (s.command token).2 ++ ((s.command token).1.commands tokens).2)

/-- `handle_server` on what it has read; a buffer without a NUL is read past its end. -/
def State.handleServer (s : State) (received : Bytes) : Option (State × List Reply) :=
  if maxLine ≤ (cstr received).length then none
  else some (s.commands (tokens (· = ch '\n') (cstr received)))

/-- `handle_sink` on what it has read, which is not more than it asks for; the array it reads into
must have as many bytes. -/
def State.handleSink (s : State) (connfd : Fd) (received : Bytes) : Option State :=
  let mss := Table.emplace connfd 0 s.mss
  let bufSize := (mss.lookup connfd).getD 0 - headerSize
  if received.length ≤ bufSize ∧ bufSize ≤ maxDataLine then
    some { s with mss := mss, recvSize := s.recvSize + (headerSize + received.length) }
  else none

/-! ## Runs -/

/-- What `epoll_wait` can report. -/
inductive Event
  /-- A connection arrives; `accept` chooses a descriptor that is not in use. -/
  | accept (listenfd : Port) (connfd : Fd) (mssSize : ℤ)
  /-- A connection can be read; nothing is read at its end, or when there is an error. -/
  | readable (connfd : Fd) (received : Bytes)
  deriving DecidableEq

/-- What an event does. -/
def next (s : State) : Event → Option (State × List Reply)
  | .accept listenfd connfd mssSize =>
      if s.exited ∨ connfd ∈ s.live then none
      else some (s.handleNewClient listenfd connfd mssSize, [])
  | .readable connfd received =>
      if s.exited ∨ connfd ∉ s.live then none
      else match s.mapping.lookup connfd with
        | none => none
        | some listenfd =>
            if received = [] then (s.handleDelClient connfd).map (·, [])
            else if listenfd = .server then s.handleServer received
            else (s.handleSink connfd received).map (·, [])

/-- The server and any number of clients. -/
def system : Machine State Event (List Reply) := ⟨State.initial, next⟩

/-! ## What a step does -/

/-- The number of open connections that a socket has accepted. -/
def State.count (s : State) (listenfd : Port) : ℤ :=
  (Table.values s.live).countP fun c => c.port = listenfd

/-- The commands change the counter and the end of the program only, and `/clients` answers with
what `cnt` has. -/
theorem commands_spec (s : State) (tokens : List Bytes) :
    (∃ recvSize exited, (s.commands tokens).1 = { s with recvSize := recvSize, exited := exited }) ∧
      ∀ n, Reply.clients n ∈ (s.commands tokens).2 → n = s.cnt .sink := by
  induction tokens generalizing s with
  | nil => exact ⟨⟨s.recvSize, s.exited, rfl⟩, by rintro n ⟨⟩⟩
  | cons token tokens ih =>
      have hone : (∃ recvSize exited,
          (s.command token).1 = { s with recvSize := recvSize, exited := exited }) ∧
          ∀ n, Reply.clients n ∈ (s.command token).2 → n = s.cnt .sink := by
        unfold State.command
        split_ifs <;> exact ⟨⟨_, _, rfl⟩, by simp⟩
      obtain ⟨⟨recvSize, exited, hs⟩, hreply⟩ := hone
      obtain ⟨⟨recvSize', exited', hs'⟩, hreply'⟩ := ih (s.command token).1
      constructor
      · refine ⟨recvSize', exited', ?_⟩
        rw [State.commands, hs', hs]
      · intro n hn
        cases List.mem_append.mp hn with
        | inl hn => exact hreply n hn
        | inr hn =>
            rw [hreply' n hn, hs]

/-- All that a step can do. -/
inductive Stepped (s : State) : Event → State → List Reply → Prop
  | accepted {listenfd connfd mssSize} (hfree : connfd ∉ s.live) :
      Stepped s (.accept listenfd connfd mssSize) (s.handleNewClient listenfd connfd mssSize) []
  | closed {connfd listenfd} (hlive : connfd ∈ s.live)
      (hmapping : s.mapping.lookup connfd = some listenfd) :
      Stepped s (.readable connfd [])
        { s with
          cnt := Function.update s.cnt listenfd (s.cnt listenfd - 1)
          mapping := s.mapping.erase connfd
          live := s.live.erase connfd } []
  | served {connfd received recvSize exited replies}
      (hreply : ∀ n, Reply.clients n ∈ replies → n = s.cnt .sink) :
      Stepped s (.readable connfd received) { s with recvSize := recvSize, exited := exited } replies
  | sunk {connfd received recvSize} :
      Stepped s (.readable connfd received)
        { s with mss := Table.emplace connfd 0 s.mss, recvSize := recvSize } []

theorem stepped_of_next {s s' : State} {e : Event} {replies : List Reply}
    (h : next s e = some (s', replies)) : Stepped s e s' replies := by
  cases e with
  | accept listenfd connfd mssSize =>
      rw [next] at h
      split_ifs at h with hfree
      cases h
      exact .accepted fun hlive => hfree (.inr hlive)
  | readable connfd received =>
      rw [next] at h
      by_cases hlive : s.exited = true ∨ connfd ∉ s.live
      · rw [if_pos hlive] at h
        cases h
      -- the connection is open: the end of it, commands, or data for a sink
      rw [if_neg hlive] at h
      rw [not_or, not_not] at hlive
      cases hmapping : s.mapping.lookup connfd with
      | none =>
          rw [hmapping] at h
          cases h
      | some listenfd =>
          rw [hmapping] at h
          dsimp only at h
          split_ifs at h with hend hserver
          · subst hend
            rw [State.handleDelClient, hmapping] at h
            cases h
            exact .closed hlive.2 hmapping
          · rw [State.handleServer] at h
            split_ifs at h
            rw [Option.some.injEq] at h
            obtain ⟨⟨recvSize, exited, hs⟩, hreply⟩ :=
              commands_spec s (tokens (· = ch '\n') (cstr received))
            rw [h] at hs hreply
            rw [show s' = { s with recvSize := recvSize, exited := exited } from hs]
            exact .served hreply
          · obtain ⟨s₁, hsink, heq⟩ := Option.map_eq_some_iff.mp h
            cases heq
            rw [State.handleSink] at hsink
            split_ifs at hsink
            cases hsink
            exact .sunk

/-! ## The maps in every run -/

/-- The first two maps agree with the open connections. -/
structure Mapped (s : State) : Prop where
  /-- `mapping` has the open connections, with the sockets that have accepted them. -/
  mapping : ∀ fd, s.mapping.lookup fd = (s.live.lookup fd).map Conn.port
  /-- `cnt` counts them. -/
  cnt : ∀ listenfd, s.cnt listenfd = s.count listenfd

/-- `mss` has the segment sizes of the open connections. -/
def Sized (s : State) : Prop :=
  ∀ fd c, s.live.lookup fd = some c → s.mss.lookup fd = some c.mssSize

theorem mapped_initial : Mapped State.initial where
  mapping := fun _ => rfl
  cnt := fun _ => rfl

/-- Every step keeps the first two maps right. -/
theorem mapped_next {s s' : State} {e : Event} {replies : List Reply} (h : Mapped s)
    (hs : next s e = some (s', replies)) : Mapped s' := by
  cases stepped_of_next hs with
  | @accepted listenfd connfd mssSize hfree =>
      have hnew : connfd ∉ s.mapping := by
        rw [← AList.lookup_isSome, h.mapping, Option.isSome_map, AList.lookup_isSome]
        exact hfree
      constructor
      · intro fd
        show (Table.emplace connfd listenfd s.mapping).lookup fd
          = ((s.live.insert connfd ⟨listenfd, mssSize⟩).lookup fd).map Conn.port
        rw [Table.lookup_emplace]
        by_cases hfd : fd = connfd
        · subst hfd
          rw [if_pos ⟨rfl, hnew⟩, AList.lookup_insert, Option.map_some]
        · rw [if_neg (fun hand => hfd hand.1), AList.lookup_insert_ne hfd, h.mapping]
      · intro p
        show Function.update s.cnt listenfd (s.cnt listenfd + 1) p
          = ((Table.values (s.live.insert connfd ⟨listenfd, mssSize⟩)).countP _ : ℕ)
        rw [Table.values_insert hfree, List.countP_cons]
        by_cases hp : p = listenfd
        · subst hp
          simp [h.cnt, State.count]
        · simp [hp, Ne.symm hp, h.cnt, State.count]
  | @closed connfd listenfd hlive hmapping =>
      obtain ⟨c, hc⟩ := Table.mem_iff_lookup.mp hlive
      have hport : c.port = listenfd := by
        rw [h.mapping, hc] at hmapping
        exact Option.some.inj hmapping
      constructor
      · intro fd
        show (s.mapping.erase connfd).lookup fd = ((s.live.erase connfd).lookup fd).map Conn.port
        rw [Table.lookup_erase', Table.lookup_erase']
        by_cases hfd : fd = connfd
        · rw [if_pos hfd, if_pos hfd, Option.map_none]
        · rw [if_neg hfd, if_neg hfd, h.mapping]
      · intro p
        have hcount := Table.countP_erase (fun c : Conn => c.port = p) hc
        show Function.update s.cnt listenfd (s.cnt listenfd - 1) p
          = ((Table.values (s.live.erase connfd)).countP _ : ℕ)
        by_cases hp : p = listenfd
        · subst hp
          rw [Function.update_self, h.cnt, State.count, hcount, if_pos (by simpa using hport)]
          omega
        · rw [Function.update_of_ne hp, h.cnt, State.count, hcount,
            if_neg (by simpa [hport] using Ne.symm hp), Nat.add_zero]
  | served => exact ⟨h.mapping, h.cnt⟩
  | sunk => exact ⟨h.mapping, h.cnt⟩

/-- A new connection has no descriptor under which another segment size is left from before. -/
def SameSegment (s : State) : Event → Prop
  | .accept _ connfd mssSize => ∀ m, s.mss.lookup connfd = some m → m = mssSize
  | .readable _ _ => True

/-- Every such step keeps the third map right. -/
theorem sized_next {s s' : State} {e : Event} {replies : List Reply} (h : Sized s)
    (hsame : SameSegment s e) (hs : next s e = some (s', replies)) : Sized s' := by
  cases stepped_of_next hs with
  | @accepted listenfd connfd mssSize hfree =>
      intro fd c hc
      show (Table.emplace connfd mssSize s.mss).lookup fd = some c.mssSize
      rw [Table.lookup_emplace]
      by_cases hfd : fd = connfd
      · subst hfd
        have hsize : c = ⟨listenfd, mssSize⟩ := by
          have hlookup : (s.live.insert fd ⟨listenfd, mssSize⟩).lookup fd = some c := hc
          rw [AList.lookup_insert] at hlookup
          exact (Option.some.inj hlookup).symm
        rw [hsize]
        -- `emplace` keeps the size of an earlier connection under the descriptor
        cases hold : s.mss.lookup fd with
        | none => rw [if_pos ⟨rfl, AList.lookup_eq_none.mp hold⟩]
        | some m =>
            rw [if_neg (fun hand => hand.2 (Table.mem_of_lookup hold)), hsame m hold]
      · rw [if_neg (fun hand => hfd hand.1)]
        refine h fd c ?_
        rw [← hc]
        exact (AList.lookup_insert_ne hfd).symm
  | @closed connfd listenfd hlive hmapping =>
      intro fd c hc
      have hlookup : (s.live.erase connfd).lookup fd = some c := hc
      rw [Table.lookup_erase'] at hlookup
      split_ifs at hlookup with hfd
      exact h fd c hlookup
  | served => exact h
  | @sunk connfd received recvSize =>
      intro fd c hc
      have hsize := h fd c hc
      show (Table.emplace connfd 0 s.mss).lookup fd = some c.mssSize
      rw [Table.lookup_emplace, if_neg, hsize]
      rintro ⟨rfl, hnew⟩
      rw [AList.lookup_eq_none.mpr hnew] at hsize
      cases hsize

/-- And no other step does. -/
theorem sameSegment_of_sized {s s' : State} {e : Event} {replies : List Reply}
    (hs : next s e = some (s', replies)) (h : Sized s') : SameSegment s e := by
  cases stepped_of_next hs with
  | @accepted listenfd connfd mssSize hfree =>
      intro m hm
      have hmem : connfd ∈ s.mss := Table.mem_of_lookup hm
      have hsize : (Table.emplace connfd mssSize s.mss).lookup connfd = some mssSize :=
        h connfd ⟨listenfd, mssSize⟩ (AList.lookup_insert _)
      rw [Table.lookup_emplace, if_neg (fun hand => hand.2 hmem), hm] at hsize
      exact Option.some.inj hsize
  | closed => trivial
  | served => trivial
  | sunk => trivial

/-! ## Runs -/

section runs

variable {past : List (Moment State Event (List Reply))} {s : State}

/-- In every run, `mapping` has exactly the open connections, each with the socket that has
accepted it, and `cnt` counts them. -/
theorem mapped_run (hrun : Run system past s) : Mapped s :=
  hrun.always mapped_initial fun _ _ _ _ h hs => mapped_next h hs

/-- In every run, each answer to `/clients` is the number of open sink connections. -/
theorem clients_run (hrun : Run system past s) :
    ∀ m ∈ past, ∀ n, Reply.clients n ∈ m.shown → n = m.pre.count .sink := by
  refine hrun.moments (C := fun _ _ => True) (I := Mapped) mapped_initial ?_ fun _ _ => trivial
  intro s e s' replies h _ hs
  refine ⟨mapped_next h hs, fun n hn => ?_⟩
  cases stepped_of_next hs with
  | accepted => cases hn
  | closed => cases hn
  | served hreply => rw [hreply n hn, h.cnt]
  | sunk => cases hn

/-- In every run in which no descriptor comes back with another segment size, the three maps are
right: `mapping` has exactly the open connections, each with the socket that has accepted it;
`cnt` and the answers to `/clients` count the open sink connections; and `mss` has the segment size
of every open connection. -/
theorem bookkeeping_run (hrun : Run system past s) (hC : ∀ m ∈ past, SameSegment m.pre m.event) :
    (∀ fd, s.mapping.lookup fd = (s.live.lookup fd).map Conn.port) ∧
    s.cnt .sink = s.count .sink ∧
    (∀ m ∈ past, ∀ n, Reply.clients n ∈ m.shown → n = m.pre.count .sink) ∧
    ∀ fd c, s.live.lookup fd = some c → s.mss.lookup fd = some c.mssSize := by
  have hsized : Sized s := hrun.invariant (C := SameSegment) (by rintro fd c ⟨⟩)
    (fun _ _ _ _ h hsame hs => sized_next h hsame hs) hC
  exact ⟨(mapped_run hrun).mapping, (mapped_run hrun).cnt .sink, clients_run hrun, hsized⟩

end runs

/-- Two sink connections one after the other, under one descriptor and with one segment size. -/
theorem bookkeeping_run_twice : ∃ past s, Run system past s ∧
    ∃ c, s.live.lookup 7 = some c ∧ s.mss.lookup 7 = some c.mssSize := by
  obtain ⟨past, s, hrun, htest⟩ := exists_run_of_replay system
    [.accept .sink 7 1448, .readable 7 [], .accept .sink 7 1448]
    (fun r => r.1.all (fun m => match m.event with
      | .accept _ connfd mssSize => (m.pre.mss.lookup connfd).all (· = mssSize)
      | .readable _ _ => true) && (r.2.live.lookup 7).isSome) (by decide +kernel)
  rw [Bool.and_eq_true, List.all_eq_true] at htest
  obtain ⟨hall, hlive⟩ := htest
  have hC : ∀ m ∈ past, SameSegment m.pre m.event := by
    intro m hm
    have htest := hall m hm
    obtain ⟨pre, event, shown⟩ := m
    cases event with
    | accept listenfd connfd mssSize =>
        intro n hn
        simpa [show pre.mss.lookup connfd = some n from hn] using htest
    | readable connfd received => trivial
  obtain ⟨c, hc⟩ := Option.isSome_iff_exists.mp hlive
  exact ⟨past, s, hrun, c, hc, (bookkeeping_run hrun hC).2.2.2 7 c hc⟩

/-- Two sink connections one after the other, under one descriptor: the second one is left with
the segment size of the first. -/
theorem stale_segment : ∃ past s, Run system past s ∧
    ∃ c, s.live.lookup 7 = some c ∧ c.mssSize = 536 ∧ s.mss.lookup 7 = some 1448 := by
  obtain ⟨past, s, hrun, htest⟩ := exists_run_of_replay system
    [.accept .sink 7 1448, .readable 7 [], .accept .sink 7 536]
    (fun r => (r.2.live.lookup 7).any (fun c : Conn => c.mssSize = 536)
      && decide (r.2.mss.lookup 7 = some 1448)) (by decide +kernel)
  rw [Bool.and_eq_true, Option.any_eq_true, decide_eq_true_eq] at htest
  obtain ⟨⟨c, hc, hsize⟩, hmss⟩ := htest
  exact ⟨past, s, hrun, c, hc, of_decide_eq_true hsize, hmss⟩

end FastDelivery
