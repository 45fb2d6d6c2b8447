/-
# The server around the controller

`Server` of `Homework/1/mircd`: it accepts connections, and passes the lines of what it reads from
them to the controller, one after another.  A `SockAddr` is the address of a new connection; its
text is the host that the controller is given.

* `Server`, `Input`, `server` : the server line by line, with the strings passed to `sendstr`;
* `runLine` : what is done with one line, also when it ends in undefined behaviour;
* `run_lines` : the lines of a read are handled as `handle_client_input` handles them;
* `run_system` : the server is one of the ways in which the controller can run.

A read of `MAX_LINE` bytes, which fills the buffer to the end, is left out.
-/
import IntroNP.MircdInput

namespace Mircd

open Machine

/-! ## Addresses -/

/-- `struct sockaddr_in`. -/
structure SockAddr where
  /-- `sin_addr`. -/
  addr : Bytes
  /-- `sin_port`. -/
  port : UInt16
  four : addr.length = 4
  deriving DecidableEq

/-- `inet_ntop`. -/
def inetNtop (addr : Bytes) : Bytes := (ascii ".").intercalate (addr.map fun b => dec b.toNat)

/-- `sock_host`. -/
def sockHost (sock : SockAddr) : Bytes := inetNtop sock.addr

/-- `sock_info`. -/
def sockInfo (sock : SockAddr) : Bytes := inetNtop sock.addr ++ ascii ":" ++ dec sock.port.toNat

example : sockInfo ⟨[127, 0, 0, 1], 10004, rfl⟩ = ascii "127.0.0.1:10004" := by decide +kernel

/-! ## The server -/

/-- What is done with a line: what is sent, and the database afterwards if all is defined. -/
def runLine (connfd : Fd) (db : Database) (argv : List Bytes) : List Sent × Option Database :=
  match call connfd argv ⟨db, []⟩ with
  | .ok _ w => (w.sent, some w.db)
  | .error (.cmdMsg msg) w => (w.sent ++ [(connfd, sendcmdsStr [msg] [])], some w.db)
  | .error .disconnect w => (w.sent, some (w.db.clientDel connfd))
  | .error .undefined w => (w.sent, none)

/-- The server: it waits for events or is in the loop of `handle_client_input`, with lines still to
be handled, unless something undefined has happened. -/
inductive Server where
  | running (db : Database) (todo : Option (Fd × List (List Bytes)))
  | undefined

/-- What can happen next. -/
inductive Input where
  /-- `handle_new_client`. -/
  | accept (connfd : Fd) (sock : SockAddr)
  /-- `handle_client_input`, up to the loop. -/
  | read (connfd : Fd) (received : Bytes)
  /-- The loop goes on. -/
  | line
  deriving DecidableEq

/-- What an event does. -/
def Server.next : Server → Input → Option (Server × List Sent)
  | .running db none, .accept connfd sock =>
      if connfd ∈ db.clients then none
      else some (.running (db.clientAdd connfd (sockInfo sock) (sockHost sock)) none, [])
  | .running db none, .read connfd received =>
      if connfd ∈ db.clients ∧ received.length < MAX_LINE then
        if received = [] then some (.running (db.clientDel connfd) none, [])
        else some (.running db (some (connfd, argvs received)), [])
      else none
  | .running db (some (_, [])), .line => some (.running db none, [])
  | .running db (some (connfd, argv :: rest)), .line =>
      match runLine connfd db argv with
      | (sent, some db') => some (.running db' (some (connfd, rest)), sent)
      | (sent, none) => some (.undefined, sent)
  | _, _ => none

/-- The server and any number of clients. -/
def server : Machine Server Input (List Sent) := ⟨.running Database.initial none, Server.next⟩

/-- The steps of the server. -/
inductive Serves : Server → Input → List Sent → Server → Prop
  | accept {db connfd sock} (hfree : connfd ∉ db.clients) :
      Serves (.running db none) (.accept connfd sock) []
        (.running (db.clientAdd connfd (sockInfo sock) (sockHost sock)) none)
  | closed {db connfd} (hconn : connfd ∈ db.clients) :
      Serves (.running db none) (.read connfd []) [] (.running (db.clientDel connfd) none)
  | read {db connfd received} (hconn : connfd ∈ db.clients) (hlen : received.length < MAX_LINE) :
      Serves (.running db none) (.read connfd received) []
        (.running db (some (connfd, argvs received)))
  | last {db connfd} : Serves (.running db (some (connfd, []))) .line [] (.running db none)
  | line {db connfd argv rest sent db'} (hline : runLine connfd db argv = (sent, some db')) :
      Serves (.running db (some (connfd, argv :: rest))) .line sent
        (.running db' (some (connfd, rest)))
  | undefined {db connfd argv rest sent} (hline : runLine connfd db argv = (sent, none)) :
      Serves (.running db (some (connfd, argv :: rest))) .line sent .undefined

theorem serves_of_next {s s' : Server} {a : Input} {sent : List Sent}
    (h : server.next s a = some (s', sent)) : Serves s a sent s' := by
  have h : Server.next s a = some (s', sent) := h
  unfold Server.next at h
  split at h
  · split_ifs at h with hconn
    cases h
    exact .accept hconn
  · split_ifs at h with hread hnone
    · cases h
      subst hnone
      exact .closed hread.1
    · cases h
      exact .read hread.1 hread.2
  · cases h
    exact .last
  · split at h
    · next hline =>
        cases h
        exact .line hline
    · next hline =>
        cases h
        exact .undefined hline
  · cases h

/-! ## The loop over the lines -/

theorem handleLine_eq (connfd : Fd) (db : Database) (argv : List Bytes) :
    handleLine connfd db argv
      = (runLine connfd db argv).2.map fun db' => (db', (runLine connfd db argv).1) := by
  rw [handleLine, runCall, runLine]
  cases call connfd argv ⟨db, []⟩ with
  | ok a w => rfl
  | error e w => cases e <;> rfl

/-- From the beginning of the loop the server handles the lines as `handleLines` does. -/
theorem run_lines {past : List (Moment Server Input (List Sent))} {db : Database} {fd : Fd}
    {rest : List (List Bytes)} {r : Database × List Sent}
    (hrun : Run server past (.running db (some (fd, rest))))
    (h : (handleLines fd db rest).2 = some r) :
    ∃ new, Run server (new ++ past) (.running r.1 none) ∧ (∀ m ∈ new, m.event = .line) ∧
      new.reverse.flatMap Moment.shown = r.2 := by
  induction rest generalizing past db r with
  | nil =>
      cases h
      exact ⟨[_], hrun.next rfl, List.forall_mem_singleton.mpr rfl, rfl⟩
  | cons argv rest ih =>
      -- the loop takes a step for each line, and one more to end
      rw [handleLines, handleLine_eq] at h
      cases hline : runLine fd db argv with
      | mk sent after =>
          cases after with
          | none =>
              rw [hline] at h
              cases h
          | some db' =>
              rw [hline] at h
              obtain ⟨r', hr', rfl⟩ := Option.map_eq_some_iff.mp h
              have hloop : Server.next (.running db (some (fd, argv :: rest))) .line
                  = some (.running db' (some (fd, rest)), sent) := by
                rw [Server.next, hline]
              have hstep : server.next (.running db (some (fd, argv :: rest))) .line = _ := hloop
              obtain ⟨new, hnew, hevents, hsent⟩ := ih (hrun.next hstep) hr'
              refine ⟨new ++ [⟨.running db (some (fd, argv :: rest)), .line, sent⟩], ?_, ?_, ?_⟩
              · rw [List.append_assoc]
                exact hnew
              · intro m hm
                rcases List.mem_append.mp hm with hm | hm
                · exact hevents m hm
                · rw [List.mem_singleton.mp hm]
              · rw [List.reverse_append, List.flatMap_append, hsent]
                simp

/-! ## The controller -/

/-- A line of a client that is gone changes nothing, if it is defined at all. -/
theorem runLine_gone {fd : Fd} {db db' : Database} {argv : List Bytes} {sent : List Sent}
    (hgone : fd ∉ db.clients) (h : runLine fd db argv = (sent, some db')) : db' = db := by
  have hlookup := AList.lookup_eq_none.mpr hgone
  rw [runLine, call_eq] at h
  cases argv with
  | nil =>
      cases h
      rfl
  | cons cmd args =>
      rw [dispatch, hlookup] at h
      cases hitem : cmds.lookup cmd with
      | none =>
          rw [hitem] at h
          cases h
          rfl
      | some item =>
          rw [hitem] at h
          cases h

/-- A line of a connected client is a command, and a disconnect if the command asks for it. -/
theorem runCall_of_runLine {fd : Fd} {db db' : Database} {argv : List Bytes} {sent : List Sent}
    (h : runLine fd db argv = (sent, some db')) :
    ∃ db₁ shown, runCall db fd argv = some (db₁, shown) ∧
      (db' = db₁ ∨ db' = db₁.clientDel fd) := by
  rw [runLine] at h
  rw [runCall]
  cases hcall : call fd argv ⟨db, []⟩ with
  | ok a w =>
      rw [hcall] at h
      cases h
      exact ⟨_, _, rfl, Or.inl rfl⟩
  | error e w =>
      rw [hcall] at h
      cases e with
      | cmdMsg msg =>
          cases h
          exact ⟨_, _, rfl, Or.inl rfl⟩
      | disconnect =>
          cases h
          exact ⟨_, _, rfl, Or.inr rfl⟩
      | undefined => cases h

/-- The database of the server is one that connections, commands and disconnects lead to. -/
theorem run_system {past : List (Moment Server Input (List Sent))} {s : Server}
    (hrun : Run server past s) {db : Database} {todo : Option (Fd × List (List Bytes))}
    (hs : s = .running db todo) : ∃ past', Run system past' db := by
  suffices hall : ∀ db todo, s = .running db todo → ∃ past', Run system past' db from
    hall db todo hs
  refine hrun.always (I := fun s => ∀ db todo, s = .running db todo → ∃ past', Run system past' db)
    ?_ ?_
  · rintro db todo ⟨⟩
    exact ⟨[], .start⟩
  · intro s a s' o hI hnext db' todo' heq
    have hstep : ∀ {past' db a db₁ shown}, Run system past' db → Happens db a shown db₁ →
        ∃ past', Run system past' db₁ := fun hpast h => ⟨_, hpast.next (next_iff_happens.mpr h)⟩
    cases serves_of_next hnext with
    | @accept db connfd sock hfree =>
        cases heq
        obtain ⟨past', hpast⟩ := hI _ _ rfl
        exact hstep hpast (.clientAdd hfree)
    | @closed db connfd =>
        cases heq
        obtain ⟨past', hpast⟩ := hI _ _ rfl
        exact hstep hpast .clientDel
    | read =>
        cases heq
        exact hI _ _ rfl
    | last =>
        cases heq
        exact hI _ _ rfl
    | @line db connfd argv rest _ _ hline =>
        cases heq
        obtain ⟨past', hpast⟩ := hI _ _ rfl
        by_cases hconn : connfd ∈ db.clients
        -- a line with QUIT is two steps of the controller: the command and the disconnect
        · obtain ⟨db₁, shown, hcall, hdb⟩ := runCall_of_runLine hline
          obtain ⟨past₁, hpast₁⟩ := hstep hpast (.call hconn hcall)
          rcases hdb with rfl | rfl
          · exact ⟨past₁, hpast₁⟩
          · exact hstep hpast₁ .clientDel
        · rw [runLine_gone hconn hline]
          exact ⟨past', hpast⟩
    | undefined => cases heq

end Mircd
