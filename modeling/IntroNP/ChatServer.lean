/-
# The chat server of Lab 5

The server of `Lab/5/Say-Hey!-to-Your-Friend` keeps the name and the address of each client under
its file descriptor, and the number of clients apart from them.  What a client sends is a command
or a line for all others.  Messages are formatted into arrays of fixed sizes; a step shows the
strings formatted by `msg2log` and `sendexp` with the sizes of their arrays, and what is sent.

* `msg2log`, `sendexp` : the two layers of formatting;
* `whoTable` : the table of `/who`, written row by row into a block from `malloc`;
* `handleNewClient`, `handleClientInput` : the handlers;
* `system` : connects, reads and disconnects in any order;
* `next_cases` : what a step does to the variables of the server;
* `clientOf`, `clientOf_run` : the clients in the map are those that the events of the run leave;
* `Counted`, `counted_run` : the number of clients is the size of the map, in every run;
* `Printable`, `printable_run` : names and addresses are strings without line breaks.

A string formatted into an array that is too short has no effect on the state here.  Descriptors
are fewer than a million and names shorter than the buffer they are read into, so that the sizes
that are computed stay below `2 ^ 31`; they are not cut to the width of an `int`.
-/
import IntroNP.Blocks
import IntroNP.Bytes
import IntroNP.Runs
import IntroNP.Tables

namespace Chat

open Block Machine

/-! ## Clients -/

/-- A file descriptor. -/
abbrev Fd := ℕ

/-- `MAX_LINE`. -/
def MAX_LINE : ℕ := 1024

/-- `struct Client`: the strings that its pointers point to. -/
structure Client where
  /-- `name`. -/
  name : Bytes
  /-- `info`. -/
  info : Bytes
  deriving DecidableEq

/-- The variables of the server. -/
structure State where
  /-- `clicnt`. -/
  clicnt : ℤ
  /-- `cliinfo`. -/
  cliinfo : Table Fd Client

/-- The server before its first event. -/
def State.initial : State := ⟨0, ∅⟩

/-- `struct sockaddr_in`. -/
structure SockAddr where
  /-- The four bytes of `sin_addr`. -/
  addr : UInt8 × UInt8 × UInt8 × UInt8
  /-- `sin_port`. -/
  port : UInt16
  deriving DecidableEq

/-- `sock_info`. -/
def sockInfo (sock : SockAddr) : Bytes :=
  dec sock.addr.1.toNat ++ ascii "." ++ dec sock.addr.2.1.toNat ++ ascii "." ++
    dec sock.addr.2.2.1.toNat ++ ascii "." ++ dec sock.addr.2.2.2.toNat ++ ascii ":" ++
    dec sock.port.toNat

/-- What the system and the library decide during a step. -/
structure Env where
  /-- The string in `timebuf`. -/
  timebuf : Bytes
  /-- It fits its array. -/
  timebuf_length : timebuf.length < 20
  /-- What a fresh block of some size holds. -/
  malloc : ℕ → Bytes
  /-- A block has the size that was asked for. -/
  malloc_length : ∀ n, (malloc n).length = n
  /-- The order in which a map is iterated. -/
  order : Table Fd Client → List (Fd × Client)
  /-- The iteration visits each entry once. -/
  order_perm : ∀ t, (order t).Perm (t.entries.map fun e => (e.1, e.2))

/-- A time, blocks of zeros, and the order of the table. -/
def Env.sample : Env where
  timebuf := ascii "2022-10-27 12:00:00"
  timebuf_length := by decide
  malloc := fun n => List.replicate n 0
  malloc_length := fun _ => List.length_replicate
  order := fun t => t.entries.map fun e => (e.1, e.2)
  order_perm := fun _ => List.Perm.refl _

/-! ## Formatting -/

/-- The conversion `%d`. -/
def decInt (n : ℤ) : Bytes := (if n < 0 then ascii "-" else []) ++ dec n.natAbs

/-- The conversion `%ws`: padded with blanks on the left. -/
def padLeft (w : ℕ) (s : Bytes) : Bytes := List.replicate (w - s.length) (ch ' ') ++ s

/-- A string that is formatted, and the size of the array it is written to. -/
structure Format where
  /-- The size of the array. -/
  size : ℕ
  /-- The string. -/
  text : Bytes
  deriving DecidableEq

/-- The string fits the array, with its NUL. -/
def Format.Fits (f : Format) : Prop := f.text.length + 1 ≤ f.size

instance (f : Format) : Decidable f.Fits := inferInstanceAs (Decidable (_ ≤ _))

/-- The parameter `from`: `SYSTEM`, or the name of a client. -/
inductive Sender where
  | system
  | user (name : Bytes)

/-- The string in `frombuf`. -/
def Sender.text : Sender → Bytes
  | .system => ascii "***"
  | .user name => ascii "<" ++ name ++ ascii ">"

/-- `msg2log`: the line it returns, and what it formats. -/
def msg2log (env : Env) (sender : Sender) (msg : Bytes) : Bytes × List Format :=
  let log := env.timebuf ++ ascii " " ++ sender.text ++ ascii " " ++ msg ++ ascii "\n"
  (log, [⟨MAX_LINE, msg⟩, ⟨MAX_LINE / 2, sender.text⟩, ⟨MAX_LINE * 2, log⟩])

/-- What a step shows. -/
structure Shown where
  /-- All scans of the input have stayed inside `buf`. -/
  inside : Bool
  /-- What `msg2log` and `sendexp` have formatted. -/
  formats : List Format
  /-- What has been sent. -/
  sent : List (Fd × Bytes)

/-- A step that formats nothing and sends nothing. -/
def Shown.nothing : Shown := ⟨true, [], []⟩

/-- One after the other. -/
def Shown.append (o o' : Shown) : Shown :=
  ⟨o.inside && o'.inside, o.formats ++ o'.formats, o.sent ++ o'.sent⟩

/-- A message of the server to one client: `msg2log` and `sendstr`. -/
def reply (env : Env) (connfd : Fd) (msg : Bytes) : Shown :=
  ⟨true, (msg2log env .system msg).2, [(connfd, (msg2log env .system msg).1)]⟩

/-- `sendexp`, in its own process. -/
def sendexp (env : Env) (cliinfo : Table Fd Client) (skip : Fd) (sender : Sender) (msg : Bytes) :
    Shown :=
  ⟨true, ⟨MAX_LINE, msg⟩ :: (msg2log env sender msg).2,
    ((env.order cliinfo).filter fun c => c.1 ≠ skip).map
      fun c => (c.1, (msg2log env sender msg).1)⟩

/-! ## The table of `/who` -/

/-- The loop that computes `mxname`. -/
def mxname (clients : List (Fd × Client)) : ℕ :=
  clients.foldl (fun mx c => if c.2.name.length > mx then c.2.name.length else mx) 0

/-- A row, in the format `%c %-*s %21s\n`. -/
def whoRow (mx : ℕ) (connfd : Fd) (c : Fd × Client) : Bytes :=
  [if c.1 = connfd then ch '*' else ch ' '] ++ ascii " " ++ padRight mx c.2.name ++ ascii " " ++
    padLeft 21 c.2.info ++ ascii "\n"

/-- The table, in a block of `size` bytes; a write that leaves the block is undefined. -/
def whoTable (env : Env) (s : State) (connfd : Fd) : Option Bytes := do
  let clients := env.order s.cliinfo
  let mx := mxname clients
  let len := 2 + mx + 22 + 1
  let size := (len * (s.clicnt + 2)).toNat
  let table ← store (env.malloc size) 0 (List.replicate len (ch '-'))
  let table ← store table (len - 1) (ascii "\n")
  let table ← storeStrings 0 len (clients.map (whoRow mx connfd)) len table
  let table ← store table (size - len) (List.replicate len (ch '-'))
  store table (size - 1) (ascii "\n")

/-! ## The handlers -/

/-- The delimiters `" \n"`. -/
def isBlank (b : UInt8) : Bool := b = ch ' ' || b = ch '\n'

/-- The delimiter `"\n"`. -/
def isLf (b : UInt8) : Bool := b = ch '\n'

/-- The buffer after a read: the bytes received, and zeros. -/
def buffer (received : Bytes) : Bytes :=
  received ++ List.replicate (MAX_LINE - received.length) 0

/-- `handle_new_client`, with what `accept` returns and the name from `randstr`. -/
def State.handleNewClient (env : Env) (s : State) (connfd : Fd) (sock : SockAddr) (name : Bytes) :
    State × Shown :=
  let cliinfo := s.cliinfo.insert connfd ⟨name, sockInfo sock⟩
  (⟨s.clicnt + 1, cliinfo⟩,
    (sendexp env s.cliinfo connfd .system
      (ascii "User <" ++ name ++ ascii "> has just landed on the server")).append
    (reply env connfd (ascii "Welcome to the simple CHAT server\nTotal " ++ decInt (s.clicnt + 1) ++
      ascii " users online now. Your name is <" ++ name ++ ascii ">")))

/-- The end of a connection, in `handle_client_input`. -/
def State.disconnect (env : Env) (s : State) (connfd : Fd) (cli : Client) : State × Shown :=
  let cliinfo := s.cliinfo.erase connfd
  (⟨s.clicnt - 1, cliinfo⟩, sendexp env cliinfo connfd .system
    (ascii "User <" ++ cli.name ++ ascii "> has left the server"))

/-- `/name`: the new name is the rest of the buffer from its seventh byte, up to a line feed.
Without one `strdup` is called on a null pointer, and the server is gone. -/
def State.rename (env : Env) (s : State) (connfd : Fd) (cli : Client) (buf : Bytes) :
    Option State × Shown :=
  match nextToken 0 isLf buf 6 with
  | none => (none, ⟨false, [], []⟩)
  | some none => (none, .nothing)
  | some (some (name, _)) =>
      (some { s with cliinfo := Table.modify connfd (fun cli => { cli with name := name }) s.cliinfo },
        (reply env connfd (ascii "Nickname changed to <" ++ name ++ ascii ">")).append
        (sendexp env s.cliinfo connfd .system
          (ascii "User <" ++ cli.name ++ ascii "> renamed to <" ++ name ++ ascii ">")))

/-- A command.  `exit` ends the server. -/
def State.command (env : Env) (s : State) (connfd : Fd) (cli : Client) (received : Bytes) :
    Option State × Shown :=
  match nextToken 0 isBlank (buffer received) 0 with
  | none => (none, ⟨false, [], []⟩)
  | some none => (none, .nothing)
  | some (some (token, buf)) =>
      if token = ascii "/exit" then (none, .nothing)
      else if token = ascii "/name" ∧ received.length > 7 then s.rename env connfd cli buf
      else if token = ascii "/who" then
        (some s, ⟨true, [], (whoTable env s connfd).toList.map fun table => (connfd, table)⟩)
      else (some s, reply env connfd
        (ascii "Unknown or incomplete command <" ++ token ++ ascii ">"))

/-- A line for the others. -/
def State.chat (env : Env) (s : State) (connfd : Fd) (cli : Client) (received : Bytes) :
    Option State × Shown :=
  match nextToken 0 isLf (buffer received) 0 with
  | none => (none, ⟨false, [], []⟩)
  | some none => (some s, .nothing)
  | some (some (token, _)) => (some s, sendexp env s.cliinfo connfd (.user cli.name) token)

/-- `handle_client_input`, with what `read` returns: nothing at the end of a connection. -/
def State.handleClientInput (env : Env) (s : State) (connfd : Fd) (cli : Client)
    (received : Bytes) : Option State × Shown :=
  if received = [] then ((s.disconnect env connfd cli).1, (s.disconnect env connfd cli).2)
  else if received.head? = some (ch '/') then s.command env connfd cli received
  else s.chat env connfd cli received

/-! ## Runs -/

/-- What can happen next. -/
inductive Event where
  /-- A connection under a descriptor that is not in use; the name is a C string. -/
  | connect (env : Env) (connfd : Fd) (sock : SockAddr) (name : Bytes)
  /-- A read from a connection. -/
  | read (env : Env) (connfd : Fd) (received : Bytes)

/-- What an event does, as long as the server is there. -/
def next : Option State → Event → Option (Option State × Shown)
  | none, _ => none
  | some s, .connect env connfd sock name =>
      if connfd ∈ s.cliinfo ∨ 0 ∈ name then none
      else some (some (s.handleNewClient env connfd sock name).1,
        (s.handleNewClient env connfd sock name).2)
  | some s, .read env connfd received =>
      if received.length ≤ MAX_LINE then
        (s.cliinfo.lookup connfd).map fun cli => s.handleClientInput env connfd cli received
      else none

/-- The server and any number of clients. -/
def system : Machine (Option State) Event Shown := ⟨some State.initial, next⟩

/-! ## What a step does -/

/-- A string without line feed and NUL. -/
def IsLine (t : Bytes) : Prop := ∀ b ∈ t, inToken 0 isLf b = true

instance (t : Bytes) : Decidable (IsLine t) := List.decidableBAll _ t

theorem isLine_iff {t : Bytes} : IsLine t ↔ 0 ∉ t ∧ ch '\n' ∉ t := by
  constructor
  · intro h
    constructor
    · intro h0
      exact absurd (h _ h0) (by decide)
    · intro hlf
      exact absurd (h _ hlf) (by decide)
  · rintro ⟨h0, hlf⟩ b hb
    have hne : b ≠ 0 := fun heq => h0 (heq ▸ hb)
    have hne' : b ≠ ch '\n' := fun heq => hlf (heq ▸ hb)
    simp [inToken, isLf, hne, hne']

theorem isLine_append {t u : Bytes} : IsLine (t ++ u) ↔ IsLine t ∧ IsLine u :=
  List.forall_mem_append

section steps

variable {s s' : State} {env : Env} {connfd : Fd} {cli : Client} {received buf : Bytes}

/-- A token found by `strtok` at a line feed is a line. -/
theorem isLine_of_nextToken {p : ℕ} {token buf' : Bytes} (hp : p ≤ buf.length)
    (h : nextToken 0 isLf buf p = some (some (token, buf'))) : IsLine token := by
  rw [(eq_of_nextToken rfl hp h).1]
  exact fun b hb => List.mem_takeWhile_imp hb

theorem length_buffer (h : received.length ≤ MAX_LINE) : (buffer received).length = MAX_LINE := by
  rw [buffer, List.length_append, List.length_replicate]
  omega

/-- The zeros behind what has been received end a token, and are no part of it. -/
theorem firstToken_buffer {q : UInt8 → Bool} (hq : q 0 = false) {k : ℕ} (hk : k ≤ received.length) :
    firstToken 0 q ((buffer received).drop k) = firstToken 0 q (received.drop k) := by
  rw [buffer, List.drop_append_of_le_length hk]
  cases MAX_LINE - received.length with
  | zero => rw [List.replicate_zero, List.append_nil]
  | succ n => rw [List.replicate_succ, firstToken_append_nul hq]

/-- A command has no delimiters in front of its first word. -/
theorem takeWhile_slash (hslash : received.head? = some (ch '/')) :
    (buffer received).takeWhile isBlank = [] := by
  obtain ⟨rest, rfl⟩ : ∃ rest, received = ch '/' :: rest := by
    cases received with
    | nil => cases hslash
    | cons b rest =>
        cases hslash
        exact ⟨rest, rfl⟩
  rw [buffer, List.cons_append, List.takeWhile_cons_of_neg (by decide)]

/-- The name that a read asks for: if its first word is `/name` and more than seven bytes have been
received, what stands behind the sixth byte, up to a line feed. -/
def newName (received : Bytes) : Option Bytes :=
  if received.head? = some (ch '/') ∧ firstToken 0 isBlank received = ascii "/name" ∧
      7 < received.length then
    some (firstToken 0 isLf (received.drop 6))
  else none

theorem rename_cases (hbuf : 6 ≤ buf.length) (h : (s.rename env connfd cli buf).1 = some s') :
    ∃ name, name = firstToken 0 isLf (buf.drop 6) ∧ IsLine name ∧ s' = { s with
      cliinfo := Table.modify connfd (fun cli => { cli with name := name }) s.cliinfo } := by
  rw [State.rename] at h
  cases htoken : nextToken 0 isLf buf 6 with
  | none => simp [htoken] at h
  | some found =>
      cases found with
      | none => simp [htoken] at h
      | some token =>
          simp only [htoken, Option.some.injEq] at h
          exact ⟨token.1, (eq_of_nextToken rfl hbuf htoken).1, isLine_of_nextToken hbuf htoken,
            h.symm⟩

theorem command_cases (hlen : received.length ≤ MAX_LINE)
    (hslash : received.head? = some (ch '/'))
    (h : (s.command env connfd cli received).1 = some s') :
    (newName received = none ∧ s' = s) ∨
    ∃ name, newName received = some name ∧ IsLine name ∧ s' = { s with
      cliinfo := Table.modify connfd (fun cli => { cli with name := name }) s.cliinfo } := by
  rw [State.command] at h
  cases htoken : nextToken 0 isBlank (buffer received) 0 with
  | none => simp [htoken] at h
  | some found =>
      cases found with
      | none => simp [htoken] at h
      | some token =>
          obtain ⟨token, buf⟩ := token
          obtain ⟨rfl, rfl⟩ := eq_of_nextToken rfl (Nat.zero_le _) htoken
          have hfirst : firstToken 0 isBlank (buffer received) = firstToken 0 isBlank received :=
            firstToken_buffer rfl (Nat.zero_le _)
          simp only [htoken, List.drop_zero, hfirst, takeWhile_slash hslash] at h
          simp only [newName, hslash, true_and]
          split_ifs at h with hexit hname hwho
          · -- the call of `strtok` has only written behind the first word
            obtain ⟨name, htext, hline, hstate⟩ := rename_cases
              (by rw [List.length_set, length_buffer hlen, MAX_LINE]; omega) h
            rw [hname.1, List.drop_set_of_lt (by decide),
              firstToken_buffer rfl (by omega)] at htext
            exact Or.inr ⟨name, by rw [htext]; exact if_pos hname, hline, hstate⟩
          · exact Or.inl ⟨if_neg hname, (Option.some.inj h).symm⟩
          · exact Or.inl ⟨if_neg hname, (Option.some.inj h).symm⟩

theorem chat_cases (h : (s.chat env connfd cli received).1 = some s') : s' = s := by
  rw [State.chat] at h
  cases htoken : nextToken 0 isLf (buffer received) 0 with
  | none => simp [htoken] at h
  | some found =>
      cases found with
      | none =>
          simp only [htoken, Option.some.injEq] at h
          exact h.symm
      | some token =>
          simp only [htoken, Option.some.injEq] at h
          exact h.symm

/-- What a step can do to the variables of the server. -/
theorem next_cases {e : Event} {o : Shown} (h : next (some s) e = some (some s', o)) :
    (∃ env connfd sock name, e = .connect env connfd sock name ∧ connfd ∉ s.cliinfo ∧ 0 ∉ name ∧
      s' = (s.handleNewClient env connfd sock name).1) ∨
    (∃ env connfd cli, e = .read env connfd [] ∧ s.cliinfo.lookup connfd = some cli ∧
      s' = (s.disconnect env connfd cli).1) ∨
    (∃ env connfd received name, e = .read env connfd received ∧ received ≠ [] ∧
      newName received = some name ∧ IsLine name ∧ s' = { s with
        cliinfo := Table.modify connfd (fun cli => { cli with name := name }) s.cliinfo }) ∨
    ∃ env connfd received, e = .read env connfd received ∧ received ≠ [] ∧
      newName received = none ∧ s' = s := by
  cases e with
  | connect env connfd sock name =>
      simp only [next] at h
      split_ifs at h with hbusy
      rw [not_or] at hbusy
      simp only [Option.some.injEq, Prod.mk.injEq] at h
      exact Or.inl ⟨env, connfd, sock, name, rfl, hbusy.1, hbusy.2, h.1.symm⟩
  | read env connfd received =>
      simp only [next] at h
      split_ifs at h with hlen
      obtain ⟨cli, hcli, hstep⟩ := Option.map_eq_some_iff.mp h
      have hstate := congrArg Prod.fst hstep
      rw [State.handleClientInput] at hstate
      split_ifs at hstate with hempty hslash
      · subst hempty
        exact Or.inr (Or.inl ⟨env, connfd, cli, rfl, hcli, (Option.some.inj hstate).symm⟩)
      · rcases command_cases hlen hslash hstate with ⟨hold, heq⟩ | ⟨name, hnew, hname, heq⟩
        · exact Or.inr (Or.inr (Or.inr ⟨env, connfd, received, rfl, hempty, hold, heq⟩))
        · exact Or.inr (Or.inr (Or.inl
            ⟨env, connfd, received, name, rfl, hempty, hnew, hname, heq⟩))
      · have hold : newName received = none := if_neg fun hcommand => hslash hcommand.1
        exact Or.inr (Or.inr (Or.inr
          ⟨env, connfd, received, rfl, hempty, hold, chat_cases hstate⟩))

end steps

/-- The induction rule for the histories and states in which the server is there. -/
theorem run_there {C : Event → Prop} {I : List (Moment (Option State) Event Shown) → State → Prop}
    (hinit : I [] State.initial)
    (hnext : ∀ past s e s' o, I past s → C e → next (some s) e = some (some s', o) →
      I (⟨some s, e, o⟩ :: past) s')
    {past : List (Moment (Option State) Event Shown)} {s : State}
    (hrun : Run system past (some s)) (hC : ∀ m ∈ past, C m.event) : I past s := by
  have hinv : ∀ t, some s = some t → I past t := by
    refine hrun.history_invariant (C := fun _ e => C e)
      (I := fun past s => ∀ t, s = some t → I past t) ?_ ?_ hC
    · intro t ht
      cases ht
      exact hinit
    · rintro past (_ | s) e s' o - h he hs t rfl
      · cases hs
      · exact hnext past s e t o (h s rfl) he hs
  exact hinv s rfl

/-! ## The clients of a run -/

/-- The client of a descriptor after some events, the last one first: from when it has connected
until nothing is read from it, with the name it has asked for last. -/
def clientOf : List Event → Fd → Option Client
  | [], _ => none
  | .connect _ connfd sock name :: past, fd =>
      if fd = connfd then some ⟨name, sockInfo sock⟩ else clientOf past fd
  | .read _ connfd received :: past, fd =>
      if fd = connfd then
        if received = [] then none
        else (clientOf past fd).map fun cli => { cli with name := (newName received).getD cli.name }
      else clientOf past fd

/-- A step does to the map what its event does to the clients. -/
theorem clientOf_next {s s' : State} {e : Event} {o : Shown} {past : List Event}
    (h : ∀ fd, s.cliinfo.lookup fd = clientOf past fd)
    (hs : next (some s) e = some (some s', o)) (fd : Fd) :
    s'.cliinfo.lookup fd = clientOf (e :: past) fd := by
  rcases next_cases hs with ⟨env, connfd, sock, name, rfl, -, -, rfl⟩ |
    ⟨env, connfd, cli, rfl, -, rfl⟩ | ⟨env, connfd, received, name, rfl, hne, hnew, -, rfl⟩ |
    ⟨env, connfd, received, rfl, hne, hold, rfl⟩
  · show (s.cliinfo.insert connfd ⟨name, sockInfo sock⟩).lookup fd = _
    rw [clientOf]
    split_ifs with hfd
    · rw [hfd, AList.lookup_insert]
    · rw [AList.lookup_insert_ne hfd, h]
  · show (s.cliinfo.erase connfd).lookup fd = _
    rw [clientOf, Table.lookup_erase', if_pos rfl, h]
  · rw [clientOf, Table.lookup_modify, if_neg hne, hnew, h]
    rfl
  · rw [clientOf, if_neg hne, hold, h]
    split_ifs
    · cases clientOf past fd <;> rfl
    · rfl

/-- In every run the map holds the clients that the events have left, with their current names. -/
theorem clientOf_run {past : List (Moment (Option State) Event Shown)} {s : State}
    (hrun : Run system past (some s)) (fd : Fd) :
    s.cliinfo.lookup fd = clientOf (past.map Moment.event) fd := by
  refine run_there (C := fun _ => True)
    (I := fun past s => ∀ fd, s.cliinfo.lookup fd = clientOf (past.map Moment.event) fd)
    (fun fd => rfl) ?_ hrun (fun _ _ => trivial) fd
  intro past s e s' o h _ hs
  exact clientOf_next h hs

/-! ## Invariants -/

/-- `clicnt` is the number of clients. -/
def Counted (s : State) : Prop := s.clicnt = s.cliinfo.entries.length

theorem counted_next {s s' : State} {e : Event} {o : Shown} (h : Counted s)
    (hs : next (some s) e = some (some s', o)) : Counted s' := by
  rw [Counted] at h ⊢
  rcases next_cases hs with ⟨env, connfd, sock, name, -, hfree, -, rfl⟩ |
    ⟨env, connfd, cli, -, hcli, rfl⟩ | ⟨env, connfd, received, name, -, -, -, -, rfl⟩ |
    ⟨env, connfd, received, -, -, -, rfl⟩
  · show s.clicnt + 1 = ((s.cliinfo.insert connfd ⟨name, sockInfo sock⟩).entries.length : ℤ)
    rw [Table.length_insert hfree, h]
    rfl
  · show s.clicnt - 1 = ((s.cliinfo.erase connfd).entries.length : ℤ)
    have hlen := Table.length_erase hcli
    omega
  · rw [Table.length_modify]
    exact h
  · exact h

/-- In every run the number of clients is the size of the map. -/
theorem counted_run {past : List (Moment (Option State) Event Shown)} {s : State}
    (hrun : Run system past (some s)) : Counted s := by
  refine run_there (C := fun _ => True) (I := fun _ s => Counted s) rfl ?_ hrun fun _ _ => trivial
  intro past s e s' o h _ hs
  exact counted_next h hs

/-- The strings of a client can stand in a row of the table. -/
structure Client.Printable (cli : Client) : Prop where
  /-- The name is a line. -/
  name : IsLine cli.name
  /-- So is the address. -/
  info : IsLine cli.info
  /-- The address fits its column. -/
  short : cli.info.length ≤ 21

/-- The strings of all clients can. -/
def Printable (s : State) : Prop :=
  ∀ fd cli, s.cliinfo.lookup fd = some cli → cli.Printable

theorem length_dec_le {n k : ℕ} (hk : 0 < k) (h : n < 10 ^ k) : (dec n).length ≤ k := by
  rw [dec, List.length_map]
  exact (Nat.length_toDigits_le_iff (by omega) hk).mpr h

theorem isLine_dec (n : ℕ) : IsLine (dec n) := by
  rw [isLine_iff]
  constructor
  · intro h0
    exact absurd (isDigit_of_mem_dec h0) (by decide)
  · intro hlf
    exact absurd (isDigit_of_mem_dec hlf) (by decide)

/-- An address has at most 21 characters. -/
theorem length_sockInfo_le (sock : SockAddr) : (sockInfo sock).length ≤ 21 := by
  obtain ⟨⟨a, b, c, d⟩, port⟩ := sock
  have hbyte : ∀ b : UInt8, (dec b.toNat).length ≤ 3 := fun b =>
    length_dec_le (by omega) (lt_trans b.toNat_lt (by omega))
  have hport : (dec port.toNat).length ≤ 5 :=
    length_dec_le (by omega) (lt_trans port.toNat_lt (by omega))
  have ha := hbyte a
  have hb := hbyte b
  have hc := hbyte c
  have hd := hbyte d
  have hdot : (ascii ".").length = 1 := rfl
  have hcolon : (ascii ":").length = 1 := rfl
  simp only [sockInfo, List.length_append, hdot, hcolon]
  omega

theorem isLine_sockInfo (sock : SockAddr) : IsLine (sockInfo sock) := by
  have hdot : IsLine (ascii ".") := by decide
  have hcolon : IsLine (ascii ":") := by decide
  simp only [sockInfo, isLine_append, isLine_dec, hdot, hcolon, and_self]

/-- A name given to a new client is a line. -/
def LineName : Event → Prop
  | .connect _ _ _ name => ch '\n' ∉ name
  | .read _ _ _ => True

instance (e : Event) : Decidable (LineName e) :=
  match e with
  | .connect _ _ _ name => inferInstanceAs (Decidable (ch '\n' ∉ name))
  | .read _ _ _ => isTrue trivial

theorem printable_next {s s' : State} {e : Event} {o : Shown} (h : Printable s) (he : LineName e)
    (hs : next (some s) e = some (some s', o)) : Printable s' := by
  rcases next_cases hs with ⟨env, connfd, sock, name, rfl, -, hnul, rfl⟩ |
    ⟨env, connfd, cli, -, -, rfl⟩ | ⟨env, connfd, received, name, -, -, -, hname, rfl⟩ |
    ⟨env, connfd, received, -, -, -, rfl⟩
  · intro fd cli hcli
    have hlook : (s.cliinfo.insert connfd ⟨name, sockInfo sock⟩).lookup fd = some cli := hcli
    by_cases hfd : fd = connfd
    · subst hfd
      rw [AList.lookup_insert, Option.some.injEq] at hlook
      rw [← hlook]
      exact ⟨isLine_iff.mpr ⟨hnul, he⟩, isLine_sockInfo sock, length_sockInfo_le sock⟩
    · rw [AList.lookup_insert_ne hfd] at hlook
      exact h fd cli hlook
  · intro fd cli' hcli
    have hlook : (s.cliinfo.erase connfd).lookup fd = some cli' := hcli
    rw [Table.lookup_erase'] at hlook
    split_ifs at hlook
    exact h fd cli' hlook
  · intro fd cli hcli
    rw [Table.lookup_modify] at hcli
    split_ifs at hcli
    · obtain ⟨old, hold, rfl⟩ := Option.map_eq_some_iff.mp hcli
      exact { h fd old hold with name := hname }
    · exact h fd cli hcli
  · exact h

/-- In every run in which new clients have lines for names, all names and addresses are lines, and
the addresses are short. -/
theorem printable_run {past : List (Moment (Option State) Event Shown)} {s : State}
    (hrun : Run system past (some s)) (hC : ∀ m ∈ past, LineName m.event) : Printable s := by
  refine run_there (C := LineName) (I := fun _ s => Printable s) ?_ ?_ hrun hC
  · intro fd cli hcli
    cases hcli
  · intro past s e s' o h he hs
    exact printable_next h he hs

end Chat
