/-
# The commands that only ask

`NAMES`, `LIST`, `USERS`, `PING`, `PRIVMSG`, and `TOPIC` with one parameter, are there to ask for
something or to pass a message on.  All of them but `NAMES` look for a channel before they call
`getchannel`, which creates what it does not find.

* `Query` : these commands;
* `Keeps` : a program that returns or throws with the database as it was;
* `Answers` : what `NAMES` needs for that;
* `query_unchanged_iff` : when a query of a registered client leaves the database unchanged.
-/
import IntroNP.MircdDispatch
import IntroNP.MircdMembership

namespace Mircd

open Machine

/-! ## Queries -/

/-- The commands that only ask, with their parameters. -/
inductive Query : Bytes → List Bytes → Prop
  | names (args : List Bytes) : Query (ascii "NAMES") args
  | list (args : List Bytes) : Query (ascii "LIST") args
  | users (args : List Bytes) : Query (ascii "USERS") args
  | ping (args : List Bytes) : Query (ascii "PING") args
  | privmsg (args : List Bytes) : Query (ascii "PRIVMSG") args
  | topic (name : Bytes) : Query (ascii "TOPIC") [name]

/-- The references of a channel all stand for clients that are there. -/
def Database.Live (db : Database) (channel : Channel) : Prop :=
  ∀ ref ∈ Table.values channel.users, (db.deref ref).isSome

/-- What `NAMES` needs: without a name, that the users of every channel are there; with the name
of a channel, that the users of this one are; with any other name, that no channel can have it. -/
def Database.CanName (db : Database) : List Bytes → Prop
  | [] => ∀ channel ∈ Table.values db.channels, db.Live channel
  | name :: _ => match db.channels.lookup name with
    | some channel => db.Live channel
    | none => Channel.accepts name = false

/-- What a query needs. -/
def Database.Answers (db : Database) (cmd : Bytes) (args : List Bytes) : Prop :=
  cmd = ascii "NAMES" → db.CanName args

/-! ## What the handlers do to the database -/

/-- The program returns or throws, with the database as it was. -/
def Keeps (db : Database) (m : M PUnit) : Prop :=
  Ends m ⟨db, []⟩ (fun _ w => w.db = db) (fun e w => e ≠ .undefined ∧ w.db = db)

/-- `getusers` reads through every reference of the channel. -/
theorem getusers_isSome {db : Database} {channel : Channel} :
    (db.getusers channel).isSome ↔ db.Live channel := by
  rw [Database.Live, ← mapM_isSome, Database.getusers]
  cases (Table.values channel.users).mapM db.deref with
  | none => simp
  | some users => cases users <;> simp

section handlers

variable {db : Database} {fd : Fd} {client : Client}

theorem list_keeps (hclient : db.clients.lookup fd = some client) (args : List Bytes) :
    Keeps db (list fd args) := by
  simp [Keeps, list, getuser, sendcmds, hclient]

theorem users_keeps (args : List Bytes) : Keeps db (users fd args) := by
  simp [Keeps, users, sendcmds]

theorem ping_keeps (args : List Bytes) : Keeps db (ping fd args) := by
  cases args with
  | nil => simp [Keeps, ping]
  | cons _ _ => simp [Keeps, ping]

theorem privmsg_keeps (hclient : db.clients.lookup fd = some client) (args : List Bytes) :
    Keeps db (privmsg fd args) := by
  rcases args with _ | ⟨name, _ | ⟨text, rest⟩⟩
  · simp [Keeps, privmsg]
  · simp [Keeps, privmsg]
  · cases hname : db.channels.lookup name <;>
      simp [Keeps, privmsg, getuser, broadcast, hclient, hname]

theorem topic_keeps (hclient : db.clients.lookup fd = some client) (name : Bytes) :
    Keeps db (topic fd [name]) := by
  cases hname : db.channels.lookup name with
  | none =>
      have hmem : name ∉ db.channels := AList.lookup_eq_none.mp hname
      simp [Keeps, topic, arg, hmem]
  | some channel =>
      simp [Keeps, topic, arg, getuser, readChannel, sendcmd, sendcmds, hclient, hname]

/-- `names` keeps the database exactly when it needs to create nothing and finds all users. -/
theorem names_keeps_iff (hclient : db.clients.lookup fd = some client) (args : List Bytes) :
    Keeps db (names fd args) ↔ db.CanName args := by
  cases args with
  | nil =>
      have hall : (∀ channel ∈ Table.values db.channels, db.Live channel)
          ↔ ((Table.values db.channels).mapM db.getusers).isSome := by
        rw [mapM_isSome]
        simp only [getusers_isSome]
      rw [Database.CanName, hall]
      cases houts : (Table.values db.channels).mapM db.getusers <;>
        simp [Keeps, names, getuser, sendcmds, hclient, houts]
  | cons name rest =>
      rw [Database.CanName]
      cases hname : db.channels.lookup name with
      | some channel =>
          have hmem : name ∈ db.channels := Table.mem_of_lookup hname
          dsimp only
          rw [← getusers_isSome]
          cases hout : db.getusers channel <;>
            simp [Keeps, names, getuser, readChannel, sendcmds, hclient, getchannel_of_mem hmem,
              World.update, hname, hout]
      | none =>
          have hmem : name ∉ db.channels := AList.lookup_eq_none.mp hname
          cases haccept : Channel.accepts name with
          | false =>
              have hnone : db.getchannel name = none := by
                rw [Database.getchannel, if_neg hmem, dif_neg (by simp [haccept])]
              simp [Keeps, names, getuser, hclient, hnone]
          | true =>
              obtain ⟨db', hget⟩ : ∃ db', db.getchannel name = some db' := by
                rw [Database.getchannel, if_neg hmem, dif_pos haccept]
                exact ⟨_, rfl⟩
              obtain ⟨channel, hchannel, -, husers⟩ := (lookup_getchannel hget name).2 hmem
              have hout : (db'.getusers channel).isSome := by
                rw [getusers_isSome, Database.Live, husers]
                exact List.forall_mem_nil _
              obtain ⟨out, hout⟩ := Option.isSome_iff_exists.mp hout
              -- the new channel has no users, and stays
              refine iff_of_false (fun hkeeps => ?_) (by simp)
              have hsame : db' = db := by
                simpa [Keeps, names, getuser, readChannel, sendcmds, hclient, hget, World.update,
                  (getchannel_frame hget).1, hchannel, hout] using hkeeps
              rw [hsame] at hget
              exact hmem (mem_getchannel hget)

end handlers

/-! ## Queries of a registered client -/

/-- A step that shows something and leaves the database as it was. -/
theorem runCall_same_iff {db : Database} {fd : Fd} {argv : List Bytes} :
    (∃ shown, runCall db fd argv = some (db, shown)) ↔ Keeps db (call fd argv) := by
  rw [runCall, Keeps, Ends]
  cases hcall : call fd argv ⟨db, []⟩ with
  | ok _ w => simp
  | error e w => cases e <;> simp

/-- `call` only runs the handler, for a registered client and a command with enough parameters. -/
theorem keeps_call_iff {db : Database} {fd : Fd} {client : Client}
    (hclient : db.clients.lookup fd = some client) (hreg : client.hasRegist = true) {cmd : Bytes}
    {item : CmdItem} (hitem : cmds.lookup cmd = some item) {args : List Bytes}
    (hparm : item.parmMin ≤ args.length) :
    Keeps db (call fd (cmd :: args)) ↔ Keeps db (item.fp fd args) := by
  have hfew : ¬ args.length < item.parmMin := Nat.not_lt.mpr hparm
  simp [Keeps, call, getuser, hitem, hclient, hreg, hfew]

/-- A query of a registered client ends with the database as it was if and only if it is no
`NAMES`, or finds all users, of the named channel or of all of them, and creates no channel. -/
theorem query_unchanged_iff {db : Database} {fd : Fd} {client : Client}
    (hclient : db.clients.lookup fd = some client) (hreg : client.hasRegist = true)
    {cmd : Bytes} {args : List Bytes} (hquery : Query cmd args) :
    (∃ shown, next db (.call fd (cmd :: args)) = some (db, shown)) ↔ db.Answers cmd args := by
  have hconn : fd ∈ db.clients := Table.mem_of_lookup hclient
  rw [next, if_pos hconn, runCall_same_iff, Database.Answers]
  cases hquery with
  | names =>
      have hitem : cmds.lookup (ascii "NAMES") = some ⟨0, names⟩ := rfl
      rw [keeps_call_iff hclient hreg hitem (Nat.zero_le _), names_keeps_iff hclient]
      exact ⟨fun h _ => h, fun h => h rfl⟩
  | list =>
      have hitem : cmds.lookup (ascii "LIST") = some ⟨0, list⟩ := rfl
      rw [keeps_call_iff hclient hreg hitem (Nat.zero_le _)]
      exact iff_of_true (list_keeps hclient args) fun h => absurd h (by decide)
  | users =>
      have hitem : cmds.lookup (ascii "USERS") = some ⟨0, users⟩ := rfl
      rw [keeps_call_iff hclient hreg hitem (Nat.zero_le _)]
      exact iff_of_true (users_keeps args) fun h => absurd h (by decide)
  | ping =>
      have hitem : cmds.lookup (ascii "PING") = some ⟨0, ping⟩ := rfl
      rw [keeps_call_iff hclient hreg hitem (Nat.zero_le _)]
      exact iff_of_true (ping_keeps args) fun h => absurd h (by decide)
  | privmsg =>
      have hitem : cmds.lookup (ascii "PRIVMSG") = some ⟨0, privmsg⟩ := rfl
      rw [keeps_call_iff hclient hreg hitem (Nat.zero_le _)]
      exact iff_of_true (privmsg_keeps hclient args) fun h => absurd h (by decide)
  | topic name =>
      have hitem : cmds.lookup (ascii "TOPIC") = some ⟨1, topic⟩ := rfl
      rw [keeps_call_iff hclient hreg hitem (Nat.le_refl _)]
      exact iff_of_true (topic_keeps hclient name) fun h => absurd h (by decide)

/-- A registered client asks for the names of a channel that is there. -/
theorem query_unchanged_iff_joined : ∃ past db, Run system past db ∧
    ((∃ shown, next db (.call 4 [ascii "NAMES", ascii "#c"]) = some (db, shown)) ↔
      db.Answers (ascii "NAMES") [ascii "#c"]) := by
  obtain ⟨past, db, hrun, htest⟩ := exists_run_of_replay system
    (register 4 "alice" ++ [.call 4 [ascii "JOIN", ascii "#c"]])
    (fun r => (r.2.clients.lookup 4).any Client.hasRegist) (by decide +kernel)
  obtain ⟨client, hclient, hreg⟩ := Option.any_eq_true _ _ |>.mp htest
  exact ⟨past, db, hrun, query_unchanged_iff hclient hreg (.names [ascii "#c"])⟩

/-- A registered client asks for the names of a channel that does not exist, and it exists. -/
theorem names_creates_channel : ∃ past db, Run system past db ∧
    (∃ client, db.clients.lookup 4 = some client ∧ client.hasRegist = true) ∧
    Query (ascii "NAMES") [ascii "#c"] ∧ ascii "#c" ∉ db.channels ∧
    ∃ db' shown, next db (.call 4 [ascii "NAMES", ascii "#c"]) = some (db', shown) ∧
      ascii "#c" ∈ db'.channels := by
  obtain ⟨past, db, hrun, htest⟩ := exists_run_of_replay system (register 4 "alice")
    (fun r => (r.2.clients.lookup 4).any Client.hasRegist
      && decide (ascii "#c" ∉ r.2.channels)
      && (next r.2 (.call 4 [ascii "NAMES", ascii "#c"])).any fun r' : Database × Shown =>
        decide (ascii "#c" ∈ r'.1.channels)) (by decide +kernel)
  simp only [Bool.and_eq_true, Option.any_eq_true, decide_eq_true_eq] at htest
  obtain ⟨⟨⟨client, hclient, hreg⟩, hnew⟩, ⟨db', shown⟩, hnext, hmem⟩ := htest
  exact ⟨past, db, hrun, ⟨client, hclient, hreg⟩, .names _, hnew, db', shown, hnext, hmem⟩

end Mircd
