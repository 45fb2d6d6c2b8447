/-
# What the server keeps of its clients' words, and what it says

Text of a client is kept as a nickname, a user field, a channel name or a topic, and comes out again
in messages to other clients.  One walk through the handlers says where everything that they send
is taken from, for any specification of the clients, nicknames and channels of the database that
their changes keep.

* `Spec`, `Spec.Db`, `Spec.Closed` : a specification, and what the changes must keep of it;
* `Says`, `Errs` : the messages that a handler can send, and the errors it can throw;
* `cmds_kept`, `runLine_kept` : the walk, for the handlers and for a line;
* `serving_run` : every run keeps a specification, and what is sent for a line meets another one,
  which may depend on the database when the line is handled.
-/
import IntroNP.MircdServer

namespace Mircd

open Machine

/-! ## Specifications of the database -/

/-- What is said of each client, of each key of the nickname table, and of each channel with its
key. -/
structure Spec where
  client : Client → Prop
  nick : Bytes → Prop
  channel : Bytes → Channel → Prop

/-- The database meets the specification. -/
structure Spec.Db (S : Spec) (db : Database) : Prop where
  clients : ∀ fd cl, db.clients.lookup fd = some cl → S.client cl
  nicks : ∀ n ∈ db.nickMp, S.nick n
  channels : ∀ n c, db.channels.lookup n = some c → S.channel n c

/-- The changes that a command makes keep the specification. -/
structure Spec.Closed (S : Spec) (cmd : Bytes) (args : List Bytes) : Prop where
  nick : cmd = ascii "NICK" → ∀ n ∈ args.head?, S.nick n
  setNick : cmd = ascii "NICK" → ∀ n ∈ args.head?, validNick n = true → ∀ cl,
    S.client cl → S.client (cl.setNick n)
  setUser : ∀ a ∈ args, ∀ b ∈ args, ∀ c ∈ args, ∀ d ∈ args, ∀ cl,
    S.client cl → S.client (cl.setUser a b c d)
  create : cmd = ascii "JOIN" ∨ cmd = ascii "NAMES" → ∀ n ∈ args.head?, ∀ h,
    S.channel n ⟨n, [], ∅, h⟩
  join : ∀ n ∈ args.head?, ∀ cl, S.client cl → S.client (cl.join n)
  part : ∀ n cl, S.client cl → S.client (cl.part n)
  regist : ∀ cl, S.client cl → S.client cl.regist
  addUser : ∀ fd ref n c, S.channel n c → S.channel n (c.addUser fd ref)
  delUser : ∀ fd n c, S.channel n c → S.channel n (c.delUser fd)
  setTopic : ∀ t ∈ args, ∀ n c, S.channel n c → S.channel n (c.setTopic t)

/-- The messages that a command with these arguments can send, with the nickname they are rendered
with. -/
inductive Says (S : Spec) (cmd : Bytes) (args : List Bytes) : CmdMsg → Bytes → Prop
  | nick {n cl} (hcmd : cmd = ascii "NICK") (hn : n ∈ args.head?) (hvalid : validNick n = true)
      (hcl : S.client cl) (hnick : cl.hasNick = true) :
      Says S cmd args (.ofText "NICK" [n]) cl.nickname
  | join {n c cl} (hcmd : cmd = ascii "JOIN") (hc : S.channel n c) (hcl : S.client cl) :
      Says S cmd args (.ofText "JOIN" [n]) cl.nickname
  | part {n c cl msg} (hcmd : cmd = ascii "PART") (hc : S.channel n c) (hcl : S.client cl)
      (hmsg : msg ∈ args ∨ msg = Channel.defaultPartMsg) :
      Says S cmd args (.ofText "PART" [n, msg]) cl.nickname
  | topic {n c cl t} (hcmd : cmd = ascii "TOPIC") (hc : S.channel n c) (hcl : S.client cl)
      (ht : t ∈ args) : Says S cmd args (.ofText "TOPIC" [n, t]) cl.nickname
  | privmsg {n c cl t} (hcmd : cmd = ascii "PRIVMSG") (hc : S.channel n c) (hcl : S.client cl)
      (ht : t ∈ args) : Says S cmd args (.ofText "PRIVMSG" [n, t]) cl.nickname
  | gettopic {n c cl} (hcmd : cmd = ascii "TOPIC") (hc : S.channel n c) (hcl : S.client cl) :
      Says S cmd args c.gettopic cl.nickname
  /-- After a `JOIN` the name of the channel is in the place of the nickname. -/
  | joinTopic {n c} (hcmd : cmd = ascii "JOIN") (hc : S.channel n c) : Says S cmd args c.gettopic n
  | namreply {n c cl} {users : List Client} (hcmd : cmd = ascii "JOIN" ∨ cmd = ascii "NAMES")
      (hc : S.channel n c) (hcl : S.client cl) (husers : ∀ u ∈ users, S.client u) :
      Says S cmd args (.ofRPL .NAMREPLY [c.name, usersstr (users.map Client.nickname)]) cl.nickname
  | endOfNames {n c cl} (hcmd : cmd = ascii "JOIN" ∨ cmd = ascii "NAMES") (hc : S.channel n c)
      (hcl : S.client cl) :
      Says S cmd args (.ofRPL .ENDOFNAMES [c.name, ascii "End of /NAMES list"]) cl.nickname
  | listStart {cl} (hcmd : cmd = ascii "LIST") (hcl : S.client cl) :
      Says S cmd args (.ofRPL .LISTSTART [ascii "Channel :Users  Name"]) cl.nickname
  | listRow {n c cl} (hcmd : cmd = ascii "LIST") (hc : S.channel n c) (hcl : S.client cl) :
      Says S cmd args (listRow c) cl.nickname
  | listEnd {cl} (hcmd : cmd = ascii "LIST") (hcl : S.client cl) :
      Says S cmd args (.ofRPL .LISTEND [ascii "End of LIST"]) cl.nickname
  | usersStart (hcmd : cmd = ascii "USERS") (mxname : ℕ) : Says S cmd args (.ofRPL .USERSSTART
      [usersRow mxname (ascii "UserID") (ascii "Terminal") (ascii "Host")]) []
  | users {cl} (hcmd : cmd = ascii "USERS") (mxname : ℕ) (hcl : S.client cl) :
      Says S cmd args (.ofRPL .USERS [usersRow mxname cl.nickname (ascii "-") cl.host]) []
  | welcome {m cl} (hm : m ∈ welcomeCmds) (hcl : S.client cl) : Says S cmd args m cl.nickname

/-- A string that a command with these arguments can send. -/
def Said (S : Spec) (cmd : Bytes) (args : List Bytes) (s : Bytes) : Prop :=
  cmd = ascii "PING" ∧ s = ascii "PONG\n" ∨
    ∃ msgs nick, s = sendcmdsStr msgs nick ∧ ∀ m ∈ msgs, Says S cmd args m nick

/-- The error replies to a line: a text, perhaps behind a word of the line. -/
inductive Errs (argv : List Bytes) : CmdMsg → Prop
  | text (e : ERR) (text : String) (htext : IsText (ascii text)) :
      Errs argv (.ofERR e [ascii text])
  | echo (e : ERR) {x : Bytes} (text : String) (hx : x ∈ argv)
      (htext : IsText (ascii text)) : Errs argv (.ofERR e [x, ascii text])

/-! ## Changes -/

namespace Spec.Db

variable {S : Spec} {db : Database} (h : S.Db db)
include h

theorem setClient {f : Client → Client} (hf : ∀ cl, S.client cl → S.client (f cl)) (fd : Fd) :
    S.Db (db.setClient fd f) where
  clients := by
    intro f' cl hcl
    rw [lookup_setClient] at hcl
    split_ifs at hcl with hfd
    · obtain ⟨cl₀, hcl₀, rfl⟩ := Option.map_eq_some_iff.mp hcl
      exact hf cl₀ (h.clients f' cl₀ hcl₀)
    · exact h.clients f' cl hcl
  nicks := h.nicks
  channels := h.channels

theorem setChannel {f : Channel → Channel} (hf : ∀ n c, S.channel n c → S.channel n (f c))
    (name : Bytes) : S.Db (db.setChannel name f) where
  clients := h.clients
  nicks := h.nicks
  channels := by
    intro n c hc
    rw [lookup_setChannel] at hc
    split_ifs at hc with hn
    · obtain ⟨c₀, hc₀, rfl⟩ := Option.map_eq_some_iff.mp hc
      exact hf n c₀ (h.channels n c₀ hc₀)
    · exact h.channels n c hc

theorem rename {n : Bytes} (hn : S.nick n) (fd : Fd) (client : Client) :
    S.Db (db.rename fd client n) where
  clients := h.clients
  nicks := by
    intro m hm
    have hold : ∀ t : Table Bytes ClientRef, m ∈ Table.emplace n ⟨fd, client.id⟩ t →
        m = n ∨ m ∈ t := by
      intro t hmem
      rw [Table.emplace] at hmem
      split_ifs at hmem
      · exact Or.inr hmem
      · exact (AList.mem_insert t).mp hmem
    rcases hold _ hm with rfl | hm
    · exact hn
    · split_ifs at hm
      · exact h.nicks m (AList.mem_erase.mp hm).2
      · exact h.nicks m hm
  channels := h.channels

theorem getchannel {name : Bytes} {db' : Database} (hcreate : ∀ h, S.channel name ⟨name, [], ∅, h⟩)
    (hdb : db.getchannel name = some db') : S.Db db' := by
  unfold Database.getchannel at hdb
  split_ifs at hdb with hin haccept
  · cases hdb
    exact h
  · cases hdb
    refine ⟨h.clients, h.nicks, fun n c hc => ?_⟩
    by_cases hn : n = name
    · subst hn
      rw [AList.lookup_insert] at hc
      cases hc
      exact hcreate haccept
    · rw [AList.lookup_insert_ne hn] at hc
      exact h.channels n c hc

theorem clientAdd {fd : Fd} {info host : Bytes} (hfree : fd ∉ db.clients)
    (hnew : S.client (Client.new db.created info host)) : S.Db (db.clientAdd fd info host) where
  clients := by
    intro f cl hcl
    rw [lookup_clientAdd hfree] at hcl
    split_ifs at hcl
    · cases hcl
      exact hnew
    · exact h.clients f cl hcl
  nicks := h.nicks
  channels := h.channels

theorem clientDel (fd : Fd) : S.Db (db.clientDel fd) where
  clients := by
    intro f cl hcl
    rw [lookup_clientDel] at hcl
    split_ifs at hcl
    exact h.clients f cl hcl
  nicks := by
    unfold Database.clientDel
    cases db.clients.lookup fd with
    | none => exact h.nicks
    | some client => exact fun n hn => h.nicks n (AList.mem_erase.mp hn).2
  channels := by
    unfold Database.clientDel
    cases db.clients.lookup fd with
    | none => exact h.channels
    | some client => exact h.channels

/-- The clients that are read through references. -/
theorem deref {ref : ClientRef} {cl : Client} (hcl : db.deref ref = some cl) : S.client cl :=
  h.clients ref.fd cl (Option.filter_eq_some_iff.mp hcl).1

end Spec.Db

/-! ## Programs -/

/-- The database meets the specification, and what has been sent is what the arguments allow. -/
def Spec.Meets (S : Spec) (cmd : Bytes) (args : List Bytes) (w : World) : Prop :=
  S.Db w.db ∧ ∀ s ∈ w.sent, Said S cmd args s.2

/-- An error reply that is thrown is one to the line. -/
def Throws (argv : List Bytes) (e : Exn) : Prop := ∀ msg, e = .cmdMsg msg → Errs argv msg

/-- A program of the command `cmd` with the arguments `args` that keeps the specification, says
what it may, and throws what it may. -/
abbrev Kept (S : Spec) (cmd : Bytes) (args : List Bytes) {α : Type} (m : M α) (R : α → Prop) :
    Prop :=
  Maintains (S.Meets cmd args) (Throws (cmd :: args)) m R

section rules

variable {S : Spec} {cmd : Bytes} {args : List Bytes} {α : Type}

theorem kept_orUndefined (o : Option α) : Kept S cmd args (orUndefined o) fun a => o = some a := by
  cases o with
  | none => exact maintains_throw (by rintro msg ⟨⟩)
  | some a => exact maintains_pure rfl

theorem kept_throwText {R : α → Prop} (e : ERR) {text : String}
    (htext : IsText (ascii text)) :
    Kept S cmd args (throwErr e [ascii text]) R :=
  maintains_throw (by rintro msg ⟨⟩; exact .text e text htext)

theorem kept_throwEcho {R : α → Prop} (e : ERR) {x : Bytes} {text : String} (hx : x ∈ cmd :: args)
    (htext : IsText (ascii text)) :
    Kept S cmd args (throwErr e [x, ascii text]) R :=
  maintains_throw (by rintro msg ⟨⟩; exact .echo e text hx htext)

theorem kept_update {f : Database → Database} (h : ∀ db, S.Db db → S.Db (f db)) :
    Kept S cmd args (update f) fun _ => True :=
  maintains_modify fun _ hw => ⟨h _ hw.1, hw.2⟩

theorem kept_send {out : List Sent} (h : ∀ s ∈ out, Said S cmd args s.2) :
    Kept S cmd args (send out) fun _ => True := by
  refine maintains_modify fun w hw => ⟨hw.1, fun s hs => ?_⟩
  rcases List.mem_append.mp hs with hs | hs
  · exact hw.2 s hs
  · exact h s hs

theorem kept_sendcmds {msgs : List CmdMsg} {nick : Bytes} (h : ∀ m ∈ msgs, Says S cmd args m nick)
    (fd : Fd) : Kept S cmd args (sendcmds fd msgs nick) fun _ => True := by
  refine kept_send fun s hs => ?_
  rw [List.mem_singleton.mp hs]
  exact Or.inr ⟨msgs, nick, rfl, h⟩

theorem kept_sendcmd {msg : CmdMsg} {nick : Bytes} (h : Says S cmd args msg nick) (fd : Fd) :
    Kept S cmd args (sendcmd fd msg nick) fun _ => True :=
  kept_sendcmds (List.forall_mem_singleton.mpr h) fd

theorem kept_broadcast {msg : CmdMsg} {nick : Bytes} (h : Says S cmd args msg nick)
    (fds : List Fd) : Kept S cmd args (broadcast fds msg nick) fun _ => True := by
  refine kept_send fun s hs => ?_
  obtain ⟨fd, -, rfl⟩ := List.mem_map.mp hs
  exact Or.inr ⟨[msg], nick, rfl, List.forall_mem_singleton.mpr h⟩

/-- A read of the database. -/
theorem kept_get : Kept S cmd args get fun w : World => S.Db w.db :=
  maintains_get.mono fun _ hw => hw.1

theorem kept_getuser (fd : Fd) : Kept S cmd args (getuser fd) S.client :=
  kept_get.bind fun _ hw => (kept_orUndefined _).mono fun _ hcl => hw.clients _ _ hcl

theorem kept_readChannel (name : Bytes) :
    Kept S cmd args (readChannel name) (S.channel name) :=
  kept_get.bind fun _ hw => (kept_orUndefined _).mono fun _ hc => hw.channels _ _ hc

theorem kept_getchannel {name : Bytes} (hname : name ∈ args)
    (hcreate : ∀ h, S.channel name ⟨name, [], ∅, h⟩) :
    Kept S cmd args (getchannel name) fun _ => True := by
  refine kept_get.bind fun w hw => ?_
  cases hdb : w.db.getchannel name with
  | none => exact kept_throwEcho _ (List.mem_cons_of_mem _ hname) (by decide)
  | some db => exact kept_update fun _ _ => hw.getchannel hcreate hdb

/-- The arguments. -/
theorem kept_arg (i : ℕ) : Kept S cmd args (arg args i) fun a => args[i]? = some a :=
  kept_orUndefined _

/-- The users of a channel. -/
theorem says_getusers (hcmd : cmd = ascii "JOIN" ∨ cmd = ascii "NAMES") {db : Database}
    (hdb : S.Db db) {n : Bytes} {c : Channel} {cl : Client} (hc : S.channel n c)
    (hcl : S.client cl) {out : List CmdMsg} (h : db.getusers c = some out) :
    ∀ m ∈ out, Says S cmd args m cl.nickname := by
  obtain ⟨users, husers, h⟩ := Option.bind_eq_some_iff.mp h
  have hall : ∀ u ∈ users, S.client u := by
    intro u hu
    obtain ⟨ref, -, href⟩ := mem_of_mapM husers hu
    exact hdb.deref href
  intro m hm
  split_ifs at h <;> cases h
  · rw [List.mem_singleton.mp hm]
    exact .endOfNames hcmd hc hcl
  · rcases List.mem_cons.mp hm with rfl | hm
    · exact .namreply hcmd hc hcl hall
    · rw [List.mem_singleton.mp hm]
      exact .endOfNames hcmd hc hcl

end rules

/-! ## Handlers -/

section handlers

variable {S : Spec} {args : List Bytes} (fd : Fd)

theorem nick_kept (hS : S.Closed (ascii "NICK") args) :
    Kept S (ascii "NICK") args (nick fd args) fun _ => True := by
  cases args with
  | nil => exact kept_throwText _ (by decide)
  | cons n rest =>
      have hmem : n ∈ ascii "NICK" :: n :: rest := List.mem_cons_of_mem _ List.mem_cons_self
      refine kept_get.bind fun w _ => maintains_ite (fun _ => kept_throwEcho _ hmem (by decide)) ?_
      refine fun _ => (kept_getuser fd).bind fun client _ => ?_
      have hrename := hS.nick rfl n rfl
      -- the table takes the nickname before it is checked
      refine (kept_update fun db hdb => hdb.rename hrename fd client).bind fun _ _ => ?_
      refine (kept_getuser fd).bind fun cl hcl => ?_
      refine maintains_ite (fun _ => kept_throwEcho _ hmem (by decide)) fun hvalid => ?_
      have hvalid : validNick n = true := by simpa [validNick] using hvalid
      refine Maintains.bind (kept_send fun s hs => ?_) fun _ _ =>
        kept_update fun db hdb => hdb.setClient (hS.setNick rfl n rfl hvalid) fd
      split_ifs at hs with hnick
      · rw [List.mem_singleton.mp hs]
        exact Or.inr ⟨_, _, rfl, List.forall_mem_singleton.mpr (.nick rfl rfl hvalid hcl hnick)⟩
      · cases hs

theorem user_kept (hS : S.Closed (ascii "USER") args) :
    Kept S (ascii "USER") args (user fd args) fun _ => True := by
  refine (kept_getuser fd).bind fun client _ => ?_
  refine maintains_ite (fun _ => kept_throwText _ (by decide)) fun _ => ?_
  refine (kept_arg 0).bind fun a ha => (kept_arg 1).bind fun b hb => ?_
  refine (kept_arg 2).bind fun c hc => (kept_arg 3).bind fun d hd => ?_
  have hmem : ∀ {i x}, args[i]? = some x → x ∈ args := List.mem_of_getElem?
  exact kept_update fun db hdb =>
    hdb.setClient (hS.setUser a (hmem ha) b (hmem hb) c (hmem hc) d (hmem hd)) fd

theorem quit_kept : Kept S (ascii "QUIT") args (quit fd args) fun _ => True :=
  maintains_throw (by rintro msg ⟨⟩)

/-- `names` is run with the arguments of the command, and by `join` with the name only. -/
theorem names_kept {cmd : Bytes} (hS : S.Closed cmd args)
    (hcmd : cmd = ascii "JOIN" ∨ cmd = ascii "NAMES") {argv : List Bytes}
    (hargv : ∀ n ∈ argv.head?, args.head? = some n) :
    Kept S cmd args (names fd argv) fun _ => True := by
  refine (kept_getuser fd).bind fun client hcl => ?_
  cases argv with
  | nil =>
      -- without a name, all channels
      refine kept_get.bind fun w hw => (kept_orUndefined _).bind fun outs houts => ?_
      refine kept_sendcmds (fun m hm => ?_) fd
      obtain ⟨out, hout, hm⟩ := List.mem_flatten.mp hm
      obtain ⟨channel, hchannel, hget⟩ := mem_of_mapM houts hout
      obtain ⟨⟨n, c⟩, hentry, rfl⟩ := List.mem_map.mp hchannel
      exact says_getusers hcmd hw (hw.channels n c (Table.mem_entries_iff.mp hentry)) hcl hget m hm
  | cons name rest =>
      have hhead := hargv name rfl
      have hname : name ∈ args := List.mem_of_head? hhead
      refine (kept_getchannel hname (hS.create hcmd name hhead)).bind fun _ _ => ?_
      refine (kept_readChannel name).bind fun channel hc => kept_get.bind fun w hw => ?_
      refine (kept_orUndefined _).bind fun out hout => ?_
      exact kept_sendcmds (says_getusers hcmd hw hc hcl hout) fd

theorem channelAdd_kept (hS : S.Closed (ascii "JOIN") args) (name : Bytes) :
    Kept S (ascii "JOIN") args (channelAdd name fd) fun _ => True := by
  refine (kept_getuser fd).bind fun client hcl => ?_
  refine (kept_update fun db hdb => hdb.setChannel (hS.addUser fd _) name).bind fun _ _ => ?_
  exact (kept_readChannel name).bind fun c hc => kept_broadcast (.join rfl hc hcl) _

theorem join_kept (hS : S.Closed (ascii "JOIN") args) :
    Kept S (ascii "JOIN") args (join fd args) fun _ => True := by
  refine (kept_arg 0).bind fun name hname => ?_
  have hhead : args.head? = some name := by rw [List.head?_eq_getElem?, hname]
  have hcreate := hS.create (Or.inl rfl) name hhead
  refine (kept_getchannel (List.mem_of_head? hhead) hcreate).bind fun _ _ => ?_
  refine (kept_update fun db hdb => hdb.setClient (hS.join name hhead) fd).bind fun _ _ => ?_
  refine (channelAdd_kept fd hS name).bind fun _ _ => (kept_readChannel name).bind fun c hc => ?_
  refine (kept_sendcmd (.joinTopic rfl hc) fd).bind fun _ _ => ?_
  exact names_kept fd hS (Or.inl rfl) (by rintro n ⟨⟩; exact hhead)

theorem part_kept (hS : S.Closed (ascii "PART") args) :
    Kept S (ascii "PART") args (part fd args) fun _ => True := by
  refine (kept_arg 0).bind fun name hname => kept_get.bind fun w _ => ?_
  have hmem : name ∈ ascii "PART" :: args := List.mem_cons_of_mem _ (List.mem_of_getElem? hname)
  refine maintains_ite (fun _ => kept_throwEcho _ hmem (by decide)) fun _ => ?_
  refine (kept_getuser fd).bind fun client hcl => ?_
  refine maintains_ite (fun _ => kept_throwEcho _ hmem (by decide)) fun _ => ?_
  refine (kept_update fun db hdb => hdb.setClient (hS.part name) fd).bind fun _ _ => ?_
  -- the nickname is read through the reference in the channel
  refine (kept_readChannel name).bind fun c hc => (kept_orUndefined _).bind fun ref _ => ?_
  refine kept_get.bind fun w hw => (kept_orUndefined _).bind fun cl hcl => ?_
  have hmsg : args[1]?.getD Channel.defaultPartMsg ∈ args
      ∨ args[1]?.getD Channel.defaultPartMsg = Channel.defaultPartMsg := by
    cases hone : args[1]? with
    | none => exact Or.inr rfl
    | some msg => exact Or.inl (List.mem_of_getElem? hone)
  exact (kept_broadcast (.part rfl hc (hw.deref hcl) hmsg) _).bind fun _ _ =>
    kept_update fun db hdb => hdb.setChannel (hS.delUser fd) name

theorem topic_kept (hS : S.Closed (ascii "TOPIC") args) :
    Kept S (ascii "TOPIC") args (topic fd args) fun _ => True := by
  refine (kept_arg 0).bind fun name hname => kept_get.bind fun w _ => ?_
  have hmem : name ∈ ascii "TOPIC" :: args := List.mem_cons_of_mem _ (List.mem_of_getElem? hname)
  refine maintains_ite (fun _ => kept_throwEcho _ hmem (by decide)) fun _ => ?_
  refine (kept_getuser fd).bind fun client hcl => ?_
  refine maintains_ite (fun _ => kept_throwEcho _ hmem (by decide)) fun _ => ?_
  refine (kept_readChannel name).bind fun c hc => ?_
  cases hone : args[1]? with
  | none => exact kept_sendcmd (.gettopic rfl hc hcl) fd
  | some t =>
      have ht := List.mem_of_getElem? hone
      refine (kept_update fun db hdb => hdb.setChannel (hS.setTopic t ht) name).bind fun _ _ => ?_
      exact kept_broadcast (.topic rfl hc hcl ht) _

theorem list_kept : Kept S (ascii "LIST") args (list fd args) fun _ => True := by
  refine (kept_getuser fd).bind fun client hcl => kept_get.bind fun w hw => ?_
  refine kept_sendcmds (fun m hm => ?_) fd
  rcases List.mem_cons.mp hm with rfl | hm
  · exact .listStart rfl hcl
  · rcases List.mem_append.mp hm with hm | hm
    -- each row is of a channel in the table
    · obtain ⟨c, hc, rfl⟩ := List.mem_map.mp hm
      obtain ⟨n, hn⟩ : ∃ n, w.db.channels.lookup n = some c := by
        cases args with
        | nil =>
            obtain ⟨⟨n, c'⟩, hentry, rfl⟩ := List.mem_map.mp hc
            exact ⟨n, Table.mem_entries_iff.mp hentry⟩
        | cons name rest => exact ⟨name, Option.mem_toList.mp hc⟩
      exact .listRow rfl (hw.channels n c hn) hcl
    · rw [List.mem_singleton.mp hm]
      exact .listEnd rfl hcl

theorem privmsg_kept : Kept S (ascii "PRIVMSG") args (privmsg fd args) fun _ => True := by
  rcases args with _ | ⟨name, _ | ⟨text, rest⟩⟩
  · exact kept_throwText _ (by decide)
  · exact kept_throwText _ (by decide)
  · refine (kept_getuser fd).bind fun client hcl => kept_get.bind fun w hw => ?_
    have htext : text ∈ name :: text :: rest := List.mem_cons_of_mem _ List.mem_cons_self
    cases hc : w.db.channels.lookup name with
    | none => exact kept_throwEcho _ (List.mem_cons_of_mem _ List.mem_cons_self) (by decide)
    | some c => exact kept_broadcast (.privmsg rfl (hw.channels name c hc) hcl htext) _

theorem ping_kept : Kept S (ascii "PING") args (ping fd args) fun _ => True := by
  cases args with
  | nil => exact kept_throwText _ (by decide)
  | cons _ _ =>
      refine kept_send fun s hs => ?_
      rw [List.mem_singleton.mp hs]
      exact Or.inl ⟨rfl, rfl⟩

theorem users_kept : Kept S (ascii "USERS") args (users fd args) fun _ => True := by
  refine kept_get.bind fun w hw => kept_sendcmds (fun m hm => ?_) fd
  rcases List.mem_cons.mp hm with rfl | hm
  · exact .usersStart rfl _
  · obtain ⟨cl, hcl, rfl⟩ := List.mem_map.mp hm
    obtain ⟨⟨f, cl'⟩, hentry, rfl⟩ := List.mem_map.mp hcl
    exact .users rfl _ (hw.clients f cl' (Table.mem_entries_iff.mp hentry))

end handlers

/-- Every entry of the command table. -/
theorem cmds_kept {cmd : Bytes} {item : CmdItem} (h : cmds.lookup cmd = some item) {S : Spec}
    {args : List Bytes} (hS : S.Closed cmd args) (fd : Fd) :
    Kept S cmd args (item.fp fd args) fun _ => True :=
  cmds_cases (P := fun cmd fp => S.Closed cmd args → Kept S cmd args (fp fd args) fun _ => True)
    (nick_kept fd) (user_kept fd) (fun _ => quit_kept fd) (join_kept fd) (part_kept fd)
    (topic_kept fd) (fun hS => names_kept fd hS (Or.inr rfl) fun _ hn => hn)
    (fun _ => list_kept fd) (fun _ => privmsg_kept fd) (fun _ => ping_kept fd)
    (fun _ => users_kept fd) h hS

/-! ## Lines -/

/-- The changes of the command are made only if its handler runs. -/
def Spec.Allows (S : Spec) (db : Database) (fd : Fd) (cmd : Bytes) (args : List Bytes) : Prop :=
  ∀ item regist, dispatch db fd (cmd :: args) = .handler cmd item args regist → S.Closed cmd args

/-- A command keeps the specification, says what it may, and throws what it may. -/
theorem call_kept {S : Spec} {db : Database} (hdb : S.Db db) {fd : Fd} {cmd : Bytes}
    {args : List Bytes} (hS : S.Allows db fd cmd args) :
    Ends (call fd (cmd :: args)) ⟨db, []⟩ (fun _ w => S.Meets cmd args w)
      (fun e w => S.Meets cmd args w ∧ Throws (cmd :: args) e) := by
  have hstart : S.Meets cmd args ⟨db, []⟩ := ⟨hdb, List.forall_mem_nil _⟩
  have hthrow : ∀ msg, Errs (cmd :: args) msg → Throws (cmd :: args) (.cmdMsg msg) := by
    rintro msg herr _ ⟨⟩
    exact herr
  rw [Ends, call_eq]
  cases hdispatch : dispatch db fd (cmd :: args) with
  | nothing => exact hstart
  | throws e =>
      refine ⟨hstart, ?_⟩
      -- an unknown command, a client that is gone, or one of the two checks
      rw [dispatch] at hdispatch
      split at hdispatch
      · cases hdispatch
        exact hthrow _ (.echo _ _ List.mem_cons_self (by decide))
      · cases hdispatch
        rintro msg ⟨⟩
      · split_ifs at hdispatch
        · cases hdispatch
          exact hthrow _ (.text _ _ (by decide))
        · cases hdispatch
          exact hthrow _ (.echo _ _ List.mem_cons_self (by decide))
  | handler cmd' item args' regist =>
      obtain ⟨heq, hitem, -⟩ := dispatch_eq_handler hdispatch
      cases heq
      have hclosed := hS item regist hdispatch
      have hrun : Kept S cmd args (item.fp fd args >>= fun _ =>
          if regist then pure ⟨⟩ else welcome fd) fun _ => True := by
        refine (cmds_kept hitem hclosed fd).bind fun _ _ => ?_
        refine maintains_ite (fun _ => maintains_pure trivial) fun _ => ?_
        refine (kept_getuser fd).bind fun cl hcl => ?_
        refine (kept_update fun db hdb => hdb.setClient hclosed.regist fd).bind fun _ _ => ?_
        refine kept_send fun s hs => ?_
        split_ifs at hs
        · rw [List.mem_singleton.mp hs]
          exact Or.inr ⟨welcomeCmds, _, rfl, fun m hm => .welcome hm hcl⟩
        · cases hs
      exact (hrun _ hstart).mono (fun _ _ h => h.1) (fun _ _ h => h)

/-- What is done with a line keeps the specification; what is sent is a reply to it, or the error
reply that has been thrown. -/
theorem runLine_kept {S : Spec} {db : Database} (hdb : S.Db db) {fd : Fd} {cmd : Bytes}
    {args : List Bytes} (hS : S.Allows db fd cmd args) {sent : List Sent} {after : Option Database}
    (h : runLine fd db (cmd :: args) = (sent, after)) :
    (∀ s ∈ sent, Said S cmd args s.2 ∨ ∃ msg, Errs (cmd :: args) msg ∧ s.2 = sendcmdsStr [msg] [])
      ∧ ∀ db', after = some db' → S.Db db' := by
  have hends := call_kept hdb hS
  have hsaid : ∀ w : World, S.Meets cmd args w → ∀ s ∈ w.sent,
      Said S cmd args s.2 ∨ ∃ msg, Errs (cmd :: args) msg ∧ s.2 = sendcmdsStr [msg] [] :=
    fun w hw s hs => Or.inl (hw.2 s hs)
  rw [runLine] at h
  cases hcall : call fd (cmd :: args) ⟨db, []⟩ with
  | ok a w =>
      have hw := hends.of_ok hcall
      rw [hcall] at h
      cases h
      exact ⟨hsaid w hw, by rintro db' ⟨⟩; exact hw.1⟩
  | error e w =>
      obtain ⟨hw, hthrown⟩ := hends.of_error hcall
      rw [hcall] at h
      cases e with
      | cmdMsg msg =>
          cases h
          -- the error reply is sent behind what the handler has sent
          refine ⟨fun s hs => ?_, by rintro db' ⟨⟩; exact hw.1⟩
          rcases List.mem_append.mp hs with hs | hs
          · exact hsaid w hw s hs
          · rw [List.mem_singleton.mp hs]
            exact Or.inr ⟨msg, hthrown msg rfl, rfl⟩
      | disconnect =>
          cases h
          exact ⟨hsaid w hw, by rintro db' ⟨⟩; exact hw.1.clientDel fd⟩
      | undefined =>
          cases h
          exact ⟨hsaid w hw, by rintro db' ⟨⟩⟩

/-! ## Runs -/

/-- The database of the server meets the specification, and the lines that are still to be handled
satisfy `L`. -/
inductive Spec.Serving (S : Spec) (L : List Bytes → Prop) : Server → Prop
  | running {db todo} (hdb : S.Db db) (htodo : ∀ r ∈ todo, ∀ argv ∈ r.2, L argv) :
      Serving S L (.running db todo)
  | undefined : Serving S L .undefined

/-- The line that is handled in this state keeps the specification. -/
def Spec.Accepts (S : Spec) : Server → Prop
  | .running db (some (fd, (cmd :: args) :: _)) => S.Allows db fd cmd args
  | _ => True

/-- A specification for each line, of what the database and the line hold when it is handled. -/
abbrev LineSpec := Database → Fd → Bytes → List Bytes → Spec

/-- The string is what the line that is handled in this state can send, by its specification, or its
error reply. -/
inductive Replies (T : LineSpec) : Server → Bytes → Prop
  | said {db fd cmd args rest s} (hsaid : Said (T db fd cmd args) cmd args s) :
      Replies T (.running db (some (fd, (cmd :: args) :: rest))) s
  | err {db fd cmd args rest msg} (herr : Errs (cmd :: args) msg) :
      Replies T (.running db (some (fd, (cmd :: args) :: rest))) (sendcmdsStr [msg] [])

section runs

variable {S : Spec} {T : LineSpec} {L : List Bytes → Prop}
  (hT : ∀ db fd cmd args, S.Db db → (T db fd cmd args).Db db ∧
    (T db fd cmd args).Allows db fd cmd args)
include hT

/-- One line, which may have no words. -/
theorem replies_line {db : Database} {fd : Fd} {argv : List Bytes} {rest : List (List Bytes)}
    (hdb : S.Db db) (hS : S.Accepts (.running db (some (fd, argv :: rest)))) {sent : List Sent}
    {after : Option Database} (h : runLine fd db argv = (sent, after)) :
    (∀ x ∈ sent, Replies T (.running db (some (fd, argv :: rest))) x.2)
      ∧ ∀ db', after = some db' → S.Db db' := by
  cases argv with
  | nil =>
      cases h
      exact ⟨List.forall_mem_nil _, by rintro db' ⟨⟩; exact hdb⟩
  | cons cmd args =>
      obtain ⟨hTdb, hallows⟩ := hT db fd cmd args hdb
      refine ⟨fun x hx => ?_, (runLine_kept hdb hS h).2⟩
      rcases (runLine_kept hTdb hallows h).1 x hx with hsaid | ⟨msg, herr, hmsg⟩
      · exact .said hsaid
      · rw [hmsg]
        exact .err herr

variable (hnew : ∀ id sock, S.client (Client.new id (sockInfo sock) (sockHost sock)))
  (hlines : ∀ received, ∀ argv ∈ argvs received, L argv)
include hnew hlines

/-- A step of the server. -/
theorem serving_next {s s' : Server} {a : Input} {sent : List Sent} (h : S.Serving L s)
    (hS : S.Accepts s) (hs : server.next s a = some (s', sent)) :
    S.Serving L s' ∧ ∀ x ∈ sent, Replies T s x.2 := by
  have hnothing : ∀ db, S.Db db → S.Serving L (.running db none) :=
    fun db hdb => .running hdb (by rintro r ⟨⟩)
  cases serves_of_next hs with
  | accept hfree =>
      cases h with
      | running hdb htodo =>
          exact ⟨hnothing _ (hdb.clientAdd hfree (hnew _ _)), List.forall_mem_nil _⟩
  | closed hconn =>
      cases h with
      | running hdb htodo => exact ⟨hnothing _ (hdb.clientDel _), List.forall_mem_nil _⟩
  | read hconn hlen =>
      cases h with
      | running hdb htodo =>
          exact ⟨.running hdb (by rintro r ⟨⟩; exact hlines _), List.forall_mem_nil _⟩
  | last =>
      cases h with
      | running hdb htodo => exact ⟨hnothing _ hdb, List.forall_mem_nil _⟩
  | line hline =>
      cases h with
      | running hdb htodo =>
          obtain ⟨-, hrest⟩ := List.forall_mem_cons.mp (htodo _ rfl)
          obtain ⟨hsent, hafter⟩ := replies_line hT hdb hS hline
          exact ⟨.running (hafter _ rfl) (by rintro r ⟨⟩; exact hrest), hsent⟩
  | undefined hline =>
      cases h with
      | running hdb htodo => exact ⟨.undefined, (replies_line hT hdb hS hline).1⟩

/-- In every run whose lines keep the specification, every database meets it, and all that is sent
are replies to the lines. -/
theorem serving_run {past : List (Moment Server Input (List Sent))} {s : Server}
    (hrun : Run server past s) (hS : ∀ m ∈ past, S.Serving L m.pre → S.Accepts m.pre) :
    S.Serving L s ∧ ∀ m ∈ past, S.Serving L m.pre ∧ ∀ x ∈ m.shown, Replies T m.pre x.2 := by
  have hinit : S.Serving L server.init :=
    .running ⟨by rintro fd cl ⟨⟩, by rintro n ⟨⟩, by rintro n c ⟨⟩⟩ (by rintro r ⟨⟩)
  refine ⟨hrun.invariant (C := fun s _ => S.Serving L s → S.Accepts s) hinit ?_ hS, ?_⟩
  · exact fun s a s' o h hC hs => (serving_next hT hnew hlines h (hC h) hs).1
  · refine hrun.moments (C := fun s _ => S.Serving L s → S.Accepts s) (I := S.Serving L) hinit ?_ hS
    intro s a s' o h hC hs
    obtain ⟨h', hsent⟩ := serving_next hT hnew hlines h (hC h) hs
    exact ⟨h', h, hsent⟩

end runs

end Mircd
