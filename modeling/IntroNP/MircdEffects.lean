/-
# What a command can do to the database of mircd

One statement for each handler says all that it can do to the database: what a return leaves
behind (`Returned`) and what a throw does (`Threw`).  Every invariant is derived from these and
never from a handler itself.

* `Returned`, `Threw` : the changes of the handlers;
* `call_ends` : the changes of a command;
* `called_of_runCall`, `threw_of_runCall` : the same for a step of the system.
-/
import IntroNP.Mircd

namespace Mircd

/-! ## The programs of the model -/

@[simp] theorem World.update_db (w : World) (f : Database → Database) :
    (w.update f).db = f w.db := rfl

@[simp] theorem World.send_db (w : World) (out : List Sent) : (w.send out).db = w.db := rfl

section

variable {α : Type} {w : World} {Q : α → World → Prop} {E : Exn → World → Prop}

@[simp] theorem ends_orUndefined (o : Option α) :
    Ends (orUndefined o) w Q E ↔ (∀ a, o = some a → Q a w) ∧ (o = none → E .undefined w) := by
  cases o <;> simp [orUndefined]

@[simp] theorem ends_throwErr (e : ERR) (argv : List Bytes) :
    Ends (throwErr e argv) w Q E ↔ E (.cmdMsg (.ofERR e argv)) w := Iff.rfl

@[simp] theorem ends_update (f : Database → Database) {Q : PUnit → World → Prop} :
    Ends (update f) w Q E ↔ Q ⟨⟩ (w.update f) := Iff.rfl

@[simp] theorem ends_send (out : List Sent) {Q : PUnit → World → Prop} :
    Ends (send out) w Q E ↔ Q ⟨⟩ (w.send out) := Iff.rfl

@[simp] theorem ends_getchannel (name : Bytes) {Q : PUnit → World → Prop} :
    Ends (getchannel name) w Q E ↔
      (∀ db, w.db.getchannel name = some db → Q ⟨⟩ (w.update fun _ => db)) ∧
      (w.db.getchannel name = none →
        E (.cmdMsg (.ofERR .NOSUCHCHANNEL [name, ascii "No such channel"])) w) := by
  simp only [getchannel, ends_bind, ends_get]
  cases w.db.getchannel name <;> simp

end

/-! ## Changes of the database -/

/-- The nickname table after `nick` has edited it. -/
def Database.rename (db : Database) (fd : Fd) (client : Client) (nick : Bytes) : Database :=
  { db with
    nickMp := Table.emplace nick ⟨fd, client.id⟩
      (if client.hasNick then db.nickMp.erase client.nickname else db.nickMp) }

/-- The database after a client has joined a channel that exists. -/
def Database.joined (db : Database) (fd : Fd) (client : Client) (name : Bytes) : Database :=
  (db.setClient fd (Client.join name)).setChannel name (Channel.addUser fd ⟨fd, client.id⟩)

/-- The database after a client has left a channel. -/
def Database.parted (db : Database) (fd : Fd) (name : Bytes) : Database :=
  (db.setClient fd (Client.part name)).setChannel name (Channel.delUser fd)

@[simp] theorem setClient_channels (db : Database) (fd : Fd) (f : Client → Client) :
    (db.setClient fd f).channels = db.channels := rfl

@[simp] theorem setClient_nickMp (db : Database) (fd : Fd) (f : Client → Client) :
    (db.setClient fd f).nickMp = db.nickMp := rfl

@[simp] theorem setChannel_clients (db : Database) (name : Bytes) (f : Channel → Channel) :
    (db.setChannel name f).clients = db.clients := rfl

@[simp] theorem setChannel_nickMp (db : Database) (name : Bytes) (f : Channel → Channel) :
    (db.setChannel name f).nickMp = db.nickMp := rfl

theorem lookup_setClient (db : Database) (fd f' : Fd) (f : Client → Client) :
    (db.setClient fd f).clients.lookup f'
      = if f' = fd then (db.clients.lookup f').map f else db.clients.lookup f' :=
  Table.lookup_modify fd f' f db.clients

theorem lookup_setChannel (db : Database) (name n : Bytes) (f : Channel → Channel) :
    (db.setChannel name f).channels.lookup n
      = if n = name then (db.channels.lookup n).map f else db.channels.lookup n :=
  Table.lookup_modify name n f db.channels

/-- `getchannel` changes the channels only. -/
theorem getchannel_frame {db db' : Database} {name : Bytes} (h : db.getchannel name = some db') :
    db'.clients = db.clients ∧ db'.nickMp = db.nickMp := by
  unfold Database.getchannel at h
  split_ifs at h <;> cases h <;> exact ⟨rfl, rfl⟩

/-- After `getchannel` there is a channel of the name; a new one is empty, and the others are
the old ones. -/
theorem lookup_getchannel {db db' : Database} {name : Bytes}
    (h : db.getchannel name = some db') (n : Bytes) :
    (n ≠ name ∨ name ∈ db.channels → db'.channels.lookup n = db.channels.lookup n) ∧
    (name ∉ db.channels → ∃ channel, db'.channels.lookup name = some channel ∧
      channel.name = name ∧ channel.users = ∅) := by
  unfold Database.getchannel at h
  split_ifs at h with hin haccept
  · cases h
    exact ⟨fun _ => rfl, fun hnot => absurd hin hnot⟩
  · cases h
    refine ⟨?_, fun _ => ⟨_, AList.lookup_insert _, rfl, rfl⟩⟩
    rintro (hne | hmem)
    · exact AList.lookup_insert_ne hne
    · exact absurd hmem hin

/-- `getchannel` finds a channel that exists. -/
theorem getchannel_of_mem {db : Database} {name : Bytes} (h : name ∈ db.channels) :
    db.getchannel name = some db := by
  rw [Database.getchannel, if_pos h]

/-- `getchannel` leaves a channel of the name. -/
theorem mem_getchannel {db db' : Database} {name : Bytes} (h : db.getchannel name = some db') :
    name ∈ db'.channels := by
  unfold Database.getchannel at h
  split_ifs at h with hin haccept <;> cases h
  · exact hin
  · exact (AList.mem_insert _).mpr (Or.inl rfl)

@[simp] theorem regist_id (cl : Client) : cl.regist.id = cl.id := by
  unfold Client.regist; split_ifs <;> rfl

@[simp] theorem regist_channels (cl : Client) : cl.regist.channels = cl.channels := by
  unfold Client.regist; split_ifs <;> rfl

@[simp] theorem regist_hasNick (cl : Client) : cl.regist.hasNick = cl.hasNick := by
  unfold Client.regist; split_ifs <;> rfl

@[simp] theorem regist_nickname (cl : Client) : cl.regist.nickname = cl.nickname := by
  unfold Client.regist; split_ifs <;> rfl

/-- The clients after a connection. -/
theorem lookup_clientAdd {db : Database} {fd : Fd} (hfree : fd ∉ db.clients) (info host : Bytes)
    (f : Fd) : (db.clientAdd fd info host).clients.lookup f
      = if f = fd then some (Client.new db.created info host) else db.clients.lookup f := by
  rw [Database.clientAdd, Table.lookup_emplace]
  simp [hfree]

/-- The clients after a disconnect. -/
theorem lookup_clientDel (db : Database) (fd f : Fd) :
    (db.clientDel fd).clients.lookup f = if f = fd then none else db.clients.lookup f := by
  unfold Database.clientDel
  cases hfd : db.clients.lookup fd with
  | none =>
      by_cases hf : f = fd
      · subst hf
        rw [if_pos rfl, hfd]
      · rw [if_neg hf]
  | some client => exact Table.lookup_erase' fd f db.clients

/-- What `changeNick` demands of a nickname. -/
def validNick (nick : Bytes) : Bool := nick.head?.any isAlpha

/-- What a handler that returns has done, for a command word and its arguments. -/
inductive Returned (fd : Fd) (db : Database) : Bytes → List Bytes → Database → Prop
  | nick {nick rest client} (hclient : db.clients.lookup fd = some client)
      (hfree : nick ∉ db.nickMp) (hvalid : validNick nick = true) :
      Returned fd db (ascii "NICK") (nick :: rest)
        ((db.rename fd client nick).setClient fd (Client.setNick nick))
  | user {argv} (username hostname servername realname : Bytes) :
      Returned fd db (ascii "USER") argv
        (db.setClient fd (Client.setUser username hostname servername realname))
  | join {name rest db' client} (hchannel : db.getchannel name = some db')
      (hclient : db.clients.lookup fd = some client) :
      Returned fd db (ascii "JOIN") (name :: rest) (db'.joined fd client name)
  | part {name rest client channel ref} (hclient : db.clients.lookup fd = some client)
      (hin : name ∈ client.channels) (hchannel : db.channels.lookup name = some channel)
      (href : channel.users.lookup fd = some ref) :
      Returned fd db (ascii "PART") (name :: rest) (db.parted fd name)
  | topic {name newTopic rest} :
      Returned fd db (ascii "TOPIC") (name :: newTopic :: rest)
        (db.setChannel name (Channel.setTopic newTopic))
  | names {name rest db'} (hchannel : db.getchannel name = some db') :
      Returned fd db (ascii "NAMES") (name :: rest) db'
  | same {cmd argv} (hjoin : cmd ≠ ascii "JOIN") (hpart : cmd ≠ ascii "PART") :
      Returned fd db cmd argv db

/-- No handler adds or removes a client. -/
theorem Returned.mem_clients {fd : Fd} {db db' : Database} {cmd : Bytes} {args : List Bytes}
    (h : Returned fd db cmd args db') (f : Fd) : f ∈ db'.clients ↔ f ∈ db.clients := by
  cases h with
  | nick => exact Table.mem_modify
  | user => exact Table.mem_modify
  | join hchannel =>
      rw [← (getchannel_frame hchannel).1]
      exact Table.mem_modify
  | part => exact Table.mem_modify
  | topic => exact Iff.rfl
  | names hchannel => rw [(getchannel_frame hchannel).1]
  | same => exact Iff.rfl

/-- What a command that throws has done.  Only `nick` changes anything before it throws; nothing
is said about undefined behaviour. -/
inductive Threw (fd : Fd) (db : Database) : Bytes → List Bytes → Exn → Database → Prop
  | invalid {nick rest client} (hclient : db.clients.lookup fd = some client)
      (hfree : nick ∉ db.nickMp) (hinvalid : validNick nick = false) :
      Threw fd db (ascii "NICK") (nick :: rest)
        (.cmdMsg (.ofERR .ERRONEUSNICKNAME [nick, ascii "Erroneous nickname"]))
        (db.rename fd client nick)
  | collision {nick rest} (hused : nick ∈ db.nickMp) :
      Threw fd db (ascii "NICK") (nick :: rest)
        (.cmdMsg (.ofERR .NICKCOLLISION [nick, ascii "Nickname collision KILL"])) db
  | other {cmd argv e} (hother : ∀ args, e ≠ .cmdMsg (.ofERR .NICKCOLLISION args)) :
      Threw fd db cmd argv e db
  | undefined {cmd argv db'} : Threw fd db cmd argv .undefined db'

@[simp] theorem threw_undefined {fd : Fd} {db db' : Database} {cmd : Bytes} {argv : List Bytes} :
    Threw fd db cmd argv .undefined db' ↔ True := iff_true_intro .undefined

/-- A throw leaves the clients and the channels as they were. -/
theorem Threw.frame {fd : Fd} {db db' : Database} {cmd : Bytes} {args : List Bytes} {e : Exn}
    (h : Threw fd db cmd args e db') (hdef : e ≠ .undefined) :
    db'.clients = db.clients ∧ db'.channels = db.channels := by
  cases h with
  | invalid => exact ⟨rfl, rfl⟩
  | collision => exact ⟨rfl, rfl⟩
  | other => exact ⟨rfl, rfl⟩
  | undefined => exact absurd rfl hdef

/-- An error reply other than 436, thrown with nothing changed. -/
theorem threw_ofERR {fd : Fd} {db : Database} {cmd : Bytes} {argv args : List Bytes} {e : ERR}
    (he : e ≠ .NICKCOLLISION) : Threw fd db cmd argv (.cmdMsg (.ofERR e args)) db := by
  refine .other fun args' h => he ?_
  simp only [CmdMsg.ofERR, Exn.cmdMsg.injEq, CmdMsg.mk.injEq, Cmd.num.injEq] at h
  cases e <;> simp_all [ERR.code]

/-! ## The handlers -/

/-- What a handler does: it returns having done what its command may do, or throws having done
what a throw may do. -/
def Handles (fd : Fd) (cmd : Bytes) (argv : List Bytes) (m : M PUnit) : Prop :=
  ∀ w : World, Ends m w (fun _ w' => Returned fd w.db cmd argv w'.db)
    (fun e w' => Threw fd w.db cmd argv e w'.db)

section handlers

variable (fd : Fd) (argv : List Bytes)

theorem nick_handles : Handles fd (ascii "NICK") argv (nick fd argv) := by
  intro w
  cases argv with
  | nil => exact threw_ofERR (by decide)
  | cons n rest =>
      simp only [nick, getuser, changeNick, ends_bind, ends_get, ends_ite, ends_throwErr,
        ends_orUndefined, ends_update, ends_send, World.update_db, World.send_db,
        threw_undefined, implies_true, and_true]
      refine ⟨.collision, fun hfree client hclient _ _ => ⟨fun hinvalid => ?_, fun hvalid => ?_⟩⟩
      · exact .invalid hclient hfree (by simpa [validNick] using hinvalid)
      · exact .nick hclient hfree (by simpa [validNick] using hvalid)

theorem user_handles : Handles fd (ascii "USER") argv (user fd argv) := by
  intro w
  simp only [user, arg, getuser, ends_bind, ends_get, ends_ite, ends_throwErr, ends_orUndefined,
    ends_update, World.update_db, threw_undefined, implies_true, and_true]
  refine fun client _ => ⟨fun _ => threw_ofERR (by decide), ?_⟩
  intro _ username _ hostname _ servername _ realname _
  exact .user username hostname servername realname

theorem quit_handles : Handles fd (ascii "QUIT") argv (quit fd argv) :=
  fun _ => .other (by simp)

theorem join_handles : Handles fd (ascii "JOIN") argv (join fd argv) := by
  intro w
  simp only [join, channelAdd, names, arg, getuser, readChannel, broadcast, sendcmd, sendcmds,
    ends_bind, ends_get, ends_orUndefined, ends_update, ends_send, ends_getchannel,
    World.update_db, World.send_db, threw_undefined, implies_true, and_true]
  refine fun name hname => ⟨fun db' hchannel client hclient _ _ _ _ _ _ => ?_,
    fun _ => threw_ofERR (by decide)⟩
  obtain ⟨rest, rfl⟩ : ∃ rest, argv = name :: rest := by
    cases argv with
    | nil => cases hname
    | cons a rest => cases hname; exact ⟨rest, rfl⟩
  rw [lookup_setClient, if_pos rfl, (getchannel_frame hchannel).1, Option.map_eq_some_iff]
    at hclient
  obtain ⟨client, hclient, rfl⟩ := hclient
  -- `names` finds the channel just joined
  have hfind : ((db'.setClient fd (Client.join name)).setChannel name
      (Channel.addUser fd ⟨fd, client.id⟩)).getchannel name
      = some (db'.joined fd client name) := by
    refine getchannel_of_mem (Table.mem_modify.mpr ?_)
    exact (mem_getchannel hchannel : name ∈ db'.channels)
  have hid : (Client.join name client).id = client.id := rfl
  rw [hid, hfind]
  refine ⟨?_, by simp⟩
  rintro _ ⟨⟩ _ _ _ _
  exact .join hchannel hclient

theorem part_handles : Handles fd (ascii "PART") argv (part fd argv) := by
  intro w
  cases argv with
  | nil => simp [part, arg]
  | cons name rest =>
      simp only [part, channelDel, readChannel, broadcast, arg, getuser, ends_bind, ends_get,
        ends_ite, ends_throwErr, ends_orUndefined, ends_update, ends_send, World.update_db,
        World.send_db, threw_undefined, implies_true, and_true]
      rintro _ ⟨⟩
      refine ⟨fun _ => threw_ofERR (by decide), fun _ client hclient =>
        ⟨fun _ => threw_ofERR (by decide), fun hin channel hchannel ref href _ _ => ?_⟩⟩
      exact .part hclient (not_not.mp hin) hchannel href

theorem topic_handles : Handles fd (ascii "TOPIC") argv (topic fd argv) := by
  intro w
  simp only [topic, readChannel, sendcmd, sendcmds, broadcast, arg, getuser, ends_bind, ends_get,
    ends_ite, ends_throwErr, ends_orUndefined, threw_undefined, implies_true, and_true]
  refine fun name hname => ⟨fun _ => threw_ofERR (by decide), fun _ client hclient =>
    ⟨fun _ => threw_ofERR (by decide), fun hin channel hchannel => ?_⟩⟩
  rcases argv with _ | ⟨a, _ | ⟨newTopic, rest⟩⟩
  · cases hname
  · exact .same (by decide) (by decide)
  · cases hname
    exact .topic

theorem names_handles : Handles fd (ascii "NAMES") argv (names fd argv) := by
  intro w
  cases argv with
  | nil =>
      simp only [names, getuser, sendcmds, ends_bind, ends_get, ends_orUndefined, ends_send,
        World.send_db, threw_undefined, implies_true, and_true]
      intro _ _ _ _
      exact .same (by decide) (by decide)
  | cons name rest =>
      simp only [names, getuser, readChannel, sendcmds, ends_bind, ends_get, ends_orUndefined,
        ends_send, ends_getchannel, World.update_db, World.send_db, threw_undefined, implies_true,
        and_true]
      refine fun _ _ => ⟨fun db' hchannel _ _ _ _ => .names hchannel,
        fun _ => threw_ofERR (by decide)⟩

theorem list_handles : Handles fd (ascii "LIST") argv (list fd argv) := by
  intro w
  simp only [list, getuser, sendcmds, ends_bind, ends_get, ends_orUndefined, ends_send,
    World.send_db, threw_undefined, implies_true, and_true]
  exact fun _ _ => .same (by decide) (by decide)

theorem privmsg_handles : Handles fd (ascii "PRIVMSG") argv (privmsg fd argv) := by
  intro w
  rcases argv with _ | ⟨name, _ | ⟨text, rest⟩⟩
  · exact threw_ofERR (by decide)
  · exact threw_ofERR (by decide)
  · simp only [privmsg, getuser, ends_bind, ends_get, ends_orUndefined, threw_undefined,
      implies_true, and_true]
    intro client _
    cases w.db.channels.lookup name with
    | none => exact threw_ofERR (by decide)
    | some channel => exact .same (by decide) (by decide)

theorem ping_handles : Handles fd (ascii "PING") argv (ping fd argv) := by
  intro w
  cases argv with
  | nil => exact threw_ofERR (by decide)
  | cons _ _ => exact .same (by decide) (by decide)

theorem users_handles : Handles fd (ascii "USERS") argv (users fd argv) :=
  fun _ => .same (by decide) (by decide)

end handlers

/-! ## Commands -/

theorem mem_of_lookup {α β : Type} [BEq α] [LawfulBEq α] {a : α} {b : β} {l : List (α × β)}
    (h : l.lookup a = some b) : (a, b) ∈ l := by
  induction l with
  | nil => cases h
  | cons e l ih =>
      rw [List.lookup_cons] at h
      split at h
      · next heq =>
          cases h
          rw [eq_of_beq heq]
          exact List.mem_cons_self
      · exact List.mem_cons_of_mem _ (ih h)

/-- What holds of the eleven handlers holds of every entry of the command table. -/
theorem cmds_cases {P : Bytes → (Fd → List Bytes → M PUnit) → Prop}
    (hnick : P (ascii "NICK") nick) (huser : P (ascii "USER") user) (hquit : P (ascii "QUIT") quit)
    (hjoin : P (ascii "JOIN") join) (hpart : P (ascii "PART") part)
    (htopic : P (ascii "TOPIC") topic) (hnames : P (ascii "NAMES") names)
    (hlist : P (ascii "LIST") list) (hprivmsg : P (ascii "PRIVMSG") privmsg)
    (hping : P (ascii "PING") ping) (husers : P (ascii "USERS") users) {cmd : Bytes}
    {item : CmdItem} (h : cmds.lookup cmd = some item) : P cmd item.fp := by
  have hmem := mem_of_lookup h
  simp only [cmds, List.mem_cons, Prod.mk.injEq, List.not_mem_nil, or_false] at hmem
  rcases hmem with ⟨rfl, rfl⟩ | ⟨rfl, rfl⟩ | ⟨rfl, rfl⟩ | ⟨rfl, rfl⟩ | ⟨rfl, rfl⟩ | ⟨rfl, rfl⟩ |
    ⟨rfl, rfl⟩ | ⟨rfl, rfl⟩ | ⟨rfl, rfl⟩ | ⟨rfl, rfl⟩ | ⟨rfl, rfl⟩
  · exact hnick
  · exact huser
  · exact hquit
  · exact hjoin
  · exact hpart
  · exact htopic
  · exact hnames
  · exact hlist
  · exact hprivmsg
  · exact hping
  · exact husers

/-- Every entry of the command table handles its command. -/
theorem cmds_handles {cmd : Bytes} {item : CmdItem} (h : cmds.lookup cmd = some item) (fd : Fd)
    (argv : List Bytes) : Handles fd cmd argv (item.fp fd argv) :=
  cmds_cases (P := fun cmd fp => Handles fd cmd argv (fp fd argv)) (nick_handles fd argv)
    (user_handles fd argv) (quit_handles fd argv) (join_handles fd argv) (part_handles fd argv)
    (topic_handles fd argv) (names_handles fd argv) (list_handles fd argv)
    (privmsg_handles fd argv) (ping_handles fd argv) (users_handles fd argv) h

/-- What a command that returns has done: its handler's change, and the registration of the
client if it was not registered before. -/
def Called (fd : Fd) (db : Database) (argv : List Bytes) (db' : Database) : Prop :=
  argv = [] ∧ db' = db ∨
    ∃ cmd args db₁, argv = cmd :: args ∧ Returned fd db cmd args db₁ ∧
      (db' = db₁ ∨ db' = db₁.setClient fd Client.regist)

/-- All that a command can do. -/
theorem call_ends (fd : Fd) (argv : List Bytes) (w : World) :
    Ends (call fd argv) w (fun _ w' => Called fd w.db argv w'.db)
      (fun e w' => ∃ cmd args, argv = cmd :: args ∧ Threw fd w.db cmd args e w'.db) := by
  cases argv with
  | nil => exact Or.inl ⟨rfl, rfl⟩
  | cons cmd args =>
      have hthrow : ∀ (e : Exn) (db' : Database), Threw fd w.db cmd args e db' →
          ∃ c a, cmd :: args = c :: a ∧ Threw fd w.db c a e db' :=
        fun _ _ h => ⟨cmd, args, rfl, h⟩
      rw [call]
      cases hitem : cmds.lookup cmd with
      | none => exact hthrow _ _ (threw_ofERR (by decide))
      | some item =>
          simp only [getuser, ends_bind, ends_get, ends_orUndefined, ends_ite, ends_throwErr,
            ends_pure]
          refine ⟨fun client _ => ⟨fun _ => hthrow _ _ (threw_ofERR (by decide)), fun _ =>
            ⟨fun _ => hthrow _ _ (threw_ofERR (by decide)), fun _ => ?_⟩⟩,
            fun _ => hthrow _ _ .undefined⟩
          refine (cmds_handles hitem fd args w).mono (fun _ w' hret => ⟨fun _ => ?_, fun _ => ?_⟩)
            (fun e w' h => hthrow e w'.db h)
          · exact Or.inr ⟨cmd, args, w'.db, rfl, hret, Or.inl rfl⟩
          · simp only [welcome, getuser, ends_bind, ends_get, ends_orUndefined, ends_update,
              ends_send, World.send_db, World.update_db]
            exact ⟨fun _ _ => Or.inr ⟨cmd, args, w'.db, rfl, hret, Or.inr rfl⟩,
              fun _ => hthrow _ _ .undefined⟩

/-! ## Steps -/

/-- The steps of the controller. -/
inductive Happens : Database → Event → Shown → Database → Prop
  | clientAdd {db fd info host} (hfree : fd ∉ db.clients) :
      Happens db (.clientAdd fd info host) ⟨.done, []⟩ (db.clientAdd fd info host)
  | call {db fd argv shown db'} (hconn : fd ∈ db.clients)
      (hcall : runCall db fd argv = some (db', shown)) : Happens db (.call fd argv) shown db'
  | clientDel {db fd} : Happens db (.clientDel fd) ⟨.done, []⟩ (db.clientDel fd)

theorem next_iff_happens {db db' : Database} {a : Event} {shown : Shown} :
    next db a = some (db', shown) ↔ Happens db a shown db' := by
  constructor
  · intro h
    cases a with
    | clientAdd fd info host =>
        rw [next] at h
        split_ifs at h with hfree
        cases h
        exact .clientAdd hfree
    | call fd argv =>
        rw [next] at h
        split_ifs at h with hconn
        exact .call hconn h
    | clientDel fd =>
        cases h
        exact .clientDel
  · rintro (hfree | ⟨hconn, hcall⟩ | _)
    · exact if_neg hfree
    · exact (if_pos hconn).trans hcall
    · rfl

/-- A command that returns. -/
theorem called_of_runCall {db db' : Database} {fd : Fd} {argv : List Bytes} {out : List Sent}
    (h : runCall db fd argv = some (db', ⟨.done, out⟩)) : Called fd db argv db' := by
  have hends := call_ends fd argv ⟨db, []⟩
  unfold runCall at h
  split at h
  · next hrun =>
      cases h
      exact hends.of_ok hrun
  · cases h
  · cases h
  · cases h

/-- A command that throws. -/
theorem threw_of_runCall {db db' : Database} {fd : Fd} {argv : List Bytes} {shown : Shown}
    (h : runCall db fd argv = some (db', shown)) (hthrow : shown.outcome ≠ .done) :
    ∃ cmd args e, argv = cmd :: args ∧ Threw fd db cmd args e db' ∧ e ≠ .undefined ∧
      ∀ msg, shown.outcome = .cmdMsg msg → e = .cmdMsg msg := by
  have hends := call_ends fd argv ⟨db, []⟩
  unfold runCall at h
  split at h
  · cases h
    exact absurd rfl hthrow
  · next hrun =>
      cases h
      obtain ⟨cmd, args, hargv, hthrew⟩ := hends.of_error hrun
      exact ⟨cmd, args, _, hargv, hthrew, by simp, by rintro msg ⟨⟩; rfl⟩
  · next hrun =>
      cases h
      obtain ⟨cmd, args, hargv, hthrew⟩ := hends.of_error hrun
      exact ⟨cmd, args, _, hargv, hthrew, by simp, by rintro msg ⟨⟩⟩
  · cases h

end Mircd
