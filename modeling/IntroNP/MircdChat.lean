/-
# The chat that mircd keeps

What the server is for, without its tables: people with nicknames, channels with topics, and who is
on which channel.  Each of these is kept once, so nothing can disagree; the replies are what follows
from them, up to the order in which a channel or the server lists its people.

* `Chat`, `Person` : the state of the chat;
* `Does`, `Chat.Calls`, `Chat.Next` : what a command does and who is told about it;
* `chat` : the chat of a database;
* `Simulates` : a handler does what its command does;
* `chat_call`, `chat_next` : as long as the records of the database agree, its steps are steps of
  the chat;
* `chat_run` : so are the runs in which clients leave their channels before they are removed, and no
  nickname is rejected.
-/
import IntroNP.MircdDispatch
import IntroNP.MircdDelivery
import IntroNP.MircdNicknames

namespace Mircd

open Machine

/-! ## The chat -/

/-- Somebody who is connected. -/
@[ext] structure Person where
  /-- The nickname, if one has been chosen. -/
  nick : Option Bytes
  /-- `USER` has been given. -/
  user : Bool
  /-- The person has been welcomed. -/
  welcome : Bool
  /-- Where the person is. -/
  host : Bytes

/-- The nickname in replies. -/
def Person.name (p : Person) : Bytes := p.nick.getD []

/-- The state of the chat. -/
@[ext] structure Chat where
  /-- Who is connected. -/
  people : Fd → Option Person
  /-- The topics of the channels that there are. -/
  topic : Bytes → Option Bytes
  /-- Who is on which channel. -/
  on : Fd → Bytes → Prop

namespace Chat

/-- The nickname of a person. -/
def nameOf (c : Chat) (fd : Fd) : Bytes := ((c.people fd).map Person.name).getD []

/-- Another person, or the same one changed. -/
def setPerson (c : Chat) (fd : Fd) (p : Option Person) : Chat :=
  { c with people := Function.update c.people fd p }

/-- The channel is there, with its topic or a new one without. -/
def opened (c : Chat) (name : Bytes) : Chat :=
  { c with topic := Function.update c.topic name (some ((c.topic name).getD [])) }

/-- A person comes to a channel. -/
def joined (c : Chat) (fd : Fd) (name : Bytes) : Chat :=
  { c.opened name with on := fun f n => f = fd ∧ n = name ∨ c.on f n }

/-- A person leaves a channel. -/
def parted (c : Chat) (fd : Fd) (name : Bytes) : Chat :=
  { c with on := fun f n => ¬ (f = fd ∧ n = name) ∧ c.on f n }

/-- A channel gets another topic. -/
def retitled (c : Chat) (name topic : Bytes) : Chat :=
  { c with topic := Function.update c.topic name (some topic) }

/-- A channel of the name is there, or can be. -/
def CanOpen (c : Chat) (name : Bytes) : Prop :=
  (c.topic name).isSome = true ∨ Channel.accepts name = true

/-! ## Replies -/

/-- A list of all that have a property, each of them once. -/
def Lists {α : Type} (l : List α) (P : α → Prop) : Prop := l.Nodup ∧ ∀ a, a ∈ l ↔ P a

/-- The topic of a channel. -/
def topicReply (name topic : Bytes) : CmdMsg :=
  if topic.isEmpty then .ofRPL .NOTOPIC [name, ascii "No topic is set"]
  else .ofRPL .TOPIC [name, topic]

/-- The people on a channel. -/
def namesReply (c : Chat) (name : Bytes) (l : List Fd) : List CmdMsg :=
  (if l.isEmpty then [] else [.ofRPL .NAMREPLY [name, usersstr (l.map c.nameOf)]])
    ++ [.ofRPL .ENDOFNAMES [name, ascii "End of /NAMES list"]]

/-- The channels with the number of people on them. -/
def listReply (c : Chat) (names : List Bytes) (order : Bytes → List Fd) : List CmdMsg :=
  .ofRPL .LISTSTART [ascii "Channel :Users  Name"] ::
    (names.map (fun n => .ofRPL .LIST [n, dec (order n).length, (c.topic n).getD []])
      ++ [.ofRPL .LISTEND [ascii "End of LIST"]])

/-- All the people. -/
def usersReply (c : Chat) (l : List Fd) : List CmdMsg :=
  let mxname := (l.map c.nameOf).foldl (fun n nick => max n nick.length) 6
  .ofRPL .USERSSTART [usersRow mxname (ascii "UserID") (ascii "Terminal") (ascii "Host")] ::
    l.map fun f => .ofRPL .USERS
      [usersRow mxname (c.nameOf f) (ascii "-") (((c.people f).map Person.host).getD [])]

/-- A line to each of some people. -/
def tell (l : List Fd) (cmd : CmdMsg) (nick : Bytes) : List Sent :=
  l.map fun f => (f, sendcmdsStr [cmd] nick)

end Chat

/-! ## Commands -/

/-- What the command of a person does: the chat afterwards, how it ends, and what is sent. -/
inductive Does (c : Chat) (fd : Fd) (p : Person) :
    Bytes → List Bytes → Chat → Outcome → List Sent → Prop
  | nickNone : Does c fd p (ascii "NICK") [] c
      (.cmdMsg (.ofERR .NONICKNAMEGIVEN [ascii "No nickname given"])) []
  | nickTaken {n rest f q} (hf : c.people f = some q) (hq : q.nick = some n) :
      Does c fd p (ascii "NICK") (n :: rest) c
        (.cmdMsg (.ofERR .NICKCOLLISION [n, ascii "Nickname collision KILL"])) []
  | nick {n rest} (hfree : ∀ f q, c.people f = some q → q.nick ≠ some n) :
      Does c fd p (ascii "NICK") (n :: rest) (c.setPerson fd (some { p with nick := some n })) .done
        (match p.nick with
          | some old => [(fd, sendcmdsStr [.ofText "NICK" [n]] old)]
          | none => [])
  | userAgain {args} (hp : p.welcome = true) : Does c fd p (ascii "USER") args c
      (.cmdMsg (.ofERR .ALREADYREGISTRED [ascii "You may not reregister"])) []
  | user {args} (hp : p.welcome = false) :
      Does c fd p (ascii "USER") args (c.setPerson fd (some { p with user := true })) .done []
  | quit {args} : Does c fd p (ascii "QUIT") args c .disconnect []
  | joinNone {name rest} (hname : ¬ c.CanOpen name) : Does c fd p (ascii "JOIN") (name :: rest) c
      (.cmdMsg (.ofERR .NOSUCHCHANNEL [name, ascii "No such channel"])) []
  | join {name rest l} (hname : c.CanOpen name)
      (hl : Chat.Lists l fun f => (c.joined fd name).on f name) :
      Does c fd p (ascii "JOIN") (name :: rest) (c.joined fd name) .done
        (Chat.tell l (.ofText "JOIN" [name]) p.name
          ++ [(fd, sendcmdsStr [Chat.topicReply name ((c.topic name).getD [])] name),
            (fd, sendcmdsStr (c.namesReply name l) p.name)])
  | partNone {name rest} (hname : c.topic name = none) : Does c fd p (ascii "PART") (name :: rest) c
      (.cmdMsg (.ofERR .NOSUCHCHANNEL [name, ascii "No such channel"])) []
  | partOff {name rest} (hname : (c.topic name).isSome = true) (hoff : ¬ c.on fd name) :
      Does c fd p (ascii "PART") (name :: rest) c
        (.cmdMsg (.ofERR .NOTONCHANNEL [name, ascii "You're not on that channel"])) []
  | part {name rest l} (hon : c.on fd name) (hl : Chat.Lists l fun f => c.on f name) :
      Does c fd p (ascii "PART") (name :: rest) (c.parted fd name) .done
        (Chat.tell l (.ofText "PART" [name, rest.head?.getD Channel.defaultPartMsg]) p.name)
  | topicNone {name rest} (hname : c.topic name = none) :
      Does c fd p (ascii "TOPIC") (name :: rest) c
        (.cmdMsg (.ofERR .NOSUCHCHANNEL [name, ascii "No such channel"])) []
  | topicOff {name rest} (hname : (c.topic name).isSome = true) (hoff : ¬ c.on fd name) :
      Does c fd p (ascii "TOPIC") (name :: rest) c
        (.cmdMsg (.ofERR .NOTONCHANNEL [name, ascii "You're not on that channel"])) []
  | topicAsk {name topic} (hname : c.topic name = some topic) (hon : c.on fd name) :
      Does c fd p (ascii "TOPIC") [name] c .done
        [(fd, sendcmdsStr [Chat.topicReply name topic] p.name)]
  | topic {name topic rest l} (hon : c.on fd name) (hl : Chat.Lists l fun f => c.on f name) :
      Does c fd p (ascii "TOPIC") (name :: topic :: rest) (c.retitled name topic) .done
        (Chat.tell l (.ofText "TOPIC" [name, topic]) p.name)
  | namesAll {names : List Bytes} {order : Bytes → List Fd}
      (hnames : Chat.Lists names fun n => (c.topic n).isSome = true)
      (horder : ∀ n ∈ names, Chat.Lists (order n) fun f => c.on f n) :
      Does c fd p (ascii "NAMES") [] c .done
        [(fd, sendcmdsStr (names.flatMap fun n => c.namesReply n (order n)) p.name)]
  | namesNone {name rest} (hname : ¬ c.CanOpen name) : Does c fd p (ascii "NAMES") (name :: rest) c
      (.cmdMsg (.ofERR .NOSUCHCHANNEL [name, ascii "No such channel"])) []
  | names {name rest l} (hname : c.CanOpen name) (hl : Chat.Lists l fun f => c.on f name) :
      Does c fd p (ascii "NAMES") (name :: rest) (c.opened name) .done
        [(fd, sendcmdsStr (c.namesReply name l) p.name)]
  | list {args names : List Bytes} {order : Bytes → List Fd}
      (hnames : Chat.Lists names fun n => (c.topic n).isSome = true ∧ ∀ m ∈ args.head?, n = m)
      (horder : ∀ n ∈ names, Chat.Lists (order n) fun f => c.on f n) :
      Does c fd p (ascii "LIST") args c .done [(fd, sendcmdsStr (c.listReply names order) p.name)]
  | privmsgNobody : Does c fd p (ascii "PRIVMSG") [] c
      (.cmdMsg (.ofERR .NORECIPIENT [ascii "No recipient given (PRIVMSG)"])) []
  | privmsgNothing {name} : Does c fd p (ascii "PRIVMSG") [name] c
      (.cmdMsg (.ofERR .NOTEXTTOSEND [ascii "No text to send"])) []
  | privmsgNone {name text rest} (hname : c.topic name = none) :
      Does c fd p (ascii "PRIVMSG") (name :: text :: rest) c
        (.cmdMsg (.ofERR .NOSUCHNICK [name, ascii "No such nick/channel"])) []
  | privmsg {name text rest l} (hname : (c.topic name).isSome = true)
      (hl : Chat.Lists l fun f => c.on f name ∧ f ≠ fd) :
      Does c fd p (ascii "PRIVMSG") (name :: text :: rest) c .done
        (Chat.tell l (.ofText "PRIVMSG" [name, text]) p.name)
  | pingNone : Does c fd p (ascii "PING") [] c
      (.cmdMsg (.ofERR .NOORIGIN [ascii "No origin specified"])) []
  | ping {a rest} : Does c fd p (ascii "PING") (a :: rest) c .done [(fd, ascii "PONG\n")]
  | users {args l} (hl : Chat.Lists l fun f => (c.people f).isSome = true) :
      Does c fd p (ascii "USERS") args c .done [(fd, sendcmdsStr (c.usersReply l) [])]

/-- The number of parameters a command needs, if it is one. -/
def parmMin (cmd : Bytes) : Option ℕ := (cmds.lookup cmd).map CmdItem.parmMin

/-- A person who has not been welcomed may give three commands only. -/
def Person.MayGive (p : Person) (cmd : Bytes) : Prop := p.welcome = true ∨ cmd ∈ unregAllow

/-- What a line of a person does. -/
inductive Chat.Calls (c : Chat) (fd : Fd) (p : Person) :
    List Bytes → Chat → Outcome → List Sent → Prop
  | empty : Calls c fd p [] c .done []
  | unknown {cmd args} (hcmd : parmMin cmd = none) : Calls c fd p (cmd :: args) c
      (.cmdMsg (.ofERR .UNKNOWNCOMMAND [cmd, ascii "Unknown command"])) []
  | unregistered {cmd args} (hcmd : (parmMin cmd).isSome = true) (hmay : ¬ p.MayGive cmd) :
      Calls c fd p (cmd :: args) c
        (.cmdMsg (.ofERR .NOTREGISTERED [ascii "You have not registered"])) []
  | params {cmd args n} (hcmd : parmMin cmd = some n) (hmay : p.MayGive cmd)
      (hargs : args.length < n) : Calls c fd p (cmd :: args) c
        (.cmdMsg (.ofERR .NEEDMOREPARAMS [cmd, ascii "Not enough parameters"])) []
  | fails {cmd args n outcome sent} {c' : Chat} (hcmd : parmMin cmd = some n)
      (hmay : p.MayGive cmd) (hargs : n ≤ args.length) (hdone : outcome ≠ .done)
      (hdoes : Does c fd p cmd args c' outcome sent) : Calls c fd p (cmd :: args) c' outcome sent
  | does {cmd args n sent} {p' : Person} {c' : Chat} (hcmd : parmMin cmd = some n)
      (hmay : p.MayGive cmd) (hargs : n ≤ args.length) (hdoes : Does c fd p cmd args c' .done sent)
      (hp' : c'.people fd = some p') (hnot : p.welcome = true ∨ p'.nick = none ∨ p'.user = false) :
      Calls c fd p (cmd :: args) c' .done sent
  | welcomes {cmd args n sent} {p' : Person} {c' : Chat} (hcmd : parmMin cmd = some n)
      (hmay : p.MayGive cmd) (hargs : n ≤ args.length) (hdoes : Does c fd p cmd args c' .done sent)
      (hp' : c'.people fd = some p') (hwelcome : p.welcome = false) (hnick : p'.nick ≠ none)
      (huser : p'.user = true) :
      Calls c fd p (cmd :: args) (c'.setPerson fd (some { p' with welcome := true })) .done
        (sent ++ [(fd, sendcmdsStr welcomeCmds p'.name)])

/-- The steps of the chat. -/
inductive Chat.Next (c : Chat) : Event → Chat → Shown → Prop
  | comes {fd info host} (hfd : c.people fd = none) :
      Next c (.clientAdd fd info host) (c.setPerson fd (some ⟨none, false, false, host⟩))
        ⟨.done, []⟩
  | speaks {fd argv outcome sent} {c' : Chat} {p : Person} (hp : c.people fd = some p)
      (hcalls : Chat.Calls c fd p argv c' outcome sent) :
      Next c (.call fd argv) c' ⟨outcome, sent⟩
  | goes {fd} (hfd : ∀ n, ¬ c.on fd n) :
      Next c (.clientDel fd) (c.setPerson fd none) ⟨.done, []⟩

/-- The runs of the chat. -/
inductive Chat.Run : List (Event × Shown) → Chat → Prop
  | start : Run [] ⟨fun _ => none, fun _ => none, fun _ _ => False⟩
  | next {past a shown} {c c' : Chat} (hrun : Run past c) (hnext : Chat.Next c a c' shown) :
      Run ((a, shown) :: past) c'

/-! ## The chat of a database -/

/-- The person that a client is. -/
def Client.person (cl : Client) : Person where
  nick := if cl.hasNick then some cl.nickname else none
  user := cl.status.user
  welcome := cl.hasRegist
  host := cl.host

/-- The chat of a database. -/
def chat (db : Database) : Chat where
  people := fun fd => (db.clients.lookup fd).map Client.person
  topic := fun name => (db.channels.lookup name).map Channel.topic
  on := fun fd name => db.IsMember fd name

/-- The records of the database agree. -/
structure Sound (db : Database) : Prop where
  /-- Who is on which channel. -/
  membership : Membership db
  /-- The nicknames. -/
  nickTable : NickTable db

section changes

variable {db db' : Database} {fd : Fd} {client : Client}

theorem chat_people (hclient : db.clients.lookup fd = some client) :
    (chat db).people fd = some client.person := by
  show (db.clients.lookup fd).map Client.person = _
  rw [hclient]
  rfl

theorem nick_person {n : Bytes} :
    client.person.nick = some n ↔ client.hasNick = true ∧ client.nickname = n := by
  show (if client.hasNick then some client.nickname else none) = some n ↔ _
  split_ifs with hnick <;> simp [hnick]

/-- A nickname is in use when somebody has it. -/
theorem Sound.nickInUse (h : Sound db) {n : Bytes} : n ∈ db.nickMp ↔
    ∃ f q, (chat db).people f = some q ∧ q.nick = some n := by
  constructor
  · intro hin
    obtain ⟨f, cl, hcl, hnick, hname⟩ := h.nickTable.owner hin
    exact ⟨f, cl.person, chat_people hcl, nick_person.mpr ⟨hnick, hname⟩⟩
  · rintro ⟨f, q, hq, hn⟩
    obtain ⟨cl, hcl, rfl⟩ := Option.map_eq_some_iff.mp hq
    obtain ⟨hnick, hname⟩ := nick_person.mp hn
    exact Table.mem_of_lookup ((h.nickTable.table n _).mpr ⟨f, cl, hcl, hnick, hname, rfl⟩)

/-- The nickname in replies is the one of the client. -/
theorem Sound.name (h : Sound db) (hclient : db.clients.lookup fd = some client) :
    client.person.name = client.nickname := by
  have hnamed := h.nickTable.named fd client hclient
  show (if client.hasNick then some client.nickname else none).getD [] = _
  by_cases hnick : client.hasNick = true
  · rw [if_pos hnick]
    rfl
  · rw [if_neg hnick]
    by_contra hne
    exact hnick (hnamed.mpr (Ne.symm hne))

theorem Sound.nameOf (h : Sound db) (hclient : db.clients.lookup fd = some client) :
    (chat db).nameOf fd = client.nickname := by
  rw [Chat.nameOf, chat_people hclient]
  exact h.name hclient

/-- A change of a client that leaves its channels. -/
theorem chat_setClient (hclient : db.clients.lookup fd = some client) {g : Client → Client}
    (hchannels : ∀ cl, (g cl).channels = cl.channels) :
    chat (db.setClient fd g) = (chat db).setPerson fd (some (g client).person) := by
  ext1
  · funext f
    show ((db.setClient fd g).clients.lookup f).map Client.person
      = Function.update (chat db).people fd _ f
    rw [lookup_setClient, Function.update_apply]
    by_cases hf : f = fd
    · rw [if_pos hf, if_pos hf, hf, hclient]
      rfl
    · rw [if_neg hf, if_neg hf]
      rfl
  · rfl
  · funext f n
    apply propext
    exact isMember_setClient hchannels

theorem isSome_topic {name : Bytes} :
    ((chat db).topic name).isSome = true ↔ name ∈ db.channels := by
  show ((db.channels.lookup name).map Channel.topic).isSome = true ↔ _
  rw [Option.isSome_map, AList.lookup_isSome]

theorem topic_eq_none {name : Bytes} : (chat db).topic name = none ↔ name ∉ db.channels := by
  rw [← isSome_topic, Option.not_isSome_iff_eq_none]

theorem on_iff (hclient : db.clients.lookup fd = some client) {name : Bytes} :
    (chat db).on fd name ↔ name ∈ client.channels := by
  constructor
  · rintro ⟨cl, hcl, hin⟩
    obtain rfl : client = cl := Option.some.inj (hclient.symm.trans hcl)
    exact hin
  · intro hin
    exact ⟨client, hclient, hin⟩

/-- The topic of a channel stays, and a new channel has none. -/
theorem topic_getchannel {name : Bytes} (h : db.getchannel name = some db') :
    (db'.channels.lookup name).map Channel.topic = some (((chat db).topic name).getD []) := by
  show _ = some (((db.channels.lookup name).map Channel.topic).getD [])
  unfold Database.getchannel at h
  split_ifs at h with hin haccept
  · cases h
    obtain ⟨channel, hchannel⟩ := Table.mem_iff_lookup.mp hin
    rw [hchannel]
    rfl
  · cases h
    rw [AList.lookup_insert, AList.lookup_eq_none.mpr hin]
    rfl

/-- The channel is there afterwards. -/
theorem chat_getchannel {name : Bytes} (h : db.getchannel name = some db') :
    chat db' = (chat db).opened name := by
  obtain ⟨hclients, -⟩ := getchannel_frame h
  have hlookup := lookup_getchannel h
  ext1
  · show (fun f => (db'.clients.lookup f).map Client.person) = (chat db).people
    rw [hclients]
    rfl
  · funext n
    show (db'.channels.lookup n).map Channel.topic = Function.update (chat db).topic name _ n
    rw [Function.update_apply]
    by_cases hn : n = name
    · rw [if_pos hn, hn]
      exact topic_getchannel h
    · rw [if_neg hn, (hlookup n).1 (Or.inl hn)]
      rfl
  · funext f n
    show db'.IsMember f n = db.IsMember f n
    rw [Database.IsMember, hclients, ← Database.IsMember]

theorem getchannel_eq_none_iff {name : Bytes} :
    db.getchannel name = none ↔ ¬ (chat db).CanOpen name := by
  rw [Chat.CanOpen, isSome_topic]
  unfold Database.getchannel
  by_cases hin : name ∈ db.channels
  · simp [hin]
  · by_cases haccept : Channel.accepts name = true <;> simp [hin, haccept]

theorem canOpen_of_getchannel {name : Bytes} (h : db.getchannel name = some db') :
    (chat db).CanOpen name := by
  by_contra hnot
  rw [← getchannel_eq_none_iff, h] at hnot
  cases hnot

/-- A change of a client that keeps its names. -/
theorem person_setClient {g : Client → Client} (hg : Client.person ∘ g = Client.person) (f : Fd) :
    ((db.setClient fd g).clients.lookup f).map Client.person
      = (db.clients.lookup f).map Client.person := by
  rw [lookup_setClient]
  split_ifs
  · rw [Option.map_map, hg]
  · rfl

/-- A change of a channel that keeps its topic. -/
theorem topic_setChannel {name : Bytes} {g : Channel → Channel}
    (hg : Channel.topic ∘ g = Channel.topic) (n : Bytes) :
    ((db.setChannel name g).channels.lookup n).map Channel.topic
      = (db.channels.lookup n).map Channel.topic := by
  rw [lookup_setChannel]
  split_ifs
  · rw [Option.map_map, hg]
  · rfl

/-- Somebody is on a channel that is there. -/
theorem chat_join {name : Bytes} (hclient : db.clients.lookup fd = some client) :
    chat (db.joined fd client name)
      = { chat db with on := fun f n => f = fd ∧ n = name ∨ (chat db).on f n } := by
  ext1
  · funext f
    exact person_setClient (g := Client.join name) rfl f
  · funext n
    show ((db.joined fd client name).channels.lookup n).map Channel.topic
      = (db.channels.lookup n).map Channel.topic
    rw [Database.joined, topic_setChannel (g := Channel.addUser fd _) rfl, setClient_channels]
  · funext f n
    apply propext
    show (db.joined fd client name).IsMember f n ↔ _ ∨ db.IsMember f n
    rw [← memberRef_isSome, memberRef_join hclient, ← memberRef_isSome]
    by_cases hhit : f = fd ∧ n = name
    · simp [hhit]
    · simp [hhit]

theorem chat_part (name : Bytes) : chat (db.parted fd name) = (chat db).parted fd name := by
  ext1
  · funext f
    exact person_setClient (g := Client.part name) rfl f
  · funext n
    show ((db.parted fd name).channels.lookup n).map Channel.topic
      = (db.channels.lookup n).map Channel.topic
    rw [Database.parted, topic_setChannel (g := Channel.delUser fd) rfl, setClient_channels]
  · funext f n
    apply propext
    show (db.parted fd name).IsMember f n ↔ ¬ _ ∧ db.IsMember f n
    rw [← memberRef_isSome, memberRef_part, ← memberRef_isSome]
    by_cases hhit : f = fd ∧ n = name
    · simp [hhit]
    · simp [hhit]

theorem chat_setTopic {name : Bytes} (hin : name ∈ db.channels) (topic : Bytes) :
    chat (db.setChannel name (Channel.setTopic topic)) = (chat db).retitled name topic := by
  obtain ⟨channel, hchannel⟩ := Table.mem_iff_lookup.mp hin
  ext1
  · rfl
  · funext n
    show ((db.setChannel name _).channels.lookup n).map Channel.topic
      = Function.update (chat db).topic name _ n
    rw [lookup_setChannel, Function.update_apply]
    by_cases hn : n = name
    · rw [if_pos hn, if_pos hn, hn, hchannel]
      rfl
    · rw [if_neg hn, if_neg hn]
      rfl
  · rfl

end changes

/-! ## What is listed -/

section listing

variable {db : Database} {name : Bytes} {channel : Channel}

theorem Sound.lists_users (h : Sound db) (hchannel : db.channels.lookup name = some channel) :
    Chat.Lists channel.users.keys fun f => (chat db).on f name := by
  refine ⟨channel.users.keys_nodup, fun f => ?_⟩
  show f ∈ channel.users.keys ↔ db.IsMember f name
  rw [← h.membership.mem_users hchannel, AList.mem_keys]

/-- The people on a channel, in the order in which the channel has them. -/
def Database.usersOf (db : Database) (name : Bytes) : List Fd :=
  ((db.channels.lookup name).map fun channel => channel.users.keys).getD []

theorem usersOf_eq (hchannel : db.channels.lookup name = some channel) :
    db.usersOf name = channel.users.keys := by
  rw [Database.usersOf, hchannel]
  rfl

theorem Sound.lists_usersOf (h : Sound db) (hin : name ∈ db.channels) :
    Chat.Lists (db.usersOf name) fun f => (chat db).on f name := by
  obtain ⟨channel, hchannel⟩ := Table.mem_iff_lookup.mp hin
  rw [usersOf_eq hchannel]
  exact h.lists_users hchannel

theorem lists_channels : Chat.Lists db.channels.keys fun n => ((chat db).topic n).isSome = true :=
  ⟨db.channels.keys_nodup, fun _ => AList.mem_keys.symm.trans isSome_topic.symm⟩

theorem lists_clients : Chat.Lists db.clients.keys fun f => ((chat db).people f).isSome = true := by
  refine ⟨db.clients.keys_nodup, fun f => ?_⟩
  show _ ↔ ((db.clients.lookup f).map Client.person).isSome = true
  rw [Option.isSome_map, AList.lookup_isSome, AList.mem_keys]

/-- `gettopic` reads the topic. -/
theorem Sound.gettopic (h : Sound db) (hchannel : db.channels.lookup name = some channel) :
    channel.gettopic = Chat.topicReply name channel.topic := by
  rw [Channel.gettopic, h.membership.named name channel hchannel]
  rfl

/-- `getusers` finds everybody who is on the channel. -/
theorem Sound.getusers (h : Sound db) (hchannel : db.channels.lookup name = some channel) :
    db.getusers channel = some ((chat db).namesReply name channel.users.keys) := by
  let client := fun ref : ClientRef => (db.clients.lookup ref.fd).getD (Client.new 0 [] [])
  have huser : ∀ f ref, channel.users.lookup f = some ref →
      db.deref ref = some (client ref) ∧ (client ref).nickname = (chat db).nameOf f := by
    intro f ref href
    rw [h.membership.users name channel hchannel, Database.memberRef,
      Option.bind_eq_some_iff] at href
    obtain ⟨cl, hcl, href⟩ := href
    split_ifs at href
    cases href
    have hclient : client ⟨f, cl.id⟩ = cl := by
      show (db.clients.lookup f).getD _ = cl
      rw [hcl]
      rfl
    rw [hclient, h.nameOf hcl]
    exact ⟨by simp [Database.deref, hcl], rfl⟩
  have husers : (Table.values channel.users).mapM db.deref
      = some ((Table.values channel.users).map client) := by
    refine mapM_eq_some fun ref href => ?_
    obtain ⟨⟨f, r⟩, hentry, rfl⟩ := List.mem_map.mp href
    exact (huser f r (Table.mem_entries_iff.mp hentry)).1
  have hnames : ((Table.values channel.users).map client).map Client.nickname
      = channel.users.keys.map (chat db).nameOf := by
    rw [List.map_map]
    exact Table.map_values fun f ref href => (huser f ref href).2
  have hempty : ((Table.values channel.users).map client).isEmpty
      = channel.users.keys.isEmpty := by
    show ((channel.users.entries.map Sigma.snd).map client).isEmpty
      = (channel.users.entries.map Sigma.fst).isEmpty
    rw [List.isEmpty_map, List.isEmpty_map, List.isEmpty_map]
  rw [Database.getusers, husers, Option.bind_eq_bind, Option.bind_some, hempty, hnames,
    h.membership.named name channel hchannel, Chat.namesReply]
  split_ifs <;> rfl

/-- So `getusers` does for all channels. -/
theorem Sound.mapM_getusers (h : Sound db) :
    (Table.values db.channels).mapM db.getusers
      = some (db.channels.keys.map fun n => (chat db).namesReply n (db.usersOf n)) := by
  have hreply : ∀ n c, db.channels.lookup n = some c →
      (chat db).namesReply c.name c.users.keys = (chat db).namesReply n (db.usersOf n) := by
    intro n c hc
    rw [h.membership.named n c hc, usersOf_eq hc]
  rw [← Table.map_values hreply]
  refine mapM_eq_some fun c hmem => ?_
  obtain ⟨⟨n, c⟩, hentry, rfl⟩ := List.mem_map.mp hmem
  have hc := Table.mem_entries_iff.mp hentry
  rw [h.getusers hc, h.membership.named n c hc]

/-- A handler keeps the records in agreement. -/
theorem Sound.returned (h : Sound db) {db' : Database} {fd : Fd} {cmd : Bytes} {args : List Bytes}
    (hret : Returned fd db cmd args db') : Sound db' :=
  ⟨h.membership.returned hret, h.nickTable.returned hret⟩

end listing

/-! ## The handlers -/

/-- How a command ends that throws. -/
def Exn.outcome : Exn → Option Outcome
  | .cmdMsg msg => some (.cmdMsg msg)
  | .disconnect => some .disconnect
  | .undefined => none

/-- The program does what the command of the client does in the chat. -/
def Simulates (db : Database) (fd : Fd) (client : Client) (cmd : Bytes) (args : List Bytes)
    (m : M PUnit) : Prop :=
  Ends m ⟨db, []⟩
    (fun _ w => Does (chat db) fd client.person cmd args (chat w.db) .done w.sent)
    (fun e w => ∃ outcome, e.outcome = some outcome ∧
      Does (chat db) fd client.person cmd args (chat w.db) outcome w.sent)

/-- A value that must be there, found or not. -/
theorem ends_orUndefined_iff {α : Type} {o : Option α} {w : World} {Q : α → World → Prop}
    {E : Exn → World → Prop} : Ends (orUndefined o) w Q E ↔
      match o with
      | some a => Q a w
      | none => E .undefined w := by
  cases o <;> exact Iff.rfl

/-- A channel, found or created or neither. -/
theorem ends_getchannel_iff {name : Bytes} {w : World} {Q : PUnit → World → Prop}
    {E : Exn → World → Prop} : Ends (getchannel name) w Q E ↔
      match w.db.getchannel name with
      | some db => Q ⟨⟩ (w.update fun _ => db)
      | none => E (.cmdMsg (.ofERR .NOSUCHCHANNEL [name, ascii "No such channel"])) w := by
  rw [getchannel, ends_bind, ends_get]
  cases w.db.getchannel name <;> exact Iff.rfl

section handlers

variable {db : Database} {fd : Fd} {client : Client}

theorem nick_simulates (h : Sound db) (hclient : db.clients.lookup fd = some client)
    {args : List Bytes} (hC : NickAccepted db (.call fd (ascii "NICK" :: args))) :
    Simulates db fd client (ascii "NICK") args (nick fd args) := by
  cases args with
  | nil => exact ⟨_, rfl, .nickNone⟩
  | cons n rest =>
      simp only [Simulates, nick, changeNick, getuser, ends_bind, ends_get, ends_ite,
        ends_throwErr, ends_orUndefined_iff, ends_update, ends_send, World.update_db, hclient]
      refine ⟨fun hused => ?_, fun hfree => ?_⟩
      · obtain ⟨f, q, hq, hn⟩ := h.nickInUse.mp hused
        exact ⟨_, rfl, .nickTaken hq hn⟩
      · have hvalid : validNick n = true := (hC rfl).resolve_left hfree
        have hperson : client.person.nick = if client.hasNick then some client.nickname else none :=
          rfl
        refine ⟨fun hinvalid => ?_, fun _ => ?_⟩
        · rw [← validNick, hvalid] at hinvalid
          cases hinvalid
        · have hdoes : Does (chat db) fd client.person (ascii "NICK") (n :: rest) _ .done _ :=
            .nick fun f q hq hn => hfree (h.nickInUse.mpr ⟨f, q, hq, hn⟩)
          show Does _ _ _ _ _ (chat ((db.rename fd client n).setClient fd (Client.setNick n))) _ _
          have hrename : (db.rename fd client n).clients.lookup fd = some client := hclient
          rw [chat_setClient (g := Client.setNick n) hrename fun _ => rfl]
          rw [hperson] at hdoes
          by_cases hnick : client.hasNick = true
          · rw [if_pos hnick] at hdoes
            rw [if_pos hnick]
            exact hdoes
          · rw [if_neg hnick] at hdoes
            rw [if_neg hnick]
            exact hdoes

theorem user_simulates (hclient : db.clients.lookup fd = some client) {args : List Bytes}
    (hargs : 4 ≤ args.length) : Simulates db fd client (ascii "USER") args (user fd args) := by
  obtain _ | ⟨username, _ | ⟨hostname, _ | ⟨servername, _ | ⟨realname, rest⟩⟩⟩⟩ := args
  · exact absurd hargs (by decide)
  · exact absurd hargs (by simp)
  · exact absurd hargs (by simp)
  · exact absurd hargs (by simp)
  simp only [Simulates, user, arg, getuser, ends_bind, ends_get, ends_ite, ends_throwErr,
    ends_orUndefined_iff, ends_update, hclient, List.getElem?_cons_zero, List.getElem?_cons_succ]
  refine ⟨fun hagain => ⟨_, rfl, .userAgain hagain⟩, fun hfirst => ?_⟩
  show Does _ _ _ _ _ (chat (db.setClient fd _)) _ _
  rw [chat_setClient (g := Client.setUser username hostname servername realname) hclient
    fun _ => rfl]
  exact .user (Bool.not_eq_true _ ▸ hfirst)

theorem quit_simulates (args : List Bytes) :
    Simulates db fd client (ascii "QUIT") args (quit fd args) := ⟨_, rfl, .quit⟩

/-- `names` with the name of a channel, in any world. -/
theorem ends_names_channel {name : Bytes} {channel : Channel} {w : World} (h : Sound w.db)
    (hclient : w.db.clients.lookup fd = some client)
    (hchannel : w.db.channels.lookup name = some channel) (rest : List Bytes)
    {Q : PUnit → World → Prop} {E : Exn → World → Prop} :
    Ends (names fd (name :: rest)) w Q E ↔ Q ⟨⟩ (w.send [(fd, sendcmdsStr
      ((chat w.db).namesReply name channel.users.keys) client.person.name)]) := by
  have hget : w.db.getchannel name = some w.db :=
    getchannel_of_mem (Table.mem_of_lookup hchannel)
  rw [h.name hclient]
  simp only [names, getuser, readChannel, sendcmds, ends_bind, ends_get, ends_orUndefined_iff,
    ends_send, ends_getchannel_iff, hclient, hget, World.update, hchannel, h.getusers hchannel]

theorem names_simulates (h : Sound db) (hclient : db.clients.lookup fd = some client)
    (args : List Bytes) : Simulates db fd client (ascii "NAMES") args (names fd args) := by
  cases args with
  | nil =>
      simp only [Simulates, names, getuser, sendcmds, ends_bind, ends_get, ends_orUndefined_iff,
        ends_send, hclient, h.mapM_getusers]
      rw [← h.name hclient]
      exact .namesAll lists_channels fun n hn => h.lists_usersOf (AList.mem_keys.mpr hn)
  | cons name rest =>
      cases hget : db.getchannel name with
      | none =>
          simp only [Simulates, names, getuser, ends_bind, ends_get, ends_orUndefined_iff,
            ends_getchannel_iff, hclient, hget]
          exact ⟨_, rfl, .namesNone (getchannel_eq_none_iff.mp hget)⟩
      | some db' =>
          have h' : Sound db' := h.returned (.names hget : Returned fd db _ (name :: rest) db')
          obtain ⟨channel, hchannel⟩ := Table.mem_iff_lookup.mp (mem_getchannel hget)
          simp only [Simulates, names, getuser, readChannel, sendcmds, ends_bind, ends_get,
            ends_orUndefined_iff, ends_send, ends_getchannel_iff, hclient, hget, World.update,
            hchannel, h'.getusers hchannel]
          have hlists := h'.lists_users hchannel
          rw [← h.name hclient]
          show Does (chat db) fd client.person _ _ (chat db') .done
            [(fd, sendcmdsStr ((chat db').namesReply name channel.users.keys) client.person.name)]
          rw [chat_getchannel hget] at hlists ⊢
          exact .names (canOpen_of_getchannel hget) hlists

theorem join_simulates (h : Sound db) (hclient : db.clients.lookup fd = some client)
    {args : List Bytes} (hargs : 1 ≤ args.length) :
    Simulates db fd client (ascii "JOIN") args (join fd args) := by
  obtain ⟨name, rest, rfl⟩ := List.exists_cons_of_length_pos hargs
  cases hget : db.getchannel name with
  | none =>
      simp only [Simulates, join, arg, ends_bind, ends_orUndefined_iff, ends_getchannel_iff, hget,
        List.getElem?_cons_zero]
      exact ⟨_, rfl, .joinNone (getchannel_eq_none_iff.mp hget)⟩
  | some db' =>
      have hclient' : db'.clients.lookup fd = some client := by
        rw [(getchannel_frame hget).1, hclient]
      have h' : Sound (db'.joined fd client name) :=
        h.returned (.join hget hclient : Returned fd db _ (name :: rest) _)
      have hjoin : (db'.setClient fd (Client.join name)).clients.lookup fd
          = some (Client.join name client) := by
        rw [lookup_setClient, if_pos rfl, hclient']
        rfl
      have hjoined : (db'.setClient fd (Client.join name)).setChannel name
          (Channel.addUser fd ⟨fd, (Client.join name client).id⟩) = db'.joined fd client name := rfl
      have hin : name ∈ (db'.joined fd client name).channels := by
        refine Table.mem_modify.mpr ?_
        exact (mem_getchannel hget : name ∈ db'.channels)
      obtain ⟨channel, hchannel⟩ := Table.mem_iff_lookup.mp hin
      simp only [Simulates, join, channelAdd, arg, getuser, readChannel, sendcmd, sendcmds,
        broadcast, ends_bind, ends_get, ends_orUndefined_iff, ends_getchannel_iff, ends_update,
        ends_send, hget, List.getElem?_cons_zero, World.update, World.send, hjoin, hjoined,
        hchannel]
      rw [ends_names_channel h' hjoin hchannel]
      have hstate : chat (db'.joined fd client name) = (chat db).joined fd name := by
        rw [chat_join hclient', chat_getchannel hget]
        rfl
      have hlists := h'.lists_users hchannel
      have htopic : (chat (db'.joined fd client name)).topic name = some channel.topic := by
        show ((db'.joined fd client name).channels.lookup name).map Channel.topic = _
        rw [hchannel]
        rfl
      rw [hstate] at hlists htopic
      have hopened : ((chat db).joined fd name).topic name
          = some (((chat db).topic name).getD []) := Function.update_self ..
      have hname : ((chat db).topic name).getD [] = channel.topic :=
        Option.some.inj (hopened.symm.trans htopic)
      have hdoes : Does (chat db) fd client.person (ascii "JOIN") (name :: rest) _ .done _ :=
        .join (canOpen_of_getchannel hget) hlists
      rw [hname, h.name hclient, ← h'.gettopic hchannel] at hdoes
      show Does _ _ _ _ _ (chat (db'.joined fd client name)) .done
        (_ ++ _ ++ [(fd, sendcmdsStr ((chat (db'.joined fd client name)).namesReply name
          channel.users.keys) _)])
      have hperson : (Client.join name client).person.name = client.nickname :=
        (h.name hclient : client.person.name = _)
      rw [hstate, hperson, List.nil_append, List.append_assoc]
      exact hdoes

theorem part_simulates (h : Sound db) (hclient : db.clients.lookup fd = some client)
    {args : List Bytes} (hargs : 1 ≤ args.length) :
    Simulates db fd client (ascii "PART") args (part fd args) := by
  obtain ⟨name, rest, rfl⟩ := List.exists_cons_of_length_pos hargs
  simp only [Simulates, part, channelDel, arg, getuser, readChannel, broadcast, ends_bind,
    ends_get, ends_ite, ends_throwErr, ends_orUndefined_iff, ends_update, ends_send,
    List.getElem?_cons_zero, World.update, World.send, hclient]
  refine ⟨fun hnone => ⟨_, rfl, .partNone (topic_eq_none.mpr hnone)⟩, fun hin => ?_⟩
  rw [not_not] at hin
  refine ⟨fun hoff => ⟨_, rfl, .partOff (isSome_topic.mpr hin) ?_⟩, fun hon => ?_⟩
  · rw [on_iff hclient]
    exact hoff
  · rw [not_not] at hon
    obtain ⟨channel, hchannel⟩ := Table.mem_iff_lookup.mp hin
    have href : channel.users.lookup fd = some ⟨fd, client.id⟩ := by
      rw [h.membership.users name channel hchannel, Database.memberRef, hclient]
      exact if_pos hon
    have hderef : (db.setClient fd (Client.part name)).deref ⟨fd, client.id⟩
        = some (Client.part name client) := by
      simp [Database.deref, lookup_setClient, hclient, Client.part]
    have hdoes : Does (chat db) fd client.person (ascii "PART") (name :: rest) _ .done _ :=
      .part ((on_iff hclient).mpr hon) (h.lists_users hchannel)
    rw [h.name hclient, ← chat_part, List.head?_eq_getElem?] at hdoes
    simp only [setClient_channels, hchannel, href, hderef]
    exact hdoes

theorem topic_simulates (h : Sound db) (hclient : db.clients.lookup fd = some client)
    {args : List Bytes} (hargs : 1 ≤ args.length) :
    Simulates db fd client (ascii "TOPIC") args (topic fd args) := by
  obtain ⟨name, rest, rfl⟩ := List.exists_cons_of_length_pos hargs
  simp only [Simulates, topic, arg, getuser, readChannel, broadcast, ends_bind, ends_get,
    ends_ite, ends_throwErr, ends_orUndefined_iff, List.getElem?_cons_zero, hclient]
  refine ⟨fun hnone => ⟨_, rfl, .topicNone (topic_eq_none.mpr hnone)⟩, fun hin => ?_⟩
  rw [not_not] at hin
  refine ⟨fun hoff => ⟨_, rfl, .topicOff (isSome_topic.mpr hin) ?_⟩, fun hon => ?_⟩
  · rw [on_iff hclient]
    exact hoff
  · rw [not_not, ← on_iff hclient] at hon
    obtain ⟨channel, hchannel⟩ := Table.mem_iff_lookup.mp hin
    have htopic : (chat db).topic name = some channel.topic := by
      show (db.channels.lookup name).map Channel.topic = _
      rw [hchannel]
      rfl
    simp only [hchannel]
    cases rest with
    | nil =>
        have hdoes : Does (chat db) fd client.person (ascii "TOPIC") [name] _ .done _ :=
          .topicAsk htopic hon
        rw [h.name hclient, ← h.gettopic hchannel] at hdoes
        exact hdoes
    | cons topic rest =>
        have hdoes : Does (chat db) fd client.person (ascii "TOPIC") (name :: topic :: rest) _
            .done _ := .topic hon (h.lists_users hchannel)
        rw [h.name hclient, ← chat_setTopic hin] at hdoes
        exact hdoes

/-- The row of a channel in a list. -/
theorem Sound.listRow (h : Sound db) {name : Bytes} {channel : Channel}
    (hchannel : db.channels.lookup name = some channel) : listRow channel
      = .ofRPL .LIST [name, dec (db.usersOf name).length, ((chat db).topic name).getD []] := by
  have htopic : (chat db).topic name = some channel.topic := by
    show (db.channels.lookup name).map Channel.topic = _
    rw [hchannel]
    rfl
  have hlength : channel.users.keys.length = channel.users.entries.length := List.length_map _
  rw [Mircd.listRow, h.membership.named name channel hchannel, usersOf_eq hchannel, htopic, hlength]
  rfl

theorem list_simulates (h : Sound db) (hclient : db.clients.lookup fd = some client)
    (args : List Bytes) : Simulates db fd client (ascii "LIST") args (list fd args) := by
  -- whatever channels there are to list
  have hdoes : ∀ (names : List Bytes) (channels : List Channel),
      Chat.Lists names (fun n => ((chat db).topic n).isSome = true ∧ ∀ m ∈ args.head?, n = m) →
      channels.map Mircd.listRow = names.map (fun n =>
        .ofRPL .LIST [n, dec (db.usersOf n).length, ((chat db).topic n).getD []]) →
      Does (chat db) fd client.person (ascii "LIST") args (chat db) .done
        [(fd, sendcmdsStr (.ofRPL .LISTSTART [ascii "Channel :Users  Name"] ::
          (channels.map Mircd.listRow ++ [.ofRPL .LISTEND [ascii "End of LIST"]]))
          client.nickname)] := by
    intro names channels hnames hrows
    rw [hrows, ← h.name hclient]
    exact .list hnames fun n hn => h.lists_usersOf (isSome_topic.mp ((hnames.2 n).mp hn).1)
  simp only [Simulates, list, getuser, sendcmds, ends_bind, ends_get, ends_orUndefined_iff,
    ends_send, hclient]
  cases args with
  | nil =>
      refine hdoes db.channels.keys _ ⟨lists_channels.1, fun n => ?_⟩
        (Table.map_values fun n c hc => h.listRow hc)
      rw [lists_channels.2]
      simp
  | cons name rest =>
      cases hchannel : db.channels.lookup name with
      | none =>
          have hnone := topic_eq_none.mpr (AList.lookup_eq_none.mp hchannel)
          refine hdoes [] _ ⟨List.nodup_nil, fun n => ?_⟩ ?_
          · refine iff_of_false List.not_mem_nil ?_
            rintro ⟨hsome, hn⟩
            rw [hn name rfl, hnone] at hsome
            cases hsome
          · show (db.channels.lookup name).toList.map Mircd.listRow = _
            rw [hchannel]
            rfl
      | some channel =>
          have hsome := isSome_topic.mpr (Table.mem_of_lookup hchannel)
          refine hdoes [name] _ ⟨List.nodup_singleton name, fun n => ?_⟩ ?_
          · rw [List.mem_singleton]
            constructor
            · rintro rfl
              exact ⟨hsome, fun m hm => Option.some.inj hm⟩
            · rintro ⟨-, hn⟩
              exact hn name rfl
          · show (db.channels.lookup name).toList.map Mircd.listRow = _
            rw [hchannel]
            exact congrArg (fun row => [row]) (h.listRow hchannel)

theorem privmsg_simulates (h : Sound db) (hclient : db.clients.lookup fd = some client)
    (args : List Bytes) : Simulates db fd client (ascii "PRIVMSG") args (privmsg fd args) := by
  rcases args with _ | ⟨name, _ | ⟨text, rest⟩⟩
  · exact ⟨_, rfl, .privmsgNobody⟩
  · exact ⟨_, rfl, .privmsgNothing⟩
  · simp only [Simulates, privmsg, getuser, ends_bind, ends_get, ends_orUndefined_iff, hclient]
    cases hchannel : db.channels.lookup name with
    | none => exact ⟨_, rfl, .privmsgNone (topic_eq_none.mpr (AList.lookup_eq_none.mp hchannel))⟩
    | some channel =>
        have hlists := h.lists_users hchannel
        have hothers : Chat.Lists (channel.users.keys.filter (· ≠ fd))
            fun f => (chat db).on f name ∧ f ≠ fd := by
          refine ⟨hlists.1.filter _, fun f => ?_⟩
          rw [List.mem_filter, decide_eq_true_eq, hlists.2]
        have hdoes : Does (chat db) fd client.person (ascii "PRIVMSG") (name :: text :: rest) _
            .done _ := .privmsg (isSome_topic.mpr (Table.mem_of_lookup hchannel)) hothers
        rw [h.name hclient] at hdoes
        exact hdoes

theorem ping_simulates (args : List Bytes) :
    Simulates db fd client (ascii "PING") args (ping fd args) := by
  cases args with
  | nil => exact ⟨_, rfl, .pingNone⟩
  | cons a rest => exact .ping

theorem users_simulates (h : Sound db) (args : List Bytes) :
    Simulates db fd client (ascii "USERS") args (users fd args) := by
  have hnick : ∀ f cl, db.clients.lookup f = some cl → cl.nickname = (chat db).nameOf f :=
    fun f cl hcl => (h.nameOf hcl).symm
  have hwidth : usersWidth (Table.values db.clients)
      = (db.clients.keys.map (chat db).nameOf).foldl (fun n nick => max n nick.length) 6 := by
    rw [← Table.map_values hnick, List.foldl_map]
    rfl
  have hrows : ∀ mxname, (Table.values db.clients).map (fun cli => CmdMsg.ofRPL .USERS
        [usersRow mxname cli.nickname (ascii "-") cli.host])
      = db.clients.keys.map fun f => .ofRPL .USERS [usersRow mxname ((chat db).nameOf f)
          (ascii "-") ((((chat db).people f).map Person.host).getD [])] := by
    intro mxname
    refine Table.map_values fun f cl hcl => ?_
    rw [hnick f cl hcl, chat_people hcl]
    rfl
  have hdoes : Does (chat db) fd client.person (ascii "USERS") args _ .done _ :=
    .users lists_clients
  simp only [Simulates, users, sendcmds, ends_bind, ends_get, ends_send]
  rw [hrows, hwidth]
  exact hdoes

/-- Every entry of the command table does what its command does. -/
theorem cmds_simulates (h : Sound db) (hclient : db.clients.lookup fd = some client) {cmd : Bytes}
    {item : CmdItem} {args : List Bytes} (hitem : cmds.lookup cmd = some item)
    (hargs : item.parmMin ≤ args.length) (hC : NickAccepted db (.call fd (cmd :: args))) :
    Simulates db fd client cmd args (item.fp fd args) := by
  have hmem := mem_of_lookup hitem
  simp only [cmds, List.mem_cons, Prod.mk.injEq, List.not_mem_nil, or_false] at hmem
  rcases hmem with ⟨rfl, rfl⟩ | ⟨rfl, rfl⟩ | ⟨rfl, rfl⟩ | ⟨rfl, rfl⟩ | ⟨rfl, rfl⟩ | ⟨rfl, rfl⟩ |
    ⟨rfl, rfl⟩ | ⟨rfl, rfl⟩ | ⟨rfl, rfl⟩ | ⟨rfl, rfl⟩ | ⟨rfl, rfl⟩
  · exact nick_simulates h hclient hC
  · exact user_simulates hclient hargs
  · exact quit_simulates args
  · exact join_simulates h hclient hargs
  · exact part_simulates h hclient hargs
  · exact topic_simulates h hclient hargs
  · exact names_simulates h hclient args
  · exact list_simulates h hclient args
  · exact privmsg_simulates h hclient args
  · exact ping_simulates args
  · exact users_simulates h args

end handlers

/-! ## Commands -/

/-- The person who gives the command is still there, and is welcomed later. -/
theorem Does.person {c c' : Chat} {fd : Fd} {p : Person} {cmd : Bytes} {args : List Bytes}
    {outcome : Outcome} {sent : List Sent} (hdoes : Does c fd p cmd args c' outcome sent)
    (hp : c.people fd = some p) : ∃ p', c'.people fd = some p' ∧ p'.welcome = p.welcome := by
  cases hdoes with
  | nick => exact ⟨_, Function.update_self .., rfl⟩
  | user => exact ⟨_, Function.update_self .., rfl⟩
  | _ => exact ⟨p, hp, rfl⟩

theorem Chat.setPerson_self {c : Chat} {fd : Fd} {p : Person} (hp : c.people fd = some p) :
    c.setPerson fd (some p) = c := by
  rw [Chat.setPerson, ← hp, Function.update_eq_self]

section commands

variable {db db' : Database} {fd : Fd} {argv : List Bytes}

/-- A client registers when its person has a nickname and has given `USER`. -/
theorem registers_iff {client : Client} : client.registers = true ↔
    client.person.welcome = false ∧ client.person.nick ≠ none ∧ client.person.user = true := by
  have hnick : client.person.nick ≠ none ↔ client.hasNick = true := by
    show (if client.hasNick then some client.nickname else none) ≠ none ↔ _
    split_ifs with hnick <;> simp [hnick]
  rw [hnick, Client.registers, Bool.and_eq_true, Bool.not_eq_true', Client.canRegist,
    Bool.and_eq_true]
  exact Iff.rfl

/-- The end of `call`. -/
theorem welcome_simulates {c : Chat} {p : Person} {cmd : Bytes} {args : List Bytes} {n : ℕ}
    {w : World} (hp : c.people fd = some p) (hcmd : parmMin cmd = some n) (hmay : p.MayGive cmd)
    (hargs : n ≤ args.length) (hwelcome : p.welcome = false)
    (hdoes : Does c fd p cmd args (chat w.db) .done w.sent) {E : Exn → World → Prop} :
    Ends (welcome fd) w
      (fun _ w' => Chat.Calls c fd p (cmd :: args) (chat w'.db) .done w'.sent) E := by
  obtain ⟨p', hp', hsame⟩ := hdoes.person hp
  obtain ⟨client, hclient, rfl⟩ := Option.map_eq_some_iff.mp hp'
  have hchat : chat (w.db.setClient fd Client.regist)
      = (chat w.db).setPerson fd (some client.regist.person) :=
    chat_setClient hclient regist_channels
  simp only [welcome, getuser, ends_bind, ends_get, ends_orUndefined_iff, ends_update, ends_send,
    hclient, World.update, World.send, hchat]
  rw [hwelcome] at hsame
  by_cases hregisters : client.registers = true
  · have hregist : client.regist.person = { client.person with welcome := true } := by
      rw [Client.regist, if_pos hregisters]
      rfl
    obtain ⟨-, hnick, huser⟩ := registers_iff.mp hregisters
    have hname : client.person.name = client.nickname := by
      obtain ⟨n, hn⟩ := Option.ne_none_iff_exists'.mp hnick
      rw [Person.name, hn, (nick_person.mp hn).2]
      rfl
    rw [if_pos hregisters, hregist, ← hname]
    exact .welcomes hcmd hmay hargs hdoes hp' hwelcome hnick huser
  · have hregist : client.regist = client := by
      rw [Client.regist, if_neg hregisters]
    rw [if_neg hregisters, hregist, Chat.setPerson_self hp', List.append_nil]
    refine .does hcmd hmay hargs hdoes hp' (Or.inr ?_)
    by_contra hboth
    obtain ⟨hnick, huser⟩ := not_or.mp hboth
    exact hregisters (registers_iff.mpr ⟨hsame, hnick, Bool.not_eq_false _ ▸ huser⟩)

/-- `call` does what its line does. -/
theorem call_simulates (h : Sound db) {client : Client}
    (hclient : db.clients.lookup fd = some client) (hC : NickAccepted db (.call fd argv)) :
    Ends (call fd argv) ⟨db, []⟩
      (fun _ w => Chat.Calls (chat db) fd client.person argv (chat w.db) .done w.sent)
      (fun e w => ∃ outcome, e.outcome = some outcome ∧
        Chat.Calls (chat db) fd client.person argv (chat w.db) outcome w.sent) := by
  have hp := chat_people hclient
  cases argv with
  | nil => exact .empty
  | cons cmd args =>
      rw [call]
      cases hitem : cmds.lookup cmd with
      | none =>
          refine ⟨_, rfl, .unknown ?_⟩
          rw [parmMin, hitem]
          rfl
      | some item =>
          have hcmd : parmMin cmd = some item.parmMin := by
            rw [parmMin, hitem]
            rfl
          have hmay : (!client.hasRegist && !unregAllow.contains cmd) = true
              ↔ ¬ client.person.MayGive cmd := by
            rw [Person.MayGive, not_or, Bool.and_eq_true, Bool.not_eq_true', Bool.not_eq_true',
              Bool.not_eq_true, ← Bool.not_eq_true (unregAllow.contains cmd),
              List.contains_iff_mem]
            exact Iff.rfl
          simp only [getuser, ends_bind, ends_get, ends_orUndefined_iff, ends_ite, ends_throwErr,
            ends_pure, hclient]
          refine ⟨fun hunreg => ?_, fun hallow => ⟨fun hfew => ?_, fun henough => ?_⟩⟩
          · exact ⟨_, rfl, .unregistered (by rw [hcmd]; rfl) (hmay.mp hunreg)⟩
          · rw [hmay, not_not] at hallow
            exact ⟨_, rfl, .params hcmd hallow hfew⟩
          · rw [hmay, not_not] at hallow
            have hargs := Nat.le_of_not_lt henough
            refine (cmds_simulates h hclient hitem hargs hC).mono
              (fun _ w hdoes => ⟨fun hreg => ?_, fun hreg => ?_⟩) ?_
            · obtain ⟨p', hp', -⟩ := hdoes.person hp
              exact .does hcmd hallow hargs hdoes hp' (Or.inl hreg)
            · exact welcome_simulates hp hcmd hallow hargs (Bool.not_eq_true _ ▸ hreg) hdoes
            · rintro e w ⟨outcome, he, hdoes⟩
              refine ⟨outcome, he, .fails hcmd hallow hargs ?_ hdoes⟩
              rintro rfl
              cases e <;> cases he

/-- A command of a connected client always ends, as its line does in the chat. -/
theorem chat_call (h : Sound db) (hconn : fd ∈ db.clients)
    (hC : NickAccepted db (.call fd argv)) :
    ∃ p db' shown, (chat db).people fd = some p ∧ runCall db fd argv = some (db', shown) ∧
      Chat.Calls (chat db) fd p argv (chat db') shown.outcome shown.sent := by
  obtain ⟨client, hclient⟩ := Table.mem_iff_lookup.mp hconn
  have hends := call_simulates h hclient hC
  refine ⟨client.person, ?_⟩
  rw [runCall]
  cases hrun : call fd argv ⟨db, []⟩ with
  | ok _ w => exact ⟨w.db, ⟨.done, w.sent⟩, chat_people hclient, rfl, hends.of_ok hrun⟩
  | error e w =>
      obtain ⟨outcome, he, hcalls⟩ := hends.of_error hrun
      cases e with
      | cmdMsg msg =>
          cases he
          exact ⟨w.db, ⟨.cmdMsg msg, w.sent⟩, chat_people hclient, rfl, hcalls⟩
      | disconnect =>
          cases he
          exact ⟨w.db, ⟨.disconnect, w.sent⟩, chat_people hclient, rfl, hcalls⟩
      | undefined => cases he

/-- Somebody comes. -/
theorem chat_clientAdd (hfree : fd ∉ db.clients) (info host : Bytes) :
    chat (db.clientAdd fd info host)
      = (chat db).setPerson fd (some ⟨none, false, false, host⟩) := by
  ext1
  · funext f
    show ((db.clientAdd fd info host).clients.lookup f).map Client.person
      = Function.update (chat db).people fd _ f
    rw [lookup_clientAdd hfree, Function.update_apply]
    split_ifs
    · rfl
    · rfl
  · rfl
  · funext f n
    apply propext
    show (db.clientAdd fd info host).IsMember f n ↔ db.IsMember f n
    rw [Database.IsMember, lookup_clientAdd hfree]
    by_cases hf : f = fd
    · subst hf
      rw [if_pos rfl, Database.IsMember, AList.lookup_eq_none.mpr hfree]
      simp [Client.new]
    · rw [if_neg hf, Database.IsMember]

/-- Somebody who is on no channel goes. -/
theorem chat_clientDel (hempty : ∀ cl ∈ db.clients.lookup fd, cl.channels = ∅) :
    chat (db.clientDel fd) = (chat db).setPerson fd none := by
  ext1
  · funext f
    show ((db.clientDel fd).clients.lookup f).map Client.person
      = Function.update (chat db).people fd _ f
    rw [lookup_clientDel, Function.update_apply]
    split_ifs
    · rfl
    · rfl
  · funext n
    show ((db.clientDel fd).channels.lookup n).map Channel.topic
      = (db.channels.lookup n).map Channel.topic
    unfold Database.clientDel
    cases db.clients.lookup fd <;> rfl
  · funext f n
    apply propext
    show (db.clientDel fd).IsMember f n ↔ db.IsMember f n
    rw [Database.IsMember, lookup_clientDel]
    by_cases hf : f = fd
    · subst hf
      rw [if_pos rfl]
      refine iff_of_false (by simp) ?_
      rintro ⟨cl, hcl, hn⟩
      rw [hempty cl hcl] at hn
      cases hn
    · rw [if_neg hf, Database.IsMember]

/-- A step of the database is one of the chat, if its condition is met. -/
theorem chat_next (h : Sound db) {a : Event} {shown : Shown} (hL : LeavesFirst db a)
    (hN : NickAccepted db a) (hs : next db a = some (db', shown)) :
    Sound db' ∧ Chat.Next (chat db) a (chat db') shown := by
  refine ⟨⟨membership_next h.membership hL hs, nickTable_next h.nickTable hN hs⟩, ?_⟩
  cases next_iff_happens.mp hs with
  | @clientAdd fd info host hfree =>
      rw [chat_clientAdd hfree]
      refine .comes ?_
      show (db.clients.lookup fd).map Client.person = none
      rw [AList.lookup_eq_none.mpr hfree]
      rfl
  | @call fd argv shown _ hconn hcall =>
      obtain ⟨p, db₁, shown₁, hp, hcall₁, hcalls⟩ := chat_call h hconn hN
      obtain ⟨rfl, rfl⟩ : db₁ = db' ∧ shown₁ = shown := by
        rw [hcall, Option.some.injEq, Prod.mk.injEq] at hcall₁
        exact ⟨hcall₁.1.symm, hcall₁.2.symm⟩
      exact .speaks hp hcalls
  | @clientDel fd =>
      rw [chat_clientDel hL]
      refine .goes fun n => ?_
      rintro ⟨cl, hcl, hn⟩
      rw [hL cl hcl] at hn
      cases hn

/-- When the records agree, every command of a connected client ends, also one that asks for a
nickname that is rejected. -/
theorem Sound.next_call (h : Sound db) (hconn : fd ∈ db.clients) (argv : List Bytes) :
    ∃ db' shown, next db (.call fd argv) = some (db', shown) := by
  by_cases hN : NickAccepted db (.call fd argv)
  · obtain ⟨-, db', shown, -, hcall, -⟩ := chat_call h hconn hN
    exact ⟨db', shown, (if_pos hconn).trans hcall⟩
  · obtain ⟨nickname, rest, rfl, hfree, hinvalid⟩ := exists_rejected hN
    obtain ⟨client, hclient⟩ := Table.mem_iff_lookup.mp hconn
    exact ⟨_, _, (if_pos hconn).trans (runCall_nick_rejected rest hclient hfree hinvalid)⟩

end commands

/-! ## Runs -/

/-- Every run in which clients are removed only when they are on no channel, and in which no new
nickname is rejected, is a run of the chat, with the same events, outcomes and messages; and after
it every command of a connected client ends, with no read through a dangling reference. -/
theorem chat_run {past : List (Moment Database Event Shown)} {db : Database}
    (hrun : Run system past db)
    (hC : ∀ m ∈ past, LeavesFirst m.pre m.event ∧ NickAccepted m.pre m.event) :
    Chat.Run (past.map fun m => (m.event, m.shown)) (chat db) ∧
    ∀ fd argv, fd ∈ db.clients → ∃ db' shown, next db (.call fd argv) = some (db', shown) := by
  have hboth : Sound db ∧ Chat.Run (past.map fun m => (m.event, m.shown)) (chat db) := by
    refine hrun.history_invariant
      (C := fun db a => LeavesFirst db a ∧ NickAccepted db a)
      (I := fun past db => Sound db ∧ Chat.Run (past.map fun m => (m.event, m.shown)) (chat db))
      ?_ ?_ hC
    · have hon : (chat Database.initial).on = fun _ _ => False := by
        funext f n
        apply propext
        refine iff_of_false ?_ id
        rintro ⟨cl, hcl, -⟩
        cases hcl
      have hchat : chat Database.initial = ⟨fun _ => none, fun _ => none, fun _ _ => False⟩ := by
        rw [← hon]
        rfl
      refine ⟨⟨membership_initial, nickTable_initial⟩, ?_⟩
      show Chat.Run [] (chat Database.initial)
      rw [hchat]
      exact .start
    · rintro past db a db' shown - ⟨h, hchat⟩ hCa hs
      obtain ⟨h', hnext⟩ := chat_next h hCa.1 hCa.2 hs
      exact ⟨h', .next hchat hnext⟩
  exact ⟨hboth.2, fun fd argv hconn => hboth.1.next_call hconn argv⟩

/-- Two clients talk on a channel, and one of them leaves it and goes. -/
theorem chat_run_two : ∃ past db, Run system past db ∧ (chat db).on 5 (ascii "#c") ∧
    Chat.Run (past.map fun m => (m.event, m.shown)) (chat db) := by
  obtain ⟨past, db, hrun, htest⟩ := exists_run_of_replay system
    (register 4 "alice" ++ [.call 4 [ascii "JOIN", ascii "#c"]] ++ register 5 "bob" ++
      [.call 5 [ascii "JOIN", ascii "#c"], .call 5 [ascii "PRIVMSG", ascii "#c", ascii "hi"],
        .call 4 [ascii "PART", ascii "#c"], .clientDel 4])
    (fun r => r.1.all (fun m => decide (LeavesFirst m.pre m.event) &&
        decide (NickAccepted m.pre m.event)) &&
      (r.2.clients.lookup 5).any fun cl : Client => decide (ascii "#c" ∈ cl.channels))
    (by decide +kernel)
  simp only [Bool.and_eq_true, List.all_eq_true, Option.any_eq_true, decide_eq_true_eq] at htest
  obtain ⟨hC, cl, hcl, hon⟩ := htest
  exact ⟨past, db, hrun, ⟨cl, hcl, hon⟩, (chat_run hrun hC).1⟩

end Mircd
