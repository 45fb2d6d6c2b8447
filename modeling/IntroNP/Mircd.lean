/-
# The IRC server mircd

The controller of `Homework/1/mircd` over its database.  The three maps of the database are
tables; a `Client&` stored in one of them is a `ClientRef`, which names the object it was bound
to, so that a reference that outlives its object can be told from one to a new client with the
same file descriptor.  A command is a program on the database and the strings passed to `send`;
it may throw an error reply or ask for a disconnect, and reading through a dangling reference is
undefined.

* `Database`, `Client`, `Channel` : the data;
* the handlers `nick`, …, `users`, and `call`;
* `system` : connections, commands of any connected client and disconnects, in any order.

`users` formats each row as text; the size of the array it writes the row to plays no part.
The order of the unordered maps is unspecified and nothing is proved about it.
-/
import Mathlib.Data.Finset.Insert
import Mathlib.Data.Finset.Erase
import IntroNP.Runs
import IntroNP.Tables
import IntroNP.Programs
import IntroNP.MircdMessages

namespace Mircd

/-! ## The database -/

/-- A file descriptor. -/
abbrev Fd := ℕ

/-- The bits of `Client::status`. -/
structure Status where
  /-- `HAS::NICK`. -/
  nick : Bool
  /-- `HAS::USER`. -/
  user : Bool
  /-- `HAS::WELCOME`. -/
  welcome : Bool
  deriving DecidableEq

/-- `Client`.  Its `connfd` is the key it stands under. -/
structure Client where
  /-- Which object this is: no two clients ever created share the number. -/
  id : ℕ
  /-- `status`. -/
  status : Status
  /-- `info`. -/
  info : Bytes
  /-- `host`. -/
  host : Bytes
  /-- `nickname`, empty at first. -/
  nickname : Bytes
  /-- `username`. -/
  username : Bytes
  /-- `hostname`. -/
  hostname : Bytes
  /-- `servername`. -/
  servername : Bytes
  /-- `realname`. -/
  realname : Bytes
  /-- The keys of `channels`; the value under a key is the channel of that name, and channels
  are never removed. -/
  channels : Finset Bytes
  deriving DecidableEq

/-- A `Client&`: the object that stood under `fd` when the reference was bound. -/
structure ClientRef where
  /-- The file descriptor of the client. -/
  fd : Fd
  /-- The object. -/
  id : ℕ
  deriving DecidableEq

/-- What the constructor of `Channel` demands of a name. -/
def Channel.accepts (name : Bytes) : Bool :=
  !name.isEmpty && name.length ≤ 50
    && (name.head? = some (ch '#') || name.head? = some (ch '&') || name.head? = some (ch '+'))

/-- `Channel`. -/
structure Channel where
  /-- `name`. -/
  name : Bytes
  /-- `topic`. -/
  topic : Bytes
  /-- `users`. -/
  users : Table Fd ClientRef
  /-- The constructor has accepted the name. -/
  accepted : Channel.accepts name = true

/-- `Database`. -/
structure Database where
  /-- `clients`. -/
  clients : Table Fd Client
  /-- `nick_mp`. -/
  nickMp : Table Bytes ClientRef
  /-- `channels`. -/
  channels : Table Bytes Channel
  /-- The number of clients created so far. -/
  created : ℕ

/-- The database of a server that has just started. -/
def Database.initial : Database := ⟨∅, ∅, ∅, 0⟩

/-- `nickInUse`. -/
abbrev Database.nickInUse (db : Database) (nick : Bytes) : Prop := nick ∈ db.nickMp

/-- `hasChannel`. -/
abbrev Database.hasChannel (db : Database) (name : Bytes) : Prop := name ∈ db.channels

/-- The client a reference stands for, if the object still exists. -/
def Database.deref (db : Database) (ref : ClientRef) : Option Client :=
  (db.clients.lookup ref.fd).filter (fun client => client.id = ref.id)

/-- A change of the client under a file descriptor. -/
def Database.setClient (db : Database) (fd : Fd) (f : Client → Client) : Database :=
  { db with clients := Table.modify fd f db.clients }

/-- A change of the channel of a name. -/
def Database.setChannel (db : Database) (name : Bytes) (f : Channel → Channel) : Database :=
  { db with channels := Table.modify name f db.channels }

/-- `getchannel`: the channel of the name is created if there is none, which fails if the
constructor does not accept the name. -/
def Database.getchannel (db : Database) (name : Bytes) : Option Database :=
  if db.hasChannel name then
    some db
  else if h : Channel.accepts name = true then
    some { db with channels := db.channels.insert name ⟨name, [], ∅, h⟩ }
  else
    none

/-! ## Clients and channels -/

/-- The constructor of `Client`. -/
def Client.new (id : ℕ) (info host : Bytes) : Client where
  id := id
  status := ⟨false, false, false⟩
  info := info
  host := host
  nickname := []
  username := []
  hostname := []
  servername := []
  realname := []
  channels := ∅

/-- `hasRegist`. -/
def Client.hasRegist (client : Client) : Bool := client.status.welcome

/-- `canRegist`. -/
def Client.canRegist (client : Client) : Bool := client.status.nick && client.status.user

/-- `hasNick`. -/
def Client.hasNick (client : Client) : Bool := client.status.nick

/-- Whether `regist` returns true. -/
def Client.registers (client : Client) : Bool := !client.hasRegist && client.canRegist

/-- `regist`. -/
def Client.regist (client : Client) : Client :=
  if client.registers then { client with status := { client.status with welcome := true } }
  else client

/-- The change `changeNick` makes. -/
def Client.setNick (nick : Bytes) (client : Client) : Client :=
  { client with status := { client.status with nick := true }, nickname := nick }

/-- The change `user` makes. -/
def Client.setUser (username hostname servername realname : Bytes) (client : Client) : Client :=
  { client with
    status := { client.status with user := true }
    username := username
    hostname := hostname
    servername := servername
    realname := realname }

/-- `Client::join`. -/
def Client.join (name : Bytes) (client : Client) : Client :=
  { client with channels := insert name client.channels }

/-- `Client::part`. -/
def Client.part (name : Bytes) (client : Client) : Client :=
  { client with channels := client.channels.erase name }

/-- The `users.emplace` of `Channel::add`. -/
def Channel.addUser (fd : Fd) (ref : ClientRef) (channel : Channel) : Channel :=
  { channel with users := Table.emplace fd ref channel.users }

/-- The `users.erase` of `Channel::del`. -/
def Channel.delUser (fd : Fd) (channel : Channel) : Channel :=
  { channel with users := channel.users.erase fd }

/-- The assignment of `Channel::changeTopic`. -/
def Channel.setTopic (topic : Bytes) (channel : Channel) : Channel :=
  { channel with topic := topic }

/-- `default_part_msg`. -/
def Channel.defaultPartMsg : Bytes := ascii "Leave channel"

/-- `gettopic`. -/
def Channel.gettopic (channel : Channel) : CmdMsg :=
  if channel.topic.isEmpty then .ofRPL .NOTOPIC [channel.name, ascii "No topic is set"]
  else .ofRPL .TOPIC [channel.name, channel.topic]

/-- The loop of `usersstr` over the nicknames. -/
def usersstr (nicks : List Bytes) : Bytes :=
  nicks.foldl (fun str nick => (if str.isEmpty then str else str ++ ascii " ") ++ nick) []

/-- `getusers`, which reads the nickname of every user through its reference. -/
def Database.getusers (db : Database) (channel : Channel) : Option (List CmdMsg) := do
  let users ← (Table.values channel.users).mapM db.deref
  let last := CmdMsg.ofRPL .ENDOFNAMES [channel.name, ascii "End of /NAMES list"]
  if users.isEmpty then
    return [last]
  else
    return [.ofRPL .NAMREPLY [channel.name, usersstr (users.map Client.nickname)], last]

/-! ## Programs on the database -/

/-- What a command may throw.  `undefined` stands for undefined behaviour: a read through a
dangling reference, or past the end of the arguments. -/
inductive Exn where
  | cmdMsg (msg : CmdMsg)
  | disconnect
  | undefined

/-- A string passed to `send`. -/
abbrev Sent := Fd × Bytes

/-- The database and what has been sent since the command began. -/
structure World where
  /-- The database. -/
  db : Database
  /-- The strings passed to `send`, oldest first. -/
  sent : List Sent

/-- A change of the database. -/
def World.update (w : World) (f : Database → Database) : World := { w with db := f w.db }

/-- More strings passed to `send`. -/
def World.send (w : World) (out : List Sent) : World := { w with sent := w.sent ++ out }

/-- A program of the controller. -/
abbrev M := EStateM Exn World

/-- A value that must be there. -/
def orUndefined {α : Type} : Option α → M α
  | some a => pure a
  | none => throw .undefined

/-- An error reply. -/
def throwErr {α : Type} (e : ERR) (argv : List Bytes) : M α := throw (.cmdMsg (.ofERR e argv))

/-- A change of the database. -/
def update (f : Database → Database) : M PUnit := modify fun w => w.update f

/-- `sendstr`, for several strings. -/
def send (out : List Sent) : M PUnit := modify fun w => w.send out

/-- `sendcmds`. -/
def sendcmds (fd : Fd) (cmds : List CmdMsg) (nick : Bytes) : M PUnit :=
  send [(fd, sendcmdsStr cmds nick)]

/-- `sendcmd`. -/
def sendcmd (fd : Fd) (cmd : CmdMsg) (nick : Bytes) : M PUnit := sendcmds fd [cmd] nick

/-- One message to each file descriptor, the loop of `Channel::add`, `del` and `changeTopic`. -/
def broadcast (fds : List Fd) (cmd : CmdMsg) (nick : Bytes) : M PUnit :=
  send (fds.map fun fd => (fd, sendcmdsStr [cmd] nick))

/-- `getuser`, and every later read of the client. -/
def getuser (fd : Fd) : M Client := do
  orUndefined ((← get).db.clients.lookup fd)

/-- A read of a channel through a `Channel&`. -/
def readChannel (name : Bytes) : M Channel := do
  orUndefined ((← get).db.channels.lookup name)

/-- `getchannel`, with the error the constructor throws. -/
def getchannel (name : Bytes) : M PUnit := do
  match (← get).db.getchannel name with
  | some db => update fun _ => db
  | none => throwErr .NOSUCHCHANNEL [name, ascii "No such channel"]

/-- `argv[i]`. -/
def arg (argv : List Bytes) (i : ℕ) : M Bytes := orUndefined argv[i]?

/-! ## Handlers -/

/-- `Client::changeNick`. -/
def changeNick (connfd : Fd) (nick : Bytes) : M PUnit := do
  let client ← getuser connfd
  if !(nick.head?.any isAlpha) then
    throwErr .ERRONEUSNICKNAME [nick, ascii "Erroneous nickname"]
  else do
    send (if client.hasNick then
      [(connfd, sendcmdsStr [.ofText "NICK" [nick]] client.nickname)] else [])
    update fun db => db.setClient connfd (Client.setNick nick)

/-- `Controller::nick`. -/
def nick (connfd : Fd) : List Bytes → M PUnit
  | [] => throwErr .NONICKNAMEGIVEN [ascii "No nickname given"]
  | nickname :: _ => do
      if (← get).db.nickInUse nickname then
        throwErr .NICKCOLLISION [nickname, ascii "Nickname collision KILL"]
      else do
        let client ← getuser connfd
        update fun db =>
          let nickMp := if client.hasNick then db.nickMp.erase client.nickname else db.nickMp
          { db with nickMp := Table.emplace nickname ⟨connfd, client.id⟩ nickMp }
        changeNick connfd nickname

/-- `Controller::user`. -/
def user (connfd : Fd) (argv : List Bytes) : M PUnit := do
  let client ← getuser connfd
  if client.hasRegist then
    throwErr .ALREADYREGISTRED [ascii "You may not reregister"]
  else do
    let username ← arg argv 0
    let hostname ← arg argv 1
    let servername ← arg argv 2
    let realname ← arg argv 3
    update fun db => db.setClient connfd (Client.setUser username hostname servername realname)

/-- `Controller::quit`. -/
def quit (_connfd : Fd) (_argv : List Bytes) : M PUnit := throw .disconnect

/-- `Controller::names`. -/
def names (connfd : Fd) (argv : List Bytes) : M PUnit := do
  let client ← getuser connfd
  match argv with
  | [] => do
      let db := (← get).db
      let outs ← orUndefined ((Table.values db.channels).mapM db.getusers)
      sendcmds connfd outs.flatten client.nickname
  | name :: _ => do
      getchannel name
      let channel ← readChannel name
      let out ← orUndefined ((← get).db.getusers channel)
      sendcmds connfd out client.nickname

/-- `Channel::add`. -/
def channelAdd (name : Bytes) (connfd : Fd) : M PUnit := do
  let client ← getuser connfd
  update fun db => db.setChannel name (Channel.addUser connfd ⟨connfd, client.id⟩)
  let channel ← readChannel name
  broadcast channel.users.keys (.ofText "JOIN" [name]) client.nickname

/-- `Controller::join`. -/
def join (connfd : Fd) (argv : List Bytes) : M PUnit := do
  let name ← arg argv 0
  getchannel name
  update fun db => db.setClient connfd (Client.join name)
  channelAdd name connfd
  let channel ← readChannel name
  sendcmd connfd channel.gettopic name
  names connfd [name]

/-- `Channel::del`. -/
def channelDel (name : Bytes) (connfd : Fd) (msg : Bytes) : M PUnit := do
  let channel ← readChannel name
  let ref ← orUndefined (channel.users.lookup connfd)
  let client ← orUndefined ((← get).db.deref ref)
  broadcast channel.users.keys (.ofText "PART" [name, msg]) client.nickname
  update fun db => db.setChannel name (Channel.delUser connfd)

/-- `Controller::part`. -/
def part (connfd : Fd) (argv : List Bytes) : M PUnit := do
  let name ← arg argv 0
  if ¬ (← get).db.hasChannel name then
    throwErr .NOSUCHCHANNEL [name, ascii "No such channel"]
  else do
    let client ← getuser connfd
    if name ∉ client.channels then
      throwErr .NOTONCHANNEL [name, ascii "You're not on that channel"]
    else do
      update fun db => db.setClient connfd (Client.part name)
      channelDel name connfd (argv[1]?.getD Channel.defaultPartMsg)

/-- `Controller::topic`. -/
def topic (connfd : Fd) (argv : List Bytes) : M PUnit := do
  let name ← arg argv 0
  if ¬ (← get).db.hasChannel name then
    throwErr .NOSUCHCHANNEL [name, ascii "No such channel"]
  else do
    let client ← getuser connfd
    if name ∉ client.channels then
      throwErr .NOTONCHANNEL [name, ascii "You're not on that channel"]
    else do
      let channel ← readChannel name
      match argv[1]? with
      | none => sendcmd connfd channel.gettopic client.nickname
      | some newTopic => do
          update fun db => db.setChannel name (Channel.setTopic newTopic)
          broadcast channel.users.keys (.ofText "TOPIC" [name, newTopic]) client.nickname

/-- The rows of `list`. -/
def listRow (channel : Channel) : CmdMsg :=
  .ofRPL .LIST [channel.name, dec channel.users.entries.length, channel.topic]

/-- `Controller::list`. -/
def list (connfd : Fd) (argv : List Bytes) : M PUnit := do
  let client ← getuser connfd
  let db := (← get).db
  let channels := match argv with
    | [] => Table.values db.channels
    | name :: _ => (db.channels.lookup name).toList
  sendcmds connfd (.ofRPL .LISTSTART [ascii "Channel :Users  Name"] ::
    (channels.map listRow ++ [.ofRPL .LISTEND [ascii "End of LIST"]])) client.nickname

/-- `Controller::privmsg`. -/
def privmsg (connfd : Fd) : List Bytes → M PUnit
  | [] => throwErr .NORECIPIENT [ascii "No recipient given (PRIVMSG)"]
  | [_] => throwErr .NOTEXTTOSEND [ascii "No text to send"]
  | name :: text :: _ => do
      let client ← getuser connfd
      match (← get).db.channels.lookup name with
      | none => throwErr .NOSUCHNICK [name, ascii "No such nick/channel"]
      | some channel =>
          broadcast (channel.users.keys.filter (· ≠ connfd)) (.ofText "PRIVMSG" [name, text])
            client.nickname

/-- `Controller::ping`. -/
def ping (connfd : Fd) : List Bytes → M PUnit
  | [] => throwErr .NOORIGIN [ascii "No origin specified"]
  | _ :: _ => send [(connfd, ascii "PONG\n")]

/-- The width `users` computes for the names. -/
def usersWidth (clients : List Client) : ℕ :=
  clients.foldl (fun mxname cli => max mxname cli.nickname.length) 6

/-- A row of `users`, in the format `%-*s %-8s %-21s`. -/
def usersRow (mxname : ℕ) (name term host : Bytes) : Bytes :=
  padRight mxname (cstr name) ++ ascii " " ++ padRight 8 term ++ ascii " " ++
    padRight 21 (cstr host)

/-- `Controller::users`. -/
def users (connfd : Fd) (_argv : List Bytes) : M PUnit := do
  let clients := Table.values (← get).db.clients
  let mxname := usersWidth clients
  sendcmds connfd
    (.ofRPL .USERSSTART [usersRow mxname (ascii "UserID") (ascii "Terminal") (ascii "Host")] ::
      clients.map fun cli => .ofRPL .USERS [usersRow mxname cli.nickname (ascii "-") cli.host]) []

/-! ## Commands -/

/-- `CmdItem`. -/
structure CmdItem where
  /-- `parm_min`. -/
  parmMin : ℕ
  /-- `fp`. -/
  fp : Fd → List Bytes → M PUnit

/-- `unreg_allow`. -/
def unregAllow : List Bytes := [ascii "NICK", ascii "USER", ascii "QUIT"]

/-- `cmds`. -/
def cmds : List (Bytes × CmdItem) := [
  (ascii "NICK", ⟨0, nick⟩), (ascii "USER", ⟨4, user⟩), (ascii "QUIT", ⟨0, quit⟩),
  (ascii "JOIN", ⟨1, join⟩), (ascii "PART", ⟨1, part⟩), (ascii "TOPIC", ⟨1, topic⟩),
  (ascii "NAMES", ⟨0, names⟩), (ascii "LIST", ⟨0, list⟩), (ascii "PRIVMSG", ⟨0, privmsg⟩),
  (ascii "PING", ⟨0, ping⟩), (ascii "USERS", ⟨0, users⟩)]

/-- The end of `call`: the client registers if it can, and is then welcomed. -/
def welcome (connfd : Fd) : M PUnit := do
  let client ← getuser connfd
  update fun db => db.setClient connfd Client.regist
  send (if client.registers then [(connfd, sendcmdsStr welcomeCmds client.nickname)] else [])

/-- `Controller::call`. -/
def call (connfd : Fd) : List Bytes → M PUnit
  | [] => pure ⟨⟩
  | cmd :: argv => do
      match cmds.lookup cmd with
      | none => throwErr .UNKNOWNCOMMAND [cmd, ascii "Unknown command"]
      | some item => do
          let client ← getuser connfd
          if !client.hasRegist && !unregAllow.contains cmd then
            throwErr .NOTREGISTERED [ascii "You have not registered"]
          else if argv.length < item.parmMin then
            throwErr .NEEDMOREPARAMS [cmd, ascii "Not enough parameters"]
          else do
            item.fp connfd argv
            if client.hasRegist then pure ⟨⟩ else welcome connfd

/-- `client_add`. -/
def Database.clientAdd (db : Database) (connfd : Fd) (info host : Bytes) : Database :=
  { db with
    clients := Table.emplace connfd (Client.new db.created info host) db.clients
    created := db.created + 1 }

/-- `client_del`. -/
def Database.clientDel (db : Database) (connfd : Fd) : Database :=
  match db.clients.lookup connfd with
  | none => db
  | some client =>
      { db with
        clients := db.clients.erase connfd
        nickMp := db.nickMp.erase client.nickname }

/-! ## Runs -/

/-- What can happen next. -/
inductive Event where
  /-- A client connects under a file descriptor that is not in use. -/
  | clientAdd (connfd : Fd) (info host : Bytes)
  /-- A command of a connected client. -/
  | call (connfd : Fd) (argv : List Bytes)
  /-- A disconnect. -/
  | clientDel (connfd : Fd)
  deriving DecidableEq

/-- How a command ends: it returns, or throws an error reply or the wish to disconnect. -/
inductive Outcome where
  | done
  | cmdMsg (msg : CmdMsg)
  | disconnect
  deriving DecidableEq

/-- What a step shows: how it ended and the strings passed to `send`. -/
structure Shown where
  /-- How the step ended. -/
  outcome : Outcome
  /-- The strings sent. -/
  sent : List Sent
  deriving DecidableEq

/-- The state and the outcome after a command; a command that is undefined has none. -/
def runCall (db : Database) (connfd : Fd) (argv : List Bytes) : Option (Database × Shown) :=
  match call connfd argv ⟨db, []⟩ with
  | .ok _ w => some (w.db, ⟨.done, w.sent⟩)
  | .error (.cmdMsg msg) w => some (w.db, ⟨.cmdMsg msg, w.sent⟩)
  | .error .disconnect w => some (w.db, ⟨.disconnect, w.sent⟩)
  | .error .undefined _ => none

/-- What an event does. -/
def next (db : Database) : Event → Option (Database × Shown)
  | .clientAdd connfd info host =>
      if connfd ∈ db.clients then none else some (db.clientAdd connfd info host, ⟨.done, []⟩)
  | .call connfd argv => if connfd ∈ db.clients then runCall db connfd argv else none
  | .clientDel connfd => some (db.clientDel connfd, ⟨.done, []⟩)

/-- The controller and any number of clients. -/
def system : Machine Database Event Shown := ⟨Database.initial, next⟩

end Mircd
