/-
# Identifiers

A name of a client or of a channel is meant to be one word of every line it stands in.  The words
that can be passed as a name are all those that the parser makes, and the last of a line may have
blanks; what the server checks of a new name are its first byte and, of a channel, its length.

* `Token`, `fields` : the words that are one parameter wherever they stand, and the parameters that
  a client reads off a line;
* `nameSpec`, `namesAt` : the names of the database, and those that a line can send;
* `NoBlank`, `noBlank_of_tokens` : the lines that introduce no name with a blank;
* `names_are_tokens` : the runs with only such lines.
-/
import IntroNP.MircdQueries
import IntroNP.MircdMembers
import IntroNP.MircdLines

namespace Mircd

open Machine

/-! ## Parameters -/

/-- A word that is one parameter wherever it stands in a line. -/
def Token (p : Bytes) : Prop := p ≠ [] ∧ ch ' ' ∉ p ∧ p.head? ≠ some (ch ':')

instance (p : Bytes) : Decidable (Token p) := inferInstanceAs (Decidable (_ ∧ _ ∧ _))

/-- The rest of a line, from within a parameter: blanks end it, and a colon after a blank begins the
last one. -/
def fieldsFrom (word : Bytes) : Bytes → List Bytes
  | [] => if word = [] then [] else [word]
  | b :: s =>
      if b = ch ' ' then
        (if word = [] then [] else [word]) ++
          if s.head? = some (ch ':') then [s.tail] else fieldsFrom [] s
      else fieldsFrom (word ++ [b]) s

/-- The parameters of a line without its end, beginning with the prefix or the command. -/
def fields (line : Bytes) : List Bytes := fieldsFrom [] line

/-- The parameters that are meant by a message. -/
def CmdMsg.fields (nick : Bytes) (m : CmdMsg) : List Bytes :=
  (match m.cmd with
    | .text word => [ascii ":" ++ nick, word]
    | .num code => dec03 code :: if nick.isEmpty then [] else [nick]) ++ m.argv

/-- A blank in a nickname moves the parameters behind it. -/
example : fields (ascii ":a b JOIN :#c") = [ascii ":a", ascii "b", ascii "JOIN", ascii "#c"] := by
  decide

theorem fieldsFrom_append {t : Bytes} (ht : ch ' ' ∉ t) (word s : Bytes) :
    fieldsFrom word (t ++ s) = fieldsFrom (word ++ t) s := by
  induction t generalizing word with
  | nil => rw [List.append_nil, List.nil_append]
  | cons b t ih =>
      rw [List.mem_cons, not_or] at ht
      rw [List.cons_append, fieldsFrom, if_neg (Ne.symm ht.1), ih ht.2, List.append_assoc,
        List.singleton_append]

/-- A word and the next. -/
theorem fieldsFrom_token {word p : Bytes} (hword : word ≠ []) (hp : Token p) (s : Bytes) :
    fieldsFrom word (ascii " " ++ p ++ s) = word :: fieldsFrom p s := by
  obtain ⟨hne, hblank, hcolon⟩ := hp
  have hhead : (p ++ s).head? ≠ some (ch ':') := by rwa [List.head?_append_of_ne_nil p hne]
  show fieldsFrom word (ch ' ' :: (p ++ s)) = _
  rw [fieldsFrom, if_pos rfl, if_neg hword, if_neg hhead, fieldsFrom_append hblank, List.nil_append,
    List.singleton_append]

/-- A word and the parameters behind it, of which all but the last are tokens. -/
theorem fieldsFrom_renderArgv {argv : List Bytes} (h : ∀ a ∈ argv.dropLast, Token a) {word : Bytes}
    (hword : word ≠ []) : fieldsFrom word (renderArgv argv) = word :: argv := by
  -- each token becomes the word of the parameters behind it
  induction argv generalizing word with
  | nil => rw [renderArgv, fieldsFrom, if_neg hword]
  | cons a argv ih =>
      cases argv with
      | nil =>
          show fieldsFrom word (ch ' ' :: ch ':' :: a) = _
          rw [fieldsFrom, if_pos rfl, if_neg hword, if_pos (List.head?_cons), List.tail_cons,
            List.singleton_append]
      | cons b argv =>
          rw [List.dropLast_cons_cons] at h
          obtain ⟨ha, hargv⟩ := List.forall_mem_cons.mp h
          rw [renderArgv, fieldsFrom_token hword ha, ih hargv ha.1]

/-- Digits are no blanks and no colons. -/
theorem token_of_digits {p : Bytes} (hne : p ≠ []) (h : ∀ b ∈ p, isDigit b = true) : Token p := by
  refine ⟨hne, fun hblank => ?_, fun hcolon => ?_⟩
  · exact absurd (h _ hblank) (by decide)
  · exact absurd (h _ (List.mem_of_head? hcolon)) (by decide)

theorem token_dec (n : ℕ) : Token (dec n) := by
  refine token_of_digits (fun hnil => ?_) fun b hb => isDigit_of_mem_dec hb
  exact Nat.toDigits_ne_nil (List.map_eq_nil_iff.mp hnil)

theorem token_dec03 (n : ℕ) : Token (dec03 n) := by
  refine token_of_digits (fun hnil => (token_dec n).1 (List.append_eq_nil_iff.mp hnil).2) ?_
  intro b hb
  rcases List.mem_append.mp hb with hb | hb
  · rw [List.eq_of_mem_replicate hb]
    decide
  · exact isDigit_of_mem_dec hb

/-- The line of a message is read as it is meant, if its names are tokens. -/
theorem fields_line {m : CmdMsg} {nick : Bytes} (hnick : nick = [] ∨ Token nick)
    (hword : ∀ word, m.cmd = .text word → Token word) (hargv : ∀ a ∈ m.argv.dropLast, Token a) :
    fields (m.line nick) = m.fields nick := by
  rw [fields, CmdMsg.line, CmdMsg.fields]
  cases hcmd : m.cmd with
  | text word =>
      have hprefix : ch ' ' ∉ ascii ":" ++ nick := by
        rw [List.mem_append, not_or]
        refine ⟨by decide, ?_⟩
        rcases hnick with rfl | hnick
        · exact List.not_mem_nil
        · exact hnick.2.1
      have hne : ascii ":" ++ nick ≠ [] := List.cons_ne_nil _ _
      have hword := hword word hcmd
      calc fieldsFrom [] (ascii ":" ++ nick ++ ascii " " ++ word ++ renderArgv m.argv)
        _ = fieldsFrom [] ((ascii ":" ++ nick) ++ (ascii " " ++ word ++ renderArgv m.argv)) := by
            simp only [List.append_assoc]
        _ = (ascii ":" ++ nick) :: fieldsFrom word (renderArgv m.argv) := by
            rw [fieldsFrom_append hprefix, List.nil_append, fieldsFrom_token hne hword]
        _ = [ascii ":" ++ nick, word] ++ m.argv := by
            rw [fieldsFrom_renderArgv hargv hword.1]
            rfl
  | num code =>
      have hcode := token_dec03 code
      rcases hnick with rfl | hnick
      · show fieldsFrom [] (dec03 code ++ [] ++ renderArgv m.argv) = dec03 code :: [] ++ m.argv
        rw [List.append_nil, fieldsFrom_append hcode.2.1, List.nil_append,
          fieldsFrom_renderArgv hargv hcode.1]
        rfl
      · have hempty : nick.isEmpty = false := List.isEmpty_eq_false_iff.mpr hnick.1
        dsimp only
        rw [hempty, if_neg Bool.false_ne_true, if_neg Bool.false_ne_true, List.append_assoc,
          fieldsFrom_append hcode.2.1, List.nil_append, fieldsFrom_token hcode.1 hnick,
          fieldsFrom_renderArgv hargv hnick.1]
        rfl

/-- The list of nicknames has a blank between two of them. -/
theorem usersstr_eq {nicks : List Bytes} (h : ∀ n ∈ nicks, n ≠ []) :
    usersstr nicks = [ch ' '].intercalate nicks := by
  have hfold : ∀ (nicks : List Bytes) (str : Bytes), str ≠ [] → nicks.foldl
      (fun str nick => (if str.isEmpty then str else str ++ ascii " ") ++ nick) str
        = [ch ' '].intercalate (str :: nicks) := by
    intro nicks
    induction nicks with
    | nil => exact fun str _ => List.intercalate_singleton.symm
    | cons n nicks ih =>
        intro str hstr
        -- behind the first nickname the string is not empty, and a blank comes first
        have hempty : str.isEmpty = false := List.isEmpty_eq_false_iff.mpr hstr
        rw [List.foldl_cons, hempty, if_neg Bool.false_ne_true, ih _ (by simp [hstr])]
        cases nicks with
        | nil => rw [List.intercalate_singleton, List.intercalate_cons_cons,
            List.intercalate_singleton]; rfl
        | cons m nicks =>
            rw [List.intercalate_cons_cons, List.intercalate_cons_cons, List.intercalate_cons_cons]
            simp [ascii, ch]
  cases nicks with
  | nil => rfl
  | cons n nicks => exact hfold nicks n (h n List.mem_cons_self)

/-- The nicknames are read off the list. -/
theorem splitOn_usersstr {nicks : List Bytes} (h : ∀ n ∈ nicks, Token n) (hne : nicks ≠ []) :
    (usersstr nicks).splitOn (ch ' ') = nicks := by
  rw [usersstr_eq fun n hn => (h n hn).1]
  exact List.splitOn_intercalate (ch ' ') (fun n hn => (h n hn).2.1) hne

/-! ## Names -/

/-- The command sets a new nickname. -/
def Database.NewNick (db : Database) (fd : Fd) (cmd n : Bytes) : Prop :=
  cmd = ascii "NICK" ∧ fd ∈ db.clients ∧ n ∉ db.nickMp ∧ validNick n = true

/-- The command creates a channel. -/
def Database.NewChannel (db : Database) (fd : Fd) (cmd n : Bytes) : Prop :=
  (cmd = ascii "JOIN" ∨ cmd = ascii "NAMES") ∧ (db.clients.lookup fd).any Client.hasRegist = true ∧
    n ∉ db.channels ∧ Channel.accepts n = true

/-- The nicknames of the clients, and those in the table. -/
def Database.Nickname (db : Database) (x : Bytes) : Prop :=
  (x ∈ db.nickMp ∧ validNick x = true) ∨
    ∃ fd cl, db.clients.lookup fd = some cl ∧ cl.hasNick = true ∧ cl.nickname = x

/-- The line that is handled in this state introduces no name with a blank. -/
def NoBlank : Server → Prop
  | .running db (some (fd, (cmd :: n :: _) :: _)) =>
      db.NewNick fd cmd n ∨ db.NewChannel fd cmd n → ch ' ' ∉ n
  | _ => True

instance (db : Database) (fd : Fd) (cmd n : Bytes) : Decidable (db.NewNick fd cmd n) :=
  inferInstanceAs (Decidable (_ ∧ _ ∧ _ ∧ _))

instance (db : Database) (fd : Fd) (cmd n : Bytes) : Decidable (db.NewChannel fd cmd n) :=
  inferInstanceAs (Decidable (_ ∧ _ ∧ _ ∧ _))

instance (s : Server) : Decidable (NoBlank s) :=
  match s with
  | .undefined => .isTrue trivial
  | .running _ none => .isTrue trivial
  | .running _ (some (_, [])) => .isTrue trivial
  | .running _ (some (_, [] :: _)) => .isTrue trivial
  | .running _ (some (_, [_] :: _)) => .isTrue trivial
  | .running db (some (fd, (cmd :: n :: _) :: _)) =>
      inferInstanceAs (Decidable (db.NewNick fd cmd n ∨ db.NewChannel fd cmd n → ch ' ' ∉ n))

/-- The names of the database are tokens, and a nickname that is not set is empty. -/
def nameSpec : Spec where
  client := fun cl => (cl.hasNick = true → Token cl.nickname) ∧
    (cl.hasNick = false → cl.nickname = [])
  nick := fun n => validNick n = true → Token n
  channel := fun n c => c.name = n ∧ Token n

/-- The names of the database, and the one that a command introduces. -/
def namesAt (db : Database) (fd : Fd) (cmd : Bytes) (args : List Bytes) : Spec where
  client := fun cl => cl.nickname = [] ∨ db.Nickname cl.nickname ∨
    args.head? = some cl.nickname ∧ db.NewNick fd cmd cl.nickname
  nick := fun _ => True
  channel := fun n c => c.name = n ∧
    (n ∈ db.channels ∨ args.head? = some n ∧ db.NewChannel fd cmd n)

theorem token_of_validNick {n : Bytes} (h : validNick n = true) (hblank : ch ' ' ∉ n) :
    Token n := by
  cases n with
  | nil => cases h
  | cons b n =>
      refine ⟨List.cons_ne_nil b n, hblank, ?_⟩
      rintro ⟨⟩
      have hcolon : isAlpha (ch ':') = true := h
      exact absurd hcolon (by decide)

theorem token_of_accepts {n : Bytes} (h : Channel.accepts n = true) (hblank : ch ' ' ∉ n) :
    Token n := by
  cases n with
  | nil => cases h
  | cons b n =>
      refine ⟨List.cons_ne_nil b n, hblank, ?_⟩
      rintro ⟨⟩
      rw [Channel.accepts, Bool.and_eq_true] at h
      exact absurd h.2 (by simp [ch])

section line

variable {db : Database} {fd : Fd} {cmd : Bytes} {args : List Bytes}

/-- The names of the database are tokens. -/
theorem token_of_nickname (hdb : nameSpec.Db db) {x : Bytes} (h : db.Nickname x) : Token x := by
  rcases h with ⟨hx, hvalid⟩ | ⟨f, cl, hcl, hnick, rfl⟩
  · exact hdb.nicks x hx hvalid
  · exact (hdb.clients f cl hcl).1 hnick

theorem token_of_channel (hdb : nameSpec.Db db) {x : Bytes} (h : x ∈ db.channels) : Token x := by
  obtain ⟨c, hc⟩ := Table.mem_iff_lookup.mp h
  exact (hdb.channels x c hc).2

/-- A nickname that a handler can set is new, or in the table. -/
theorem newNick_of_dispatch {item : CmdItem} {regist : Bool} {n : Bytes}
    (hd : dispatch db fd (cmd :: args) = .handler cmd item args regist) (hcmd : cmd = ascii "NICK")
    (hvalid : validNick n = true) : n ∈ db.nickMp ∨ db.NewNick fd cmd n := by
  obtain ⟨-, -, -, client, hclient, -⟩ := dispatch_eq_handler hd
  have hconn : fd ∈ db.clients := Table.mem_of_lookup hclient
  exact or_iff_not_imp_left.mpr fun hused => ⟨hcmd, hconn, hused, hvalid⟩

/-- A channel that a handler can create is new, or there. -/
theorem newChannel_of_dispatch {item : CmdItem} {regist : Bool} {n : Bytes}
    (hd : dispatch db fd (cmd :: args) = .handler cmd item args regist)
    (hcmd : cmd = ascii "JOIN" ∨ cmd = ascii "NAMES") (haccepts : Channel.accepts n = true) :
    n ∈ db.channels ∨ db.NewChannel fd cmd n := by
  obtain ⟨-, -, -, client, hclient, hregist, hallow⟩ := dispatch_eq_handler hd
  refine or_iff_not_imp_left.mpr fun hin => ⟨hcmd, ?_, hin, haccepts⟩
  rw [hclient, Option.any_some, hregist]
  by_contra hfalse
  have hmem := hallow (Bool.eq_false_iff.mpr hfalse)
  rcases hcmd with rfl | rfl
  · exact absurd hmem (by decide)
  · exact absurd hmem (by decide)

/-- The handlers run with tokens for new names. -/
theorem nameSpec_allows (hdb : nameSpec.Db db)
    (hnick : ∀ n ∈ args.head?, db.NewNick fd cmd n → Token n)
    (hchannel : ∀ n ∈ args.head?, db.NewChannel fd cmd n → Token n) :
    nameSpec.Allows db fd cmd args := by
  intro item regist hd
  have hset : cmd = ascii "NICK" → ∀ n ∈ args.head?, validNick n = true → Token n := by
    intro hcmd n hn hvalid
    rcases newNick_of_dispatch hd hcmd hvalid with hused | hnew
    -- a valid nickname in the table was a token when it came there
    · exact hdb.nicks n hused hvalid
    · exact hnick n hn hnew
  have hcreate : cmd = ascii "JOIN" ∨ cmd = ascii "NAMES" → ∀ n ∈ args.head?,
      Channel.accepts n = true → Token n := by
    intro hcmd n hn haccepts
    rcases newChannel_of_dispatch hd hcmd haccepts with hin | hnew
    · exact token_of_channel hdb hin
    · exact hchannel n hn hnew
  exact {
    nick := hset
    setNick := fun hcmd n hn hvalid cl _ => ⟨fun _ => hset hcmd n hn hvalid, by rintro ⟨⟩⟩
    setUser := fun _ _ _ _ _ _ _ _ _ hcl => hcl
    create := fun hcmd n hn haccepts => ⟨rfl, hcreate hcmd n hn haccepts⟩
    join := fun _ _ _ hcl => hcl
    part := fun _ _ hcl => hcl
    regist := fun cl hcl => by
      show (cl.regist.hasNick = true → Token cl.regist.nickname) ∧ _
      rw [regist_hasNick, regist_nickname]
      exact hcl
    addUser := fun _ _ _ _ hc => hc
    delUser := fun _ _ _ hc => hc
    setTopic := fun _ _ _ _ hc => hc }

/-- The database meets the specification of its names. -/
theorem namesAt_db (hdb : nameSpec.Db db) : (namesAt db fd cmd args).Db db where
  clients := by
    intro f cl hcl
    cases hnick : cl.hasNick with
    | false => exact Or.inl ((hdb.clients f cl hcl).2 hnick)
    | true => exact Or.inr (Or.inl (Or.inr ⟨f, cl, hcl, hnick, rfl⟩))
  nicks := fun _ _ => trivial
  channels := by
    intro n c hc
    exact ⟨(hdb.channels n c hc).1, Or.inl (Table.mem_of_lookup hc)⟩

/-- The command introduces no other names. -/
theorem namesAt_allows : (namesAt db fd cmd args).Allows db fd cmd args := by
  intro item regist hd
  exact {
    nick := fun _ _ _ => trivial
    setNick := fun hcmd n hn hvalid cl _ => by
      rcases newNick_of_dispatch hd hcmd hvalid with hused | hnew
      · exact Or.inr (Or.inl (Or.inl ⟨hused, hvalid⟩))
      · exact Or.inr (Or.inr ⟨hn, hnew⟩)
    setUser := fun _ _ _ _ _ _ _ _ _ hcl => hcl
    create := fun hcmd n hn haccepts =>
      ⟨rfl, (newChannel_of_dispatch hd hcmd haccepts).imp_right fun hnew => ⟨hn, hnew⟩⟩
    join := fun _ _ _ hcl => hcl
    part := fun _ _ hcl => hcl
    regist := fun cl hcl => by
      show cl.regist.nickname = [] ∨ _
      rw [regist_nickname]
      exact hcl
    addUser := fun _ _ _ _ hc => hc
    delUser := fun _ _ _ hc => hc
    setTopic := fun _ _ _ _ hc => hc }

end line

/-- The messages of a command that sends tokens for names. -/
theorem fields_says {S : Spec} (hclient : ∀ cl, S.client cl → cl.nickname = [] ∨ Token cl.nickname)
    (hchannel : ∀ n c, S.channel n c → c.name = n ∧ Token n) {cmd : Bytes} {args : List Bytes}
    {m : CmdMsg} {nick : Bytes} (h : Says S cmd args m nick) :
    fields (m.line nick) = m.fields nick := by
  have hname : ∀ {n c}, S.channel n c → Token c.name := by
    intro n c hc
    rw [(hchannel n c hc).1]
    exact (hchannel n c hc).2
  have hnum : ∀ {code argv} {word : Bytes}, (CmdMsg.mk (.num code) argv).cmd = .text word →
      Token word := by rintro code argv word ⟨⟩
  have htopic : ∀ {n c} {nick : Bytes}, S.channel n c → nick = [] ∨ Token nick →
      fields (c.gettopic.line nick) = c.gettopic.fields nick := by
    intro n c nick hc hnick
    unfold Channel.gettopic
    split_ifs
    · exact fields_line hnick (fun _ => hnum) (List.forall_mem_singleton.mpr (hname hc))
    · exact fields_line hnick (fun _ => hnum) (List.forall_mem_singleton.mpr (hname hc))
  cases h with
  | nick hcmd hn hvalid hcl hnick =>
      exact fields_line (hclient _ hcl) (by rintro w ⟨⟩; decide) (List.forall_mem_nil _)
  | join hcmd hc hcl =>
      exact fields_line (hclient _ hcl) (by rintro w ⟨⟩; decide) (List.forall_mem_nil _)
  | part hcmd hc hcl hmsg =>
      exact fields_line (hclient _ hcl) (by rintro w ⟨⟩; decide)
        (List.forall_mem_singleton.mpr (hchannel _ _ hc).2)
  | topic hcmd hc hcl ht =>
      exact fields_line (hclient _ hcl) (by rintro w ⟨⟩; decide)
        (List.forall_mem_singleton.mpr (hchannel _ _ hc).2)
  | privmsg hcmd hc hcl ht =>
      exact fields_line (hclient _ hcl) (by rintro w ⟨⟩; decide)
        (List.forall_mem_singleton.mpr (hchannel _ _ hc).2)
  | gettopic hcmd hc hcl => exact htopic hc (hclient _ hcl)
  | joinTopic hcmd hc => exact htopic hc (Or.inr (hchannel _ _ hc).2)
  | namreply hcmd hc hcl husers =>
      exact fields_line (hclient _ hcl) (fun _ => hnum) (List.forall_mem_singleton.mpr (hname hc))
  | endOfNames hcmd hc hcl =>
      exact fields_line (hclient _ hcl) (fun _ => hnum) (List.forall_mem_singleton.mpr (hname hc))
  | listStart hcmd hcl => exact fields_line (hclient _ hcl) (fun _ => hnum) (List.forall_mem_nil _)
  | listRow hcmd hc hcl =>
      exact fields_line (hclient _ hcl) (fun _ => hnum)
        (List.forall_mem_cons.mpr ⟨hname hc, List.forall_mem_singleton.mpr (token_dec _)⟩)
  | listEnd hcmd hcl => exact fields_line (hclient _ hcl) (fun _ => hnum) (List.forall_mem_nil _)
  | usersStart hcmd mxname => exact fields_line (Or.inl rfl) (fun _ => hnum) (List.forall_mem_nil _)
  | users hcmd mxname hcl => exact fields_line (Or.inl rfl) (fun _ => hnum) (List.forall_mem_nil _)
  | welcome hm hcl =>
      have hall : ∀ m ∈ welcomeCmds, m.argv.dropLast = [] := by decide
      -- the replies to a registration have one parameter
      have hwords : ∀ m ∈ welcomeCmds, ∀ word, m.cmd ≠ .text word := by
        simp [welcomeCmds, CmdMsg.ofRPL]
      refine fields_line (hclient _ hcl) (fun word hword => absurd hword (hwords _ hm word)) ?_
      rw [hall _ hm]
      exact List.forall_mem_nil _

/-! ## The condition -/

section enters

variable {db : Database} {fd : Fd} {cmd n : Bytes}

/-- A new nickname is set. -/
theorem call_newNick (h : db.NewNick fd cmd n) (rest : List Bytes) :
    Ends (call fd (cmd :: n :: rest)) ⟨db, []⟩
      (fun _ w => ∃ cl, w.db.clients.lookup fd = some cl ∧ cl.hasNick = true ∧ cl.nickname = n)
      (fun _ _ => False) := by
  obtain ⟨rfl, hconn, hfree, hvalid⟩ := h
  obtain ⟨client, hclient⟩ := Table.mem_iff_lookup.mp hconn
  have hitem : cmds.lookup (ascii "NICK") = some ⟨0, nick⟩ := rfl
  have hallow : ascii "NICK" ∈ unregAllow := List.mem_cons_self
  have hvalid' : (n.head?.any isAlpha) = true := hvalid
  have hset : (client.setNick n).hasNick = true ∧ (client.setNick n).nickname = n := ⟨rfl, rfl⟩
  rw [call, hitem]
  simp [getuser, nick, changeNick, welcome, hclient, hfree, hallow, hvalid', lookup_setClient,
    World.update, World.send, hset]

/-- The names of a channel whose members are all there. -/
theorem ends_names {w : World} {client : Client} {db' : Database} {channel : Channel}
    {out : List CmdMsg} {Q : PUnit → World → Prop} {E : Exn → World → Prop}
    (hclient : w.db.clients.lookup fd = some client) (hget : w.db.getchannel n = some db')
    (hchannel : db'.channels.lookup n = some channel) (hout : db'.getusers channel = some out)
    (rest : List Bytes) : Ends (names fd (n :: rest)) w Q E ↔
      Q ⟨⟩ ((w.update fun _ => db').send [(fd, sendcmdsStr out client.nickname)]) := by
  simp [names, getuser, readChannel, sendcmds, hclient, hget, hchannel, hout, World.update]

/-- A new channel is created. -/
theorem call_newChannel (h : db.NewChannel fd cmd n) (rest : List Bytes) :
    Ends (call fd (cmd :: n :: rest)) ⟨db, []⟩ (fun _ w => n ∈ w.db.channels)
      (fun _ _ => False) := by
  obtain ⟨hcmd, hregist, hnew, haccepts⟩ := h
  obtain ⟨client, hclient, hregist⟩ := (Option.any_eq_true _ _).mp hregist
  obtain ⟨db', hget⟩ : ∃ db', db.getchannel n = some db' := by
    rw [Database.getchannel, if_neg hnew, dif_pos haccepts]
    exact ⟨_, rfl⟩
  obtain ⟨channel, hchannel, hname, husers⟩ := (lookup_getchannel hget n).2 hnew
  have hin := mem_getchannel hget
  rcases hcmd with rfl | rfl
  · have hitem : cmds.lookup (ascii "JOIN") = some ⟨1, join⟩ := rfl
    have hclient' : db'.clients.lookup fd = some client := by
      rw [(getchannel_frame hget).1, hclient]
    have hjoined : n ∈ (db'.joined fd client n).channels := Table.mem_modify.mpr hin
    have hfind : ((db'.setClient fd (Client.join n)).setChannel n
        (Channel.addUser fd ⟨fd, (client.join n).id⟩)).getchannel n
          = some (db'.joined fd client n) := getchannel_of_mem hjoined
    have hlookup : (db'.joined fd client n).channels.lookup n
        = some (channel.addUser fd ⟨fd, client.id⟩) := by
      rw [Database.joined, lookup_setChannel, if_pos rfl, setClient_channels, hchannel,
        Option.map_some]
    have hself : (db'.joined fd client n).clients.lookup fd = some (client.join n) := by
      rw [Database.joined, setChannel_clients, lookup_setClient, if_pos rfl, hclient',
        Option.map_some]
    -- the client that joins is the only member, and there
    have hout : ((db'.joined fd client n).getusers
        (channel.addUser fd ⟨fd, client.id⟩)).isSome := by
      have hvalues : Table.values (Table.emplace fd (⟨fd, client.id⟩ : ClientRef) ∅)
          = [⟨fd, client.id⟩] := by
        rw [Table.emplace, if_neg (AList.notMem_empty fd),
          Table.values_insert (AList.notMem_empty fd)]
        rfl
      rw [getusers_isSome, Database.Live, Channel.addUser, husers, hvalues,
        List.forall_mem_singleton, Option.isSome_iff_exists]
      exact ⟨client.join n, deref_eq_some.mpr ⟨hself, rfl⟩⟩
    obtain ⟨out, hout⟩ := Option.isSome_iff_exists.mp hout
    have hnames : ∀ (sent : List Sent) (Q : PUnit → World → Prop) (E : Exn → World → Prop),
        Ends (names fd [n]) ⟨(db'.setClient fd (Client.join n)).setChannel n
          (Channel.addUser fd ⟨fd, (client.join n).id⟩), sent⟩ Q E ↔ _ := fun sent Q E =>
      ends_names hself hfind hlookup hout []
    rw [call, hitem]
    simp [getuser, join, arg, channelAdd, readChannel, broadcast, sendcmd, sendcmds, hclient,
      hregist, hget, hclient', lookup_setClient, lookup_setChannel, hchannel, World.update,
      World.send, hnames, hjoined]
  · have hitem : cmds.lookup (ascii "NAMES") = some ⟨0, names⟩ := rfl
    -- the new channel has no members
    have hout : (db'.getusers channel).isSome := by
      rw [getusers_isSome, Database.Live, husers]
      exact List.forall_mem_nil _
    obtain ⟨out, hout⟩ := Option.isSome_iff_exists.mp hout
    have hnames := fun (Q : PUnit → World → Prop) (E : Exn → World → Prop) =>
      ends_names (w := ⟨db, []⟩) (Q := Q) (E := E) hclient hget hchannel hout rest
    rw [call, hitem]
    simp [getuser, hnames, hclient, hregist, World.update, World.send, hin]

/-- A line that introduces a name with a blank puts it into the database. -/
theorem runLine_blank {argv : List Bytes} {rest : List (List Bytes)}
    (hC : ¬ NoBlank (.running db (some (fd, argv :: rest)))) {sent : List Sent}
    {after : Option Database} (h : runLine fd db argv = (sent, after)) :
    ∃ db', after = some db' ∧
      ((∃ cl, db'.clients.lookup fd = some cl ∧ cl.hasNick = true ∧ ch ' ' ∈ cl.nickname) ∨
        ∃ n ∈ db'.channels, ch ' ' ∈ n) := by
  rcases argv with _ | ⟨cmd, _ | ⟨n, args⟩⟩
  · exact absurd trivial hC
  · exact absurd trivial hC
  · have hC : ¬ (db.NewNick fd cmd n ∨ db.NewChannel fd cmd n → ch ' ' ∉ n) := hC
    obtain ⟨hnew, hblank⟩ := Classical.not_imp.mp hC
    have hblank := not_not.mp hblank
    rw [runLine] at h
    have hends : Ends (call fd (cmd :: n :: args)) ⟨db, []⟩ (fun _ w =>
        (∃ cl, w.db.clients.lookup fd = some cl ∧ cl.hasNick = true ∧ ch ' ' ∈ cl.nickname) ∨
          ∃ n ∈ w.db.channels, ch ' ' ∈ n) (fun _ _ => False) := by
      rcases hnew with hnick | hchannel
      · refine (call_newNick hnick args).mono ?_ (fun _ _ h => h)
        rintro _ w ⟨cl, hcl, hset, rfl⟩
        exact Or.inl ⟨cl, hcl, hset, hblank⟩
      · exact (call_newChannel hchannel args).mono (fun _ _ hin => Or.inr ⟨n, hin, hblank⟩)
          (fun _ _ h => h)
    cases hcall : call fd (cmd :: n :: args) ⟨db, []⟩ with
    | ok a w =>
        rw [hcall] at h
        cases h
        exact ⟨w.db, rfl, hends.of_ok hcall⟩
    | error e w => exact (hends.of_error hcall).elim

/-- In a run that has only tokens for names, no line has introduced another. -/
theorem noBlank_of_tokens {past : List (Moment Server Input (List Sent))} {s : Server}
    (hrun : Run server past s)
    (h : ∀ db todo, Server.running db todo ∈ states past s →
      (∀ fd cl, db.clients.lookup fd = some cl → cl.hasNick = true → Token cl.nickname) ∧
        ∀ n ∈ db.channels, Token n) : ∀ m ∈ past, NoBlank m.pre := by
  induction hrun with
  | start => exact List.forall_mem_nil _
  | @next past s a s' o hrun hnext ih =>
      refine List.forall_mem_cons.mpr
        ⟨?_, ih fun db todo hmem => h db todo (mem_states_next hmem)⟩
      -- a name with a blank would be in the state behind the line
      have hline : ∀ {db fd argv rest after}, s = .running db (some (fd, argv :: rest)) →
          runLine fd db argv = (o, after) → (∀ db', after = some db' →
            s' = .running db' (some (fd, rest))) → NoBlank s := by
        rintro db fd argv rest after rfl hline hafter
        by_contra hC
        obtain ⟨db', rfl, hblank⟩ := runLine_blank hC hline
        obtain rfl := hafter db' rfl
        obtain ⟨hnicks, hchannels⟩ := h _ _ (mem_states_self _ _)
        rcases hblank with ⟨cl, hcl, hset, hblank⟩ | ⟨n, hin, hblank⟩
        · exact (hnicks fd cl hcl hset).2.1 hblank
        · exact (hchannels n hin).2.1 hblank
      cases serves_of_next hnext with
      | accept => trivial
      | closed => trivial
      | read => trivial
      | last => trivial
      | line hsent => exact hline rfl hsent (by rintro db' ⟨⟩; rfl)
      | undefined hsent => exact hline rfl hsent (by rintro db' ⟨⟩)

end enters

/-! ## Runs -/

/-- A string with the lines of the messages of a command, which are read as they are meant; or of an
error reply, which is if the word before its text is a name. -/
inductive Delimited : Server → Bytes → Prop
  | pong {db fd cmd args rest} (hcmd : cmd = ascii "PING") :
      Delimited (.running db (some (fd, (cmd :: args) :: rest))) (ascii "PONG\n")
  | said {db fd cmd args rest msgs nick}
      (hmsgs : ∀ m ∈ msgs, Says (namesAt db fd cmd args) cmd args m nick ∧
        fields (m.line nick) = m.fields nick) :
      Delimited (.running db (some (fd, (cmd :: args) :: rest))) (sendcmdsStr msgs nick)
  | err {db fd cmd args rest msg} (herr : Errs (cmd :: args) msg)
      (hfields : (∀ x ∈ msg.argv.dropLast, db.Nickname x ∨ x ∈ db.channels) →
        fields (msg.line []) = msg.fields []) :
      Delimited (.running db (some (fd, (cmd :: args) :: rest))) (sendcmdsStr [msg] [])

section runs

variable {db : Database} {fd : Fd} {argv : List Bytes} {rest : List (List Bytes)}

/-- The names that a line introduces are tokens. -/
theorem token_of_noBlank {cmd : Bytes} {args : List Bytes}
    (h : NoBlank (.running db (some (fd, (cmd :: args) :: rest)))) :
    (∀ n ∈ args.head?, db.NewNick fd cmd n → Token n) ∧
      ∀ n ∈ args.head?, db.NewChannel fd cmd n → Token n := by
  cases args with
  | nil => exact ⟨by rintro n ⟨⟩, by rintro n ⟨⟩⟩
  | cons n args =>
      refine ⟨?_, ?_⟩
      · rintro _ ⟨⟩ hnew
        exact token_of_validNick hnew.2.2.2 (h (Or.inl hnew))
      · rintro _ ⟨⟩ hnew
        exact token_of_accepts hnew.2.2.2 (h (Or.inr hnew))

/-- What is sent in a state with such names. -/
theorem delimited_of_replies {s : Server} (h : nameSpec.Serving (fun _ => True) s)
    (hC : NoBlank s) {text : Bytes} (hreplies : Replies namesAt s text) : Delimited s text := by
  cases hreplies with
  | @said db fd cmd args rest text hsaid =>
      cases h with
      | running hdb htodo =>
          obtain ⟨hnick, hchannel⟩ := token_of_noBlank hC
          have hclient : ∀ cl, (namesAt db fd cmd args).client cl →
              cl.nickname = [] ∨ Token cl.nickname := by
            rintro cl (hempty | hold | ⟨hhead, hnew⟩)
            · exact Or.inl hempty
            · exact Or.inr (token_of_nickname hdb hold)
            · exact Or.inr (hnick _ hhead hnew)
          have hname : ∀ n c, (namesAt db fd cmd args).channel n c → c.name = n ∧ Token n := by
            rintro n c ⟨hsame, hin | ⟨hhead, hnew⟩⟩
            · exact ⟨hsame, token_of_channel hdb hin⟩
            · exact ⟨hsame, hchannel n hhead hnew⟩
          rcases hsaid with ⟨hcmd, rfl⟩ | ⟨msgs, nick, rfl, hmsgs⟩
          · exact .pong hcmd
          · exact .said fun m hm => ⟨hmsgs m hm, fields_says hclient hname (hmsgs m hm)⟩
  | @err db fd cmd args rest msg herr =>
      cases h with
      | running hdb htodo =>
          refine .err herr fun hnames => ?_
          have hword : ∀ word, msg.cmd = .text word → Token word := by
            cases herr <;> rintro word ⟨⟩
          refine fields_line (Or.inl rfl) hword fun y hy => ?_
          rcases hnames y hy with hold | hin
          · exact token_of_nickname hdb hold
          · exact token_of_channel hdb hin

/-- Such a line keeps the specification. -/
theorem nameSpec_accepts {s : Server} (h : nameSpec.Serving (fun _ => True) s) (hC : NoBlank s) :
    nameSpec.Accepts s := by
  cases h with
  | undefined => trivial
  | @running db todo hdb htodo =>
      rcases todo with _ | ⟨fd, _ | ⟨_ | ⟨cmd, args⟩, rest⟩⟩
      · trivial
      · trivial
      · trivial
      · obtain ⟨hnick, hchannel⟩ := token_of_noBlank hC
        exact nameSpec_allows hdb hnick hchannel

/-- A new client has no nickname. -/
theorem nameSpec_new (id : ℕ) (sock : SockAddr) :
    nameSpec.client (Client.new id (sockInfo sock) (sockHost sock)) :=
  ⟨by rintro ⟨⟩, fun _ => rfl⟩

end runs

/-- In every run in which no line introduces a name with a blank: the nicknames that have been set
and the names of the channels are tokens, the list of `NAMES` is split at the blanks into the
nicknames of the members, and in every line that is sent each name is one parameter. -/
theorem names_are_tokens {past : List (Moment Server Input (List Sent))} {s : Server}
    (hrun : Run server past s) (hC : ∀ m ∈ past, NoBlank m.pre) :
    (∀ db todo, s = .running db todo →
      (∀ fd cl, db.clients.lookup fd = some cl → cl.hasNick = true → Token cl.nickname) ∧
      (∀ n c, db.channels.lookup n = some c → c.name = n ∧ Token n) ∧
      ∀ n c users, db.channels.lookup n = some c →
        (Table.values c.users).mapM db.deref = some users → users ≠ [] →
        ∃ str, db.getusers c = some [.ofRPL .NAMREPLY [n, str],
            .ofRPL .ENDOFNAMES [n, ascii "End of /NAMES list"]] ∧
          str.splitOn (ch ' ') = users.map Client.nickname) ∧
    ∀ m ∈ past, ∀ sent ∈ m.shown, Delimited m.pre sent.2 := by
  obtain ⟨hserving, hsent⟩ := serving_run (S := nameSpec) (T := namesAt) (L := fun _ => True)
    (fun _ _ _ _ hdb => ⟨namesAt_db hdb, namesAt_allows⟩) nameSpec_new (fun _ _ _ => trivial) hrun
    fun m hm h => nameSpec_accepts h (hC m hm)
  refine ⟨?_, fun m hm sent hx =>
    delimited_of_replies (hsent m hm).1 (hC m hm) ((hsent m hm).2 sent hx)⟩
  rintro db todo rfl
  cases hserving with
  | running hdb htodo =>
      have hnick : ∀ fd cl, db.clients.lookup fd = some cl → cl.hasNick = true →
          Token cl.nickname := fun fd cl hcl => (hdb.clients fd cl hcl).1
      refine ⟨hnick, hdb.channels, fun n c users hc husers hne => ?_⟩
      obtain ⟨past', hpast⟩ := run_system hrun rfl
      have hmembers := members_run hpast
      -- whoever is on a channel and still there has set a nickname
      have htokens : ∀ x ∈ users.map Client.nickname, Token x := by
        intro x hx
        obtain ⟨u, hu, rfl⟩ := List.mem_map.mp hx
        obtain ⟨ref, href, hderef⟩ := mem_of_mapM husers hu
        obtain ⟨⟨f, ref'⟩, hentry, rfl⟩ := List.mem_map.mp href
        have hnamed := hmembers.users n c hc f ref' (Table.mem_entries_iff.mp hentry)
        exact hnick _ u (deref_eq_some.mp hderef).1 (hnamed.hasNick u hderef)
      refine ⟨usersstr (users.map Client.nickname), ?_,
        splitOn_usersstr htokens (by simpa using hne)⟩
      rw [Database.getusers, husers, ← (hdb.channels n c hc).1]
      simp [hne]

/-- A client registers, joins a channel and asks for one that cannot be. -/
theorem names_are_tokens_joined : ∃ past db todo c cl, Run server past (.running db todo) ∧
    db.channels.lookup (ascii "#c") = some c ∧ Token (ascii "#c") ∧
    db.clients.lookup 4 = some cl ∧ cl.nickname = ascii "a" ∧ Token cl.nickname ∧
    ∀ m ∈ past, ∀ sent ∈ m.shown, Delimited m.pre sent.2 := by
  obtain ⟨past, s, hrun, htest⟩ := exists_run_of_replay server
    ([.accept 4 ⟨[127, 0, 0, 1], 10004, rfl⟩,
      .read 4 (ascii "NICK a\r\nUSER b c d :e\r\nJOIN #c\r\nJOIN :a b\r\n")]
      ++ List.replicate 4 .line)
    (fun r => r.1.all (fun m => decide (NoBlank m.pre)) && match r.2 with
      | .running db _ => (db.channels.lookup (ascii "#c")).isSome &&
          (db.clients.lookup 4).any fun cl => cl.hasNick && decide (cl.nickname = ascii "a")
      | .undefined => false)
    (by decide +kernel)
  rw [Bool.and_eq_true, List.all_eq_true] at htest
  obtain ⟨hC, htest⟩ := htest
  cases s with
  | undefined => cases htest
  | running db todo =>
      obtain ⟨hchannel, hclient⟩ := Bool.and_eq_true_iff.mp htest
      obtain ⟨c, hc⟩ := Option.isSome_iff_exists.mp hchannel
      obtain ⟨cl, hcl, hcl'⟩ := (Option.any_eq_true _ _).mp hclient
      obtain ⟨hnick, hname⟩ := Bool.and_eq_true_iff.mp hcl'
      obtain ⟨hstate, hsent⟩ := names_are_tokens hrun fun m hm => of_decide_eq_true (hC m hm)
      obtain ⟨hnicks, hchannels, -⟩ := hstate db todo rfl
      exact ⟨past, db, todo, c, cl, hrun, hc, (hchannels _ c hc).2, hcl, of_decide_eq_true hname,
        hnicks 4 cl hcl hnick, hsent⟩

/-- A client chooses a nickname with a blank and joins a channel with a blank in its name: the line
of the `JOIN` is read as another, and the list of the members as two nicknames. -/
theorem names_with_blanks : ∃ past db todo c cl, Run server past (.running db todo) ∧
    db.clients.lookup 4 = some cl ∧ cl.hasNick = true ∧ cl.nickname = ascii "a b" ∧
    ¬ Token cl.nickname ∧
    db.channels.lookup (ascii "#c d") = some c ∧ ¬ Token (ascii "#c d") ∧
    db.getusers c = some [.ofRPL .NAMREPLY [ascii "#c d", ascii "a b"],
      .ofRPL .ENDOFNAMES [ascii "#c d", ascii "End of /NAMES list"]] ∧
    (ascii "a b").splitOn (ch ' ') = [ascii "a", ascii "b"] ∧
    (∃ m ∈ past, (4, sendcmdsStr [.ofText "JOIN" [ascii "#c d"]] (ascii "a b")) ∈ m.shown) ∧
    fields ((CmdMsg.ofText "JOIN" [ascii "#c d"]).line (ascii "a b"))
      = [ascii ":a", ascii "b", ascii "JOIN", ascii "#c d"] := by
  obtain ⟨past, s, hrun, htest⟩ := exists_run_of_replay server
    ([.accept 4 ⟨[127, 0, 0, 1], 10004, rfl⟩,
      .read 4 (ascii "NICK :a b\r\nUSER u h s :r\r\nJOIN :#c d\r\n")]
      ++ List.replicate 3 .line)
    (fun r => r.1.any (fun m => decide
        ((4, sendcmdsStr [.ofText "JOIN" [ascii "#c d"]] (ascii "a b")) ∈ m.shown)) &&
      match r.2 with
      | .running db _ => ((db.channels.lookup (ascii "#c d")).any fun c => decide (db.getusers c
            = some [.ofRPL .NAMREPLY [ascii "#c d", ascii "a b"],
              .ofRPL .ENDOFNAMES [ascii "#c d", ascii "End of /NAMES list"]])) &&
          (db.clients.lookup 4).any fun cl => cl.hasNick && decide (cl.nickname = ascii "a b")
      | .undefined => false)
    (by decide +kernel)
  rw [Bool.and_eq_true, List.any_eq_true] at htest
  obtain ⟨⟨m, hm, hsent⟩, htest⟩ := htest
  cases s with
  | undefined => cases htest
  | running db todo =>
      obtain ⟨hchannel, hclient⟩ := Bool.and_eq_true_iff.mp htest
      obtain ⟨c, hc, hnames⟩ := (Option.any_eq_true _ _).mp hchannel
      obtain ⟨cl, hcl, hcl'⟩ := (Option.any_eq_true _ _).mp hclient
      obtain ⟨hnick, hname⟩ := Bool.and_eq_true_iff.mp hcl'
      have hname := of_decide_eq_true hname
      exact ⟨past, db, todo, c, cl, hrun, hcl, hnick, hname, by rw [hname]; decide, hc, by decide,
        of_decide_eq_true hnames, by decide, ⟨m, hm, of_decide_eq_true hsent⟩, by decide⟩

end Mircd
