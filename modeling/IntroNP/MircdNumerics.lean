/-
# The form of numeric replies

The general form of a server message in the README of `Homework/1` has a prefix, three digits, the
nickname of the client if it has one, and the parameters, the last one behind a colon.  `sendcmds`
begins the line of a numeric reply with the digits, without a prefix.

* `Numeric`, `General` : the lines of numeric replies, and the general form;
* `numeric_line_iff` : the lines that `sendcmds` writes of messages with a number are the numeric
  ones;
* `Silent` : the command lines that are handled without a numeric reply;
* `call_answers` : a line is answered with a numeric reply unless it is one of these;
* `general_form_iff` : when all numeric replies have the general form.
-/
import IntroNP.MircdLines
import IntroNP.Pieces

namespace Mircd

open Machine

/-! ## Lines -/

/-- Three digits. -/
def IsCode (code : Bytes) : Prop := code.length = 3 ∧ ∀ b ∈ code, isDigit b = true

/-- The line of a numeric reply: `sendcmds` begins it with the number, and a line with a word with a
colon. -/
def Numeric (line : Bytes) : Prop := ∃ code rest, IsCode code ∧ line = code ++ rest

/-- The general form of a numeric reply to a client of the nickname, which is empty if it has
none. -/
def General (nick line : Bytes) : Prop :=
  ∃ origin code params, IsCode code ∧ params ≠ [] ∧
    line = ascii ":" ++ origin ++ ascii " " ++ code ++
      (if nick.isEmpty then [] else ascii " " ++ nick) ++ renderArgv params

/-- A numeric line begins with a digit. -/
theorem Numeric.head {line : Bytes} (h : Numeric line) : ∃ b ∈ line.head?, isDigit b = true := by
  obtain ⟨code, rest, ⟨hlen, hdigits⟩, rfl⟩ := h
  cases code with
  | nil => cases hlen
  | cons b code => exact ⟨b, rfl, hdigits b List.mem_cons_self⟩

/-- No numeric line has the general form, as the prefix is missing. -/
theorem Numeric.not_general {line : Bytes} (h : Numeric line) (nick : Bytes) :
    ¬ General nick line := by
  rintro ⟨origin, code, params, -, -, rfl⟩
  obtain ⟨b, hb, hdigit⟩ := h.head
  cases hb
  exact absurd hdigit (by decide)

/-- The three digits of `%03d`, and more for larger numbers. -/
theorem exists_code_dec03 (n : ℕ) : ∃ code rest, IsCode code ∧ dec03 n = code ++ rest := by
  refine ⟨(dec03 n).take 3, (dec03 n).drop 3, ⟨?_, fun b hb => ?_⟩,
    (List.take_append_drop 3 (dec03 n)).symm⟩
  · rw [List.length_take, dec03, List.length_append, List.length_replicate]
    omega
  · rcases List.mem_append.mp (List.mem_of_mem_take hb) with hb | hb
    · rw [List.eq_of_mem_replicate hb]
      decide
    · exact isDigit_of_mem_dec hb

/-- The numeric lines are those of messages with a number. -/
theorem numeric_line_iff (m : CmdMsg) (nick : Bytes) :
    Numeric (m.line nick) ↔ ∃ code, m.cmd = .num code := by
  rw [CmdMsg.line]
  cases m.cmd with
  | text word =>
      refine iff_of_false (fun h => ?_) (by simp)
      obtain ⟨b, hb, hdigit⟩ := h.head
      cases hb
      exact absurd hdigit (by decide)
  | num n =>
      refine iff_of_true ?_ ⟨n, rfl⟩
      obtain ⟨code, rest, hcode, hdec⟩ := exists_code_dec03 n
      refine ⟨code, rest ++ (if nick.isEmpty then [] else ascii " " ++ nick) ++ renderArgv m.argv,
        hcode, ?_⟩
      simp only [hdec, List.append_assoc]

/-! ## Strings -/

/-- The lines of a string that is sent. -/
def linesOf (s : Bytes) : List Bytes := pieces (ch '\n') s

/-- A string without a numeric line. -/
def Wordy (s : Bytes) : Prop := ∀ line ∈ linesOf s, ¬ Numeric line

theorem wordy_nil : Wordy [] := List.forall_mem_nil _

theorem wordy_pong : Wordy (ascii "PONG\n") := by
  have hlines : linesOf (ascii "PONG\n") = [ascii "PONG"] := by decide
  rw [Wordy, hlines, List.forall_mem_singleton]
  intro h
  obtain ⟨b, hb, hdigit⟩ := h.head
  cases hb
  exact absurd hdigit (by decide)

/-- A message with a word is one line, as its parts are texts. -/
theorem wordy_text {word : String} {argv : List Bytes} {nick : Bytes} (hword : IsText (ascii word))
    (hargv : ∀ a ∈ argv, IsText a) (hnick : IsText nick) :
    Wordy (sendcmdsStr [.ofText word argv] nick) := by
  have htext : IsText ((CmdMsg.ofText word argv).line nick) := (text_ofText hword hargv).line hnick
  have hlf : ch '\n' ∉ (CmdMsg.ofText word argv).line nick :=
    fun hmem => absurd (htext _ hmem) (by decide)
  have hlines : linesOf (sendcmdsStr [.ofText word argv] nick)
      = [(CmdMsg.ofText word argv).line nick] := by
    rw [sendcmdsStr_singleton]
    exact pieces_append_sep hlf []
  rw [Wordy, hlines, List.forall_mem_singleton, numeric_line_iff]
  rintro ⟨code, hcode⟩
  cases hcode

/-- Messages of which the first has a number. -/
theorem not_wordy_num {m : CmdMsg} {code : ℕ} (hm : m.cmd = .num code) (msgs : List CmdMsg)
    (nick : Bytes) : ¬ Wordy (sendcmdsStr (m :: msgs) nick) := by
  obtain ⟨c, rest, hcode, hline⟩ := (numeric_line_iff m nick).mpr ⟨code, hm⟩
  have hlf : ch '\n' ∉ c := fun hmem => absurd (hcode.2 _ hmem) (by decide)
  have hne : c ≠ [] := by
    rintro rfl
    cases hcode.1
  have htext : sendcmdsStr (m :: msgs) nick
      = c ++ (rest ++ ascii "\n" ++ sendcmdsStr msgs nick) := by
    rw [sendcmdsStr_eq, sendcmdsStr_eq, List.map_cons, List.map_cons, List.flatten_cons, hline]
    simp only [List.append_assoc]
  obtain ⟨u, us, hlines⟩ := exists_pieces_append hlf hne
    (rest ++ ascii "\n" ++ sendcmdsStr msgs nick)
  intro h
  rw [Wordy, linesOf, htext, hlines, List.forall_mem_cons] at h
  exact h.1 ⟨c, u, hcode, rfl⟩

/-! ## Silent command lines -/

/-- The command lines that are handled without a numeric reply: those that end the checks and the
handler of their command without one, and do not complete a registration. -/
def Silent (db : Database) (client : Client) : List Bytes → Prop
  | [] => True
  | cmd :: args =>
      if cmd = ascii "NICK" then
        (∃ n ∈ args.head?, n ∉ db.nickMp ∧ validNick n = true) ∧
          (client.hasRegist = true ∨ client.status.user = false)
      else if cmd = ascii "USER" then
        4 ≤ args.length ∧ client.hasRegist = false ∧ client.hasNick = false
      else if cmd = ascii "QUIT" then True
      else if client.hasRegist = false then False
      else if cmd = ascii "PART" then
        ∃ name ∈ args.head?, name ∈ db.channels ∧ name ∈ client.channels
      else if cmd = ascii "TOPIC" then
        2 ≤ args.length ∧ ∃ name ∈ args.head?, name ∈ db.channels ∧ name ∈ client.channels
      else if cmd = ascii "NAMES" then args = [] ∧ Table.values db.channels = []
      else if cmd = ascii "PRIVMSG" then
        2 ≤ args.length ∧ ∃ name ∈ args.head?, name ∈ db.channels
      else if cmd = ascii "PING" then args ≠ []
      else False

/-- No string that is sent has a numeric line. -/
def AllWordy (out : List Sent) : Prop := ∀ x ∈ out, Wordy x.2

@[simp] theorem allWordy_nil : AllWordy [] := List.forall_mem_nil _

@[simp] theorem allWordy_append (out out' : List Sent) :
    AllWordy (out ++ out') ↔ AllWordy out ∧ AllWordy out' := List.forall_mem_append

@[simp] theorem allWordy_singleton (x : Sent) : AllWordy [x] ↔ Wordy x.2 :=
  List.forall_mem_singleton

/-- The same string to several clients. -/
theorem allWordy_broadcast {s : Bytes} (h : Wordy s) (fds : List Fd) :
    AllWordy (fds.map fun fd => (fd, s)) := by
  intro x hx
  obtain ⟨fd, -, rfl⟩ := List.mem_map.mp hx
  exact h

/-- What a throw has sent and what the server sends for it. -/
def Refuses (silent : Prop) : Exn → World → Prop
  | .cmdMsg msg, _ => (∃ code, msg.cmd = .num code) ∧ ¬ silent
  | .disconnect, w => AllWordy w.sent ↔ silent
  | .undefined, _ => True

@[simp] theorem refuses_undefined (silent : Prop) (w : World) : Refuses silent .undefined w ↔ True :=
  Iff.rfl

@[simp] theorem refuses_ofERR (silent : Prop) (e : ERR) (argv : List Bytes) (w : World) :
    Refuses silent (.cmdMsg (.ofERR e argv)) w ↔ ¬ silent := and_iff_right ⟨e.code, rfl⟩

/-- The program is answered with a numeric reply unless `silent`. -/
def Answers (silent : Prop) (m : M PUnit) (db : Database) : Prop :=
  Ends m ⟨db, []⟩ (fun _ w => AllWordy w.sent ↔ silent) (Refuses silent)

@[simp] theorem World.send_sent (w : World) (out : List Sent) : (w.send out).sent = w.sent ++ out :=
  rfl

@[simp] theorem World.update_sent (w : World) (f : Database → Database) :
    (w.update f).sent = w.sent := rfl

/-- The handler of a command, and what `call` does after it. -/
def handled (connfd : Fd) (regist : Bool) (m : M PUnit) : M PUnit :=
  m >>= fun _ => if regist then pure ⟨⟩ else welcome connfd

theorem Answers.handled {silent : Prop} {m : M PUnit} {db : Database} (h : Answers silent m db)
    (fd : Fd) : Answers silent (handled fd true m) db := by
  rw [Answers, Mircd.handled, ends_bind]
  exact h

/-! ## Handlers -/

theorem not_wordy_welcome (nick : Bytes) : ¬ Wordy (sendcmdsStr welcomeCmds nick) :=
  not_wordy_num rfl _ nick

theorem registers_setNick (n : Bytes) (cl : Client) :
    (cl.setNick n).registers = (!cl.hasRegist && cl.status.user) := by
  show (!cl.hasRegist && (true && cl.status.user)) = _
  rw [Bool.true_and]

theorem registers_setUser (a b c d : Bytes) (cl : Client) :
    (cl.setUser a b c d).registers = (!cl.hasRegist && cl.hasNick) := by
  show (!cl.hasRegist && (cl.hasNick && true)) = _
  rw [Bool.and_true]

/-- The welcome is sent to a client that registers. -/
theorem allWordy_welcome (fd : Fd) (cl : Client) : AllWordy (if cl.registers = true then
    [(fd, sendcmdsStr welcomeCmds cl.nickname)] else []) ↔ cl.registers = false := by
  cases cl.registers with
  | true =>
      apply iff_of_false
      · rw [if_pos rfl, allWordy_singleton]
        exact not_wordy_welcome cl.nickname
      · simp
  | false => exact iff_of_true allWordy_nil rfl

theorem not_wordy_gettopic (c : Channel) (nick : Bytes) : ¬ Wordy (sendcmdsStr [c.gettopic] nick) := by
  have hnum : ∃ code, c.gettopic.cmd = .num code := by
    unfold Channel.gettopic
    split_ifs
    · exact ⟨_, rfl⟩
    · exact ⟨_, rfl⟩
  obtain ⟨code, hcode⟩ := hnum
  exact not_wordy_num hcode [] nick

/-- There is always the end of the list. -/
theorem not_wordy_getusers {db : Database} {c : Channel} {out : List CmdMsg}
    (h : db.getusers c = some out) (msgs : List CmdMsg) (nick : Bytes) :
    ¬ Wordy (sendcmdsStr (out ++ msgs) nick) := by
  obtain ⟨users, -, h⟩ := Option.bind_eq_some_iff.mp h
  split_ifs at h
  · cases h
    exact not_wordy_num rfl msgs nick
  · cases h
    exact not_wordy_num rfl _ nick

section handlers

variable {db : Database} {fd : Fd} {client : Client} {args : List Bytes}
  (hdb : textSpec.Db db) (hargs : ∀ a ∈ args, IsText a)
  (hclient : db.clients.lookup fd = some client)

include hdb hargs hclient in
theorem nick_answers : Answers (Silent db client (ascii "NICK" :: args))
    (handled fd client.hasRegist (nick fd args)) db := by
  cases args with
  | nil => simp [Answers, handled, nick, Silent]
  | cons n rest =>
      have hsilent : Silent db client (ascii "NICK" :: n :: rest) ↔
          (n ∉ db.nickMp ∧ validNick n = true) ∧
            (client.hasRegist = true ∨ client.status.user = false) := by
        simp [Silent]
      have htext : AllWordy (if client.hasNick then
          [(fd, sendcmdsStr [.ofText "NICK" [n]] client.nickname)] else []) := by
        split_ifs
        · apply (allWordy_singleton _).mpr
          exact wordy_text (by decide) (List.forall_mem_singleton.mpr (hargs n List.mem_cons_self))
            (hdb.clients fd client hclient).nickname
        · exact allWordy_nil
      simp only [Answers, handled, nick, getuser, changeNick, welcome, ends_bind, ends_get, ends_ite,
        ends_throwErr, ends_orUndefined, ends_update, ends_send, ends_pure, World.update_db,
        World.send_db, World.update_sent, World.send_sent, refuses_undefined, refuses_ofERR,
        implies_true, and_true, hclient, lookup_setClient, Option.some.injEq, if_true,
        List.nil_append, hsilent]
      refine ⟨fun hused h => h.1.1 hused, ?_⟩
      rintro hfree _ rfl _ rfl
      refine ⟨fun hinvalid h => ?_, fun hvalid => ?_⟩
      · rw [validNick] at h
        simp [h.1.2] at hinvalid
      · have hvalid : validNick n = true := by simpa [validNick] using hvalid
        refine ⟨fun hregist => ?_, fun hregist => ?_⟩
        · exact iff_of_true htext ⟨⟨hfree, hvalid⟩, Or.inl hregist⟩
        · rintro _ ⟨_, rfl, rfl⟩
          rw [allWordy_append, and_iff_right htext, allWordy_welcome, registers_setNick]
          simp [hfree, hvalid, hregist]

include hclient in
theorem user_answers : Answers (Silent db client (ascii "USER" :: args))
    (handled fd client.hasRegist (user fd args)) db := by
  have hsilent : Silent db client (ascii "USER" :: args) ↔
      4 ≤ args.length ∧ client.hasRegist = false ∧ client.hasNick = false := by
    rw [Silent, if_neg (by decide), if_pos rfl]
  simp only [Answers, handled, user, arg, getuser, welcome, ends_bind, ends_get, ends_ite,
    ends_throwErr, ends_orUndefined, ends_update, ends_send, ends_pure, World.update_db,
    World.update_sent, World.send_sent, refuses_undefined, refuses_ofERR, implies_true, and_true,
    hclient, lookup_setClient, Option.some.injEq, if_true, List.nil_append, hsilent]
  rintro _ rfl
  refine ⟨fun hregist h => ?_, fun hregist username _ hostname _ servername _ realname hlast =>
    ⟨fun h => absurd h hregist, fun _ => ?_⟩⟩
  · rw [hregist] at h
    cases h.2.1
  · rintro _ ⟨_, rfl, rfl⟩
    have hlen : 4 ≤ args.length := (List.getElem?_eq_some_iff.mp hlast).1
    rw [allWordy_welcome, registers_setUser]
    simp [hlen, hregist]

theorem quit_answers (regist : Bool) : Answers (Silent db client (ascii "QUIT" :: args))
    (handled fd regist (quit fd args)) db := by
  show AllWordy [] ↔ _
  refine iff_of_true allWordy_nil ?_
  rw [Silent, if_neg (by decide), if_neg (by decide), if_pos rfl]
  trivial

variable (hregist : client.hasRegist = true)
include hregist

theorem join_answers : Answers (Silent db client (ascii "JOIN" :: args)) (join fd args) db := by
  have hsilent : ¬ Silent db client (ascii "JOIN" :: args) := by
    simp +decide [Silent, hregist]
  simp only [Answers, join, channelAdd, names, arg, getuser, readChannel, broadcast, sendcmd,
    sendcmds, ends_bind, ends_get, ends_orUndefined, ends_update, ends_send, ends_getchannel,
    World.update_sent, World.send_sent, refuses_undefined, refuses_ofERR, implies_true, and_true,
    hsilent, not_false_eq_true, allWordy_append, allWordy_singleton, not_wordy_gettopic, and_false,
    false_and]

include hdb hargs hclient in
theorem part_answers : Answers (Silent db client (ascii "PART" :: args)) (part fd args) db := by
  cases args with
  | nil => simp [Answers, part, arg]
  | cons name rest =>
      have hsilent : Silent db client (ascii "PART" :: name :: rest) ↔
          name ∈ db.channels ∧ name ∈ client.channels := by
        simp +decide [Silent, hregist]
      simp only [Answers, part, channelDel, readChannel, broadcast, arg, getuser, ends_bind,
        ends_get, ends_ite, ends_throwErr, ends_orUndefined, ends_update, ends_send,
        World.update_db, World.update_sent, World.send_sent, refuses_undefined, refuses_ofERR,
        implies_true, and_true, hsilent, hclient, Option.some.injEq, List.nil_append]
      rintro _ ⟨⟩
      refine ⟨fun hnone h => hnone h.1, fun hchannel => ?_⟩
      rintro _ rfl
      refine ⟨fun hout h => hout h.2, fun hin channel hc ref _ cl hcl => ?_⟩
      -- the nickname is read through the reference in the channel
      have hnick : IsText cl.nickname :=
        ((hdb.setClient (fun c hc => (textSpec_closed (ascii "PART") hargs).part name c hc)
          fd).deref hcl).nickname
      have hmsg : IsText ((name :: rest)[1]?.getD Channel.defaultPartMsg) := by
        cases hone : (name :: rest)[1]? with
        | none => exact (by decide : IsText Channel.defaultPartMsg)
        | some msg => exact hargs msg (List.mem_of_getElem? hone)
      refine iff_of_true (allWordy_broadcast (wordy_text (by decide) ?_ hnick) _)
        ⟨not_not.mp hchannel, not_not.mp hin⟩
      exact isText_pair (hargs name List.mem_cons_self) hmsg

include hdb hargs hclient in
theorem topic_answers : Answers (Silent db client (ascii "TOPIC" :: args)) (topic fd args) db := by
  cases args with
  | nil => simp [Answers, topic, arg]
  | cons name rest =>
      have hsilent : Silent db client (ascii "TOPIC" :: name :: rest) ↔
          1 ≤ rest.length ∧ name ∈ db.channels ∧ name ∈ client.channels := by
        simp +decide [Silent, hregist]
      simp only [Answers, topic, readChannel, broadcast, arg, getuser, ends_bind, sendcmd, sendcmds,
        ends_get, ends_ite, ends_throwErr, ends_orUndefined, refuses_undefined, refuses_ofERR,
        implies_true, and_true, hsilent, hclient, Option.some.injEq]
      rintro _ ⟨⟩
      refine ⟨fun hnone h => hnone h.2.1, fun hchannel => ?_⟩
      rintro _ rfl
      refine ⟨fun hout h => hout h.2.2, fun hin channel hc => ?_⟩
      cases rest with
      | nil =>
          show AllWordy [_] ↔ _
          rw [allWordy_singleton]
          exact iff_of_false (not_wordy_gettopic channel _) fun h => absurd h.1 (by simp)
      | cons t rest =>
          show AllWordy (channel.users.keys.map fun fd =>
            (fd, sendcmdsStr [.ofText "TOPIC" [name, t]] client.nickname)) ↔ _
          have ht : t ∈ name :: t :: rest := List.mem_cons_of_mem _ List.mem_cons_self
          refine iff_of_true (allWordy_broadcast (wordy_text (by decide) ?_ ?_) _)
            ⟨by simp, not_not.mp hchannel, not_not.mp hin⟩
          · exact isText_pair (hargs name List.mem_cons_self) (hargs t ht)
          · exact (hdb.clients fd client hclient).nickname

theorem names_answers : Answers (Silent db client (ascii "NAMES" :: args)) (names fd args) db := by
  cases args with
  | nil =>
      have hsilent : Silent db client [ascii "NAMES"] ↔ Table.values db.channels = [] := by
        simp +decide [Silent, hregist]
      simp only [Answers, names, getuser, sendcmds, ends_bind, ends_get, ends_orUndefined,
        ends_send, World.send_sent, refuses_undefined, implies_true, and_true, List.nil_append,
        allWordy_singleton, hsilent]
      intro cl _ outs houts
      cases hvalues : Table.values db.channels with
      | nil =>
          rw [hvalues] at houts
          cases houts
          exact iff_of_true wordy_nil rfl
      | cons c cs =>
          rw [hvalues, List.mapM_cons] at houts
          obtain ⟨out, hout, houts⟩ := Option.bind_eq_some_iff.mp houts
          obtain ⟨more, -, houts⟩ := Option.bind_eq_some_iff.mp houts
          cases houts
          exact iff_of_false (not_wordy_getusers hout more.flatten _) (List.cons_ne_nil c cs)
  | cons name rest =>
      have hsilent : ¬ Silent db client (ascii "NAMES" :: name :: rest) := by
        simp +decide [Silent, hregist]
      simp only [Answers, names, getuser, readChannel, sendcmds, ends_bind, ends_get,
        ends_orUndefined, ends_send, ends_getchannel, World.update_sent, World.send_sent,
        refuses_undefined, refuses_ofERR, implies_true, and_true, List.nil_append,
        allWordy_singleton, hsilent, not_false_eq_true, iff_false]
      intro cl _ db' _ channel _ out hout
      rw [← List.append_nil out]
      exact not_wordy_getusers hout [] cl.nickname

theorem list_answers : Answers (Silent db client (ascii "LIST" :: args)) (list fd args) db := by
  have hsilent : ¬ Silent db client (ascii "LIST" :: args) := by
    simp +decide [Silent, hregist]
  simp only [Answers, list, getuser, sendcmds, ends_bind, ends_get, ends_orUndefined, ends_send,
    World.send_sent, refuses_undefined, implies_true, and_true, List.nil_append,
    allWordy_singleton, hsilent, iff_false]
  intro cl _
  exact not_wordy_num rfl _ cl.nickname

include hdb hargs hclient in
theorem privmsg_answers :
    Answers (Silent db client (ascii "PRIVMSG" :: args)) (privmsg fd args) db := by
  rcases args with _ | ⟨name, _ | ⟨text, rest⟩⟩
  · simp +decide [Answers, privmsg, Silent, hregist]
  · simp +decide [Answers, privmsg, Silent, hregist]
  · have hsilent : Silent db client (ascii "PRIVMSG" :: name :: text :: rest) ↔
        name ∈ db.channels := by
      simp +decide [Silent, hregist]
    simp only [Answers, privmsg, getuser, ends_bind, ends_get, ends_orUndefined,
      refuses_undefined, implies_true, and_true, hsilent, hclient, Option.some.injEq]
    rintro _ rfl
    cases hc : db.channels.lookup name with
    | none => exact (refuses_ofERR _ _ _ ⟨db, []⟩).mpr (AList.lookup_eq_none.mp hc)
    | some channel =>
        have hmem : name ∈ db.channels := AList.lookup_isSome.mp (by rw [hc]; rfl)
        have htext : text ∈ name :: text :: rest := List.mem_cons_of_mem _ List.mem_cons_self
        refine iff_of_true (allWordy_broadcast (wordy_text (by decide) ?_ ?_) _) hmem
        · exact isText_pair (hargs name List.mem_cons_self) (hargs text htext)
        · exact (hdb.clients fd client hclient).nickname

theorem ping_answers : Answers (Silent db client (ascii "PING" :: args)) (ping fd args) db := by
  have hsilent : Silent db client (ascii "PING" :: args) ↔ args ≠ [] := by
    simp +decide [Silent, hregist]
  cases args with
  | nil => simp [Answers, ping, hsilent]
  | cons a rest =>
      show AllWordy [_] ↔ _
      rw [allWordy_singleton, hsilent]
      exact iff_of_true wordy_pong (List.cons_ne_nil a rest)

theorem users_answers : Answers (Silent db client (ascii "USERS" :: args)) (users fd args) db := by
  have hsilent : ¬ Silent db client (ascii "USERS" :: args) := by
    simp +decide [Silent, hregist]
  show AllWordy [_] ↔ _
  rw [allWordy_singleton]
  exact iff_of_false (not_wordy_num rfl _ []) hsilent

end handlers

/-! ## Lines -/

/-- The checks of `call` let a silent line pass. -/
theorem Silent.passes {db : Database} {client : Client} {cmd : Bytes} {args : List Bytes}
    (h : Silent db client (cmd :: args)) : ∃ item, cmds.lookup cmd = some item ∧
      (client.hasRegist = true ∨ cmd ∈ unregAllow) ∧ item.parmMin ≤ args.length := by
  have hfirst : ∀ {P : Bytes → Prop}, (∃ name ∈ args.head?, P name) → 1 ≤ args.length := by
    rintro P ⟨name, hname, -⟩
    exact List.length_pos_of_mem (List.mem_of_head? hname)
  rw [Silent] at h
  split_ifs at h with hnick huser hquit hregist hpart htopic hnames hprivmsg hping
  · exact ⟨_, by rw [hnick]; rfl, Or.inr (by rw [hnick]; decide), Nat.zero_le _⟩
  · exact ⟨_, by rw [huser]; rfl, Or.inr (by rw [huser]; decide), h.1⟩
  · exact ⟨_, by rw [hquit]; rfl, Or.inr (by rw [hquit]; decide), Nat.zero_le _⟩
  · exact ⟨_, by rw [hpart]; rfl, Or.inl (by simpa using hregist), hfirst h⟩
  · exact ⟨_, by rw [htopic]; rfl, Or.inl (by simpa using hregist), hfirst h.2⟩
  · exact ⟨_, by rw [hnames]; rfl, Or.inl (by simpa using hregist), Nat.zero_le _⟩
  · exact ⟨_, by rw [hprivmsg]; rfl, Or.inl (by simpa using hregist), Nat.zero_le _⟩
  · exact ⟨_, by rw [hping]; rfl, Or.inl (by simpa using hregist), Nat.zero_le _⟩

section lines

variable {db : Database} {fd : Fd} {client : Client} {cmd : Bytes} {args : List Bytes}
  (hdb : textSpec.Db db) (hargs : ∀ a ∈ args, IsText a)
  (hclient : db.clients.lookup fd = some client)
include hdb hargs hclient

/-- Every entry of the command table. -/
theorem cmds_answers {item : CmdItem} (h : cmds.lookup cmd = some item)
    (hallow : client.hasRegist = true ∨ cmd ∈ unregAllow) :
    Answers (Silent db client (cmd :: args)) (handled fd client.hasRegist (item.fp fd args)) db := by
  -- a handler that runs for registered clients only is not followed by a welcome
  have hlater : ∀ {cmd : Bytes} {fp : Fd → List Bytes → M PUnit}, cmd ∉ unregAllow →
      (client.hasRegist = true → Answers (Silent db client (cmd :: args)) (fp fd args) db) →
      client.hasRegist = true ∨ cmd ∈ unregAllow →
        Answers (Silent db client (cmd :: args)) (handled fd client.hasRegist (fp fd args)) db := by
    intro cmd fp hcmd hfp hallow
    have hregist : client.hasRegist = true := hallow.resolve_right hcmd
    rw [hregist]
    exact (hfp hregist).handled fd
  exact cmds_cases (P := fun cmd fp => client.hasRegist = true ∨ cmd ∈ unregAllow →
      Answers (Silent db client (cmd :: args)) (handled fd client.hasRegist (fp fd args)) db)
    (fun _ => nick_answers hdb hargs hclient) (fun _ => user_answers hclient)
    (fun _ => quit_answers client.hasRegist)
    (hlater (by decide) join_answers)
    (hlater (by decide) (part_answers hdb hargs hclient))
    (hlater (by decide) (topic_answers hdb hargs hclient))
    (hlater (by decide) names_answers) (hlater (by decide) list_answers)
    (hlater (by decide) (privmsg_answers hdb hargs hclient))
    (hlater (by decide) ping_answers) (hlater (by decide) users_answers) h hallow

/-- A command line is answered with a numeric reply unless it is silent. -/
theorem call_answers :
    Answers (Silent db client (cmd :: args)) (call fd (cmd :: args)) db := by
  rw [Answers, Ends, call_eq]
  cases hdispatch : dispatch db fd (cmd :: args) with
  | nothing => exact absurd hdispatch (dispatch_cons db fd cmd args)
  | throws e =>
      -- one of the checks has failed, which a silent line passes
      have herr : ∀ (e : ERR) argv, ¬ Silent db client (cmd :: args) →
          Refuses (Silent db client (cmd :: args)) (.cmdMsg (.ofERR e argv)) ⟨db, []⟩ :=
        fun e argv => (refuses_ofERR _ e argv ⟨db, []⟩).mpr
      show Refuses _ e _
      rw [dispatch, hclient] at hdispatch
      cases hitem : cmds.lookup cmd with
      | none =>
          rw [hitem] at hdispatch
          cases hdispatch
          refine herr _ _ fun h => ?_
          obtain ⟨item, hpass, -⟩ := h.passes
          rw [hitem] at hpass
          cases hpass
      | some item =>
          rw [hitem] at hdispatch
          dsimp only at hdispatch
          split_ifs at hdispatch with hallow hparm
          · cases hdispatch
            refine herr _ _ fun h => ?_
            obtain ⟨-, -, hregist | hmem, -⟩ := h.passes
            · simp [hregist] at hallow
            · simp [hmem] at hallow
          · cases hdispatch
            refine herr _ _ fun h => ?_
            obtain ⟨item', hpass, -, hlen⟩ := h.passes
            cases hitem.symm.trans hpass
            omega
  | handler cmd' item args' regist =>
      obtain ⟨heq, hitem, -, client', hclient', rfl, hallow⟩ := dispatch_eq_handler hdispatch
      cases heq
      cases hclient.symm.trans hclient'
      apply cmds_answers hdb hargs hclient hitem
      cases hregist : client.hasRegist with
      | true => exact Or.inl rfl
      | false => exact Or.inr (hallow hregist)

/-- What is sent for a line has a numeric line unless the command line is silent. -/
theorem runLine_answers {sent : List Sent} {db' : Database}
    (h : runLine fd db (cmd :: args) = (sent, some db')) :
    AllWordy sent ↔ Silent db client (cmd :: args) := by
  have hanswers : Answers (Silent db client (cmd :: args)) (call fd (cmd :: args)) db :=
    call_answers hdb hargs hclient
  rw [runLine] at h
  cases hcall : call fd (cmd :: args) ⟨db, []⟩ with
  | ok a w =>
      rw [hcall] at h
      cases h
      exact hanswers.of_ok hcall
  | error e w =>
      have hrefuses : Refuses _ e w := hanswers.of_error hcall
      rw [hcall] at h
      cases e with
      | cmdMsg msg =>
          cases h
          obtain ⟨⟨code, hcode⟩, hloud⟩ := hrefuses
          refine iff_of_false (fun hall => ?_) hloud
          rw [allWordy_append, allWordy_singleton] at hall
          exact not_wordy_num hcode [] [] hall.2
      | disconnect =>
          cases h
          exact hrefuses
      | undefined => cases h

end lines

/-! ## Runs -/

/-- In every state that a run reaches, the numeric replies to a line of a client have the general
form, with the nicknames of their receivers, if and only if the line is silent: there is none
then. -/
theorem general_form_iff {past : List (Moment Server Input (List Sent))} {db : Database}
    {todo : Option (Fd × List (List Bytes))} (hrun : Run server past (.running db todo)) {fd : Fd}
    {client : Client} (hclient : db.clients.lookup fd = some client) {line : Bytes}
    (hline : IsText line) {sent : List Sent} {db' : Database}
    (h : runLine fd db (parse line) = (sent, some db')) :
    (∀ x ∈ sent, ∀ l ∈ linesOf x.2, Numeric l →
      ∃ cl, db'.clients.lookup x.1 = some cl ∧ General cl.nickname l) ↔
      Silent db client (parse line) := by
  have hdb : textSpec.Db db := by
    cases (text_run hrun).1 with
    | running hdb htodo => exact hdb
  -- no numeric line has the form
  have hnone : (∀ x ∈ sent, ∀ l ∈ linesOf x.2, Numeric l →
      ∃ cl, db'.clients.lookup x.1 = some cl ∧ General cl.nickname l) ↔ AllWordy sent := by
    constructor
    · intro hform x hx l hl hnumeric
      obtain ⟨cl, -, hgeneral⟩ := hform x hx l hl hnumeric
      exact hnumeric.not_general cl.nickname hgeneral
    · intro hwordy x hx l hl hnumeric
      exact absurd hnumeric (hwordy x hx l hl)
  rw [hnone]
  have hwords : ∀ w ∈ parse line, IsText w := isText_parse hline
  cases hparse : parse line with
  | nil =>
      rw [hparse] at h
      cases h
      exact iff_of_true allWordy_nil trivial
  | cons cmd args =>
      rw [hparse] at h hwords
      exact runLine_answers hdb (List.forall_mem_cons.mp hwords).2 hclient h

/-- A client that has registered pings the server. -/
theorem general_form_iff_ping : ∃ past db todo client sent db',
    Run server past (.running db todo) ∧ db.clients.lookup 4 = some client ∧
    client.hasRegist = true ∧ runLine 4 db (parse (ascii "PING me")) = (sent, some db') ∧
    ((∀ x ∈ sent, ∀ l ∈ linesOf x.2, Numeric l →
      ∃ cl, db'.clients.lookup x.1 = some cl ∧ General cl.nickname l) ↔
      Silent db client (parse (ascii "PING me"))) := by
  obtain ⟨past, s, hrun, htest⟩ := exists_run_of_replay server
    ([.accept 4 ⟨[127, 0, 0, 1], 10004, rfl⟩, .read 4 (ascii "NICK alice\nUSER a b c :d\n")]
      ++ List.replicate 3 .line)
    (fun r => match r.2 with
      | .running db _ => (db.clients.lookup 4).any Client.hasRegist &&
          (runLine 4 db (parse (ascii "PING me"))).2.isSome
      | .undefined => false)
    (by decide +kernel)
  cases s with
  | undefined => cases htest
  | running db todo =>
      obtain ⟨hregist, hsome⟩ := Bool.and_eq_true_iff.mp htest
      obtain ⟨client, hclient, hregist⟩ := (Option.any_eq_true _ _).mp hregist
      obtain ⟨db', hdb'⟩ := Option.isSome_iff_exists.mp hsome
      have hline : runLine 4 db (parse (ascii "PING me"))
          = ((runLine 4 db (parse (ascii "PING me"))).1, some db') := by
        rw [← hdb']
      exact ⟨past, db, todo, client, _, db', hrun, hclient, hregist, hline,
        general_form_iff hrun hclient (by decide) hline⟩

/-- After a `JOIN` the client `alice` gets a line with the name of the channel for a nickname. -/
theorem join_form : ∃ past db todo sent db', Run server past (.running db todo) ∧
    4 ∈ db.clients ∧ runLine 4 db (parse (ascii "JOIN #c")) = (sent, some db') ∧
    ∃ x ∈ sent, x.1 = 4 ∧ ascii "331 #c #c :No topic is set" ∈ linesOf x.2 ∧
      Numeric (ascii "331 #c #c :No topic is set") ∧
      ∀ nick, ¬ General nick (ascii "331 #c #c :No topic is set") := by
  obtain ⟨past, s, hrun, htest⟩ := exists_run_of_replay server
    ([.accept 4 ⟨[127, 0, 0, 1], 10004, rfl⟩, .read 4 (ascii "NICK alice\nUSER a b c :d\n")]
      ++ List.replicate 3 .line)
    (fun r => match r.2 with
      | .running db _ => decide (4 ∈ db.clients) &&
          ((runLine 4 db (parse (ascii "JOIN #c"))).2.isSome &&
            (runLine 4 db (parse (ascii "JOIN #c"))).1.any fun x => decide (x.1 = 4) &&
              decide (ascii "331 #c #c :No topic is set" ∈ linesOf x.2))
      | .undefined => false)
    (by decide +kernel)
  cases s with
  | undefined => cases htest
  | running db todo =>
      simp only [Bool.and_eq_true, decide_eq_true_eq, List.any_eq_true] at htest
      obtain ⟨hconn, hsome, x, hx, hfd, hmem⟩ := htest
      obtain ⟨db', hdb'⟩ := Option.isSome_iff_exists.mp hsome
      have hcode : IsCode (ascii "331") := ⟨rfl, List.all_eq_true.mp (by decide)⟩
      have hnumeric : Numeric (ascii "331 #c #c :No topic is set") :=
        ⟨ascii "331", ascii " #c #c :No topic is set", hcode, rfl⟩
      exact ⟨past, db, todo, _, db', hrun, hconn, by rw [← hdb'], x, hx, hfd, hmem, hnumeric,
        hnumeric.not_general⟩

end Mircd
