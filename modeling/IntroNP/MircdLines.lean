/-
# Lines

All that the server sends is a sequence of lines, one for each message, and no text of a client ends
one.  The words of a line that has been read have no CR, LF or NUL, and all that is stored or sent
is made of such words and of texts of the server.

* `textSpec` : the databases with only such strings;
* `Lined`, `no_injection` : what is sent, in every run.
-/
import IntroNP.MircdReplies

namespace Mircd

open Machine

@[simp] theorem isText_nil : IsText [] := List.forall_mem_nil _

@[simp] theorem isText_append {s t : Bytes} : IsText (s ++ t) ↔ IsText s ∧ IsText t :=
  List.forall_mem_append

theorem isText_pair {s t : Bytes} (hs : IsText s) (ht : IsText t) : ∀ x ∈ [s, t], IsText x :=
  List.forall_mem_cons.mpr ⟨hs, List.forall_mem_singleton.mpr ht⟩

theorem IsText.subset {s t : Bytes} (h : IsText s) (hsub : ∀ b ∈ t, b ∈ s) : IsText t :=
  fun b hb => h b (hsub b hb)

theorem isText_replicate {b : UInt8} (h : isText b = true) (n : ℕ) :
    IsText (List.replicate n b) := by
  intro c hc
  rw [List.eq_of_mem_replicate hc]
  exact h

/-- A number is written with digits. -/
theorem isText_dec (n : ℕ) : IsText (dec n) := by
  intro b hb
  have hdigit := isDigit_of_mem_dec hb
  simp only [isText, isEol, Bool.and_eq_true, decide_eq_true_eq, Bool.not_eq_true',
    Bool.or_eq_false_iff, decide_eq_false_iff_not]
  refine ⟨?_, ?_, ?_⟩
  · rintro rfl
    exact absurd hdigit (by decide)
  · rintro rfl
    exact absurd hdigit (by decide)
  · rintro rfl
    exact absurd hdigit (by decide)

/-! ## What is read -/

/-- The words of a text. -/
theorem isText_parseWords {word s : Bytes} (hword : IsText word) (hs : IsText s) :
    ∀ w ∈ parseWords word s, IsText w := by
  have hlast : ∀ {word : Bytes} {ws : List Bytes}, IsText word → (∀ w ∈ ws, IsText w) →
      ∀ w ∈ (if word = [] then [] else [word]) ++ ws, IsText w := by
    intro word ws hword hws
    split_ifs
    · exact hws
    · exact List.forall_mem_cons.mpr ⟨hword, hws⟩
  -- the word so far is a part of the line too, and grows
  induction s generalizing word with
  | nil =>
      rw [parseWords, ← List.append_nil (if word = [] then [] else [word])]
      exact hlast hword (List.forall_mem_nil _)
  | cons b s ih =>
      obtain ⟨hb, hs⟩ := List.forall_mem_cons.mp hs
      rw [parseWords]
      by_cases hcolon : b = ch ':'
      · rw [if_pos hcolon]
        exact hlast hword (List.forall_mem_singleton.mpr hs)
      · rw [if_neg hcolon]
        by_cases hblank : b = ch ' '
        · rw [if_pos hblank]
          exact hlast hword (ih isText_nil hs)
        · rw [if_neg hblank]
          exact ih (isText_append.mpr ⟨hword, List.forall_mem_singleton.mpr hb⟩) hs

theorem isText_parse {buf : Bytes} (h : IsText buf) : ∀ w ∈ parse buf, IsText w :=
  isText_parseWords isText_nil
    (h.subset fun _ hb => (List.rdropWhile_prefix isEol buf).subset hb)

/-- The lines of a buffer. -/
theorem isText_lines (fuel : ℕ) (s : Bytes) : ∀ line ∈ (lines fuel s).1, IsText line := by
  have htoken : ∀ {s token rest : Bytes}, strtokR s = some (some (token, rest)) → IsText token := by
    intro s token rest h
    rw [strtokR] at h
    split at h
    · cases h
    · split_ifs at h <;> cases h <;> exact fun b hb => List.mem_takeWhile_imp hb
  induction fuel generalizing s with
  | zero => exact List.forall_mem_nil _
  | succ fuel ih =>
      rw [lines]
      cases hscan : strtokR s with
      | none => exact List.forall_mem_nil _
      | some scan =>
          cases scan with
          | none => exact List.forall_mem_nil _
          | some r => exact List.forall_mem_cons.mpr ⟨htoken hscan, ih r.2⟩

/-- The words that are passed to `call`. -/
theorem isText_argvs (received : Bytes) : ∀ argv ∈ argvs received, ∀ a ∈ argv, IsText a := by
  intro argv hargv
  obtain ⟨line, hline, rfl⟩ := List.mem_map.mp hargv
  exact isText_parse (isText_lines _ _ line hline)

/-! ## What is stored -/

/-- The text fields of a client. -/
structure Client.Text (cl : Client) : Prop where
  nickname : IsText cl.nickname
  username : IsText cl.username
  hostname : IsText cl.hostname
  servername : IsText cl.servername
  realname : IsText cl.realname
  host : IsText cl.host
  channels : ∀ n ∈ cl.channels, IsText n

/-- The text fields of a channel. -/
structure Channel.Text (c : Channel) : Prop where
  name : IsText c.name
  topic : IsText c.topic

/-- Nothing in the database has a CR, LF or NUL. -/
def textSpec : Spec where
  client := Client.Text
  nick := IsText
  channel := fun n c => IsText n ∧ c.Text

/-- Words of a line keep it so. -/
theorem textSpec_closed (cmd : Bytes) {args : List Bytes} (h : ∀ a ∈ args, IsText a) :
    textSpec.Closed cmd args where
  nick := fun _ n hn => h n (List.mem_of_head? hn)
  setNick := fun _ n hn _ cl hcl => { hcl with nickname := h n (List.mem_of_head? hn) }
  setUser := fun a ha b hb c hc d hd cl hcl =>
    { hcl with username := h a ha, hostname := h b hb, servername := h c hc, realname := h d hd }
  create := fun _ n hn _ =>
    ⟨h n (List.mem_of_head? hn), h n (List.mem_of_head? hn), isText_nil⟩
  join := fun n hn cl hcl => { hcl with
    channels := fun m hm => by
      rcases Finset.mem_insert.mp hm with rfl | hm
      · exact h m (List.mem_of_head? hn)
      · exact hcl.channels m hm }
  part := fun n cl hcl => { hcl with
    channels := fun m hm => hcl.channels m (Finset.mem_of_mem_erase hm) }
  regist := fun cl hcl => by
    unfold Client.regist
    split_ifs
    · exact { hcl with }
    · exact hcl
  addUser := fun _ _ _ _ hc => ⟨hc.1, hc.2.name, hc.2.topic⟩
  delUser := fun _ _ _ hc => ⟨hc.1, hc.2.name, hc.2.topic⟩
  setTopic := fun t ht _ _ hc => ⟨hc.1, hc.2.name, h t ht⟩

/-- A new client has a dotted quad for a host. -/
theorem isText_sockHost (sock : SockAddr) : IsText (sockHost sock) := by
  have hjoin : ∀ ts : List Bytes, (∀ t ∈ ts, IsText t) → IsText ((ascii ".").intercalate ts) := by
    intro ts hts
    induction ts with
    | nil => exact isText_nil
    | cons t ts ih =>
        obtain ⟨ht, hts⟩ := List.forall_mem_cons.mp hts
        cases ts with
        | nil => rwa [List.intercalate_singleton]
        | cons u ts =>
            rw [List.intercalate_cons_cons, isText_append, isText_append]
            exact ⟨⟨ht, by decide⟩, ih hts⟩
  refine hjoin _ fun t ht => ?_
  obtain ⟨b, -, rfl⟩ := List.mem_map.mp ht
  exact isText_dec _

/-! ## What is sent -/

/-- The line of a message, without its end. -/
def CmdMsg.line (nick : Bytes) (m : CmdMsg) : Bytes :=
  (match m.cmd with
    | .text word => ascii ":" ++ nick ++ ascii " " ++ word
    | .num code => dec03 code ++ if nick.isEmpty then [] else ascii " " ++ nick) ++
    renderArgv m.argv

theorem sendcmdsStr_eq (msgs : List CmdMsg) (nick : Bytes) : sendcmdsStr msgs nick
    = ((msgs.map (CmdMsg.line nick)).map (· ++ ascii "\n")).flatten := by
  rw [sendcmdsStr, List.map_map]
  rfl

theorem sendcmdsStr_singleton (msg : CmdMsg) (nick : Bytes) :
    sendcmdsStr [msg] nick = msg.line nick ++ ascii "\n" := by
  rw [sendcmdsStr_eq]
  exact List.append_nil _

/-- A message whose words and parameters fit in a line. -/
structure CmdMsg.Text (m : CmdMsg) : Prop where
  word : ∀ word, m.cmd = .text word → IsText word
  argv : ∀ a ∈ m.argv, IsText a

theorem isText_renderArgv {argv : List Bytes} (h : ∀ a ∈ argv, IsText a) :
    IsText (renderArgv argv) := by
  induction argv with
  | nil => exact isText_nil
  | cons a argv ih =>
      obtain ⟨ha, hargv⟩ := List.forall_mem_cons.mp h
      cases argv with
      | nil => exact isText_append.mpr ⟨by decide, ha⟩
      | cons b argv => exact isText_append.mpr ⟨isText_append.mpr ⟨by decide, ha⟩, ih hargv⟩

/-- The line of such a message. -/
theorem CmdMsg.Text.line {m : CmdMsg} (h : m.Text) {nick : Bytes} (hnick : IsText nick) :
    IsText (m.line nick) := by
  refine isText_append.mpr ⟨?_, isText_renderArgv h.argv⟩
  cases hcmd : m.cmd with
  | text word =>
      refine isText_append.mpr ⟨isText_append.mpr ⟨isText_append.mpr ⟨by decide, hnick⟩, ?_⟩,
        h.word word hcmd⟩
      decide
  | num code =>
      refine isText_append.mpr ⟨?_, ?_⟩
      · exact isText_append.mpr ⟨isText_replicate (by decide) _, isText_dec code⟩
      · split_ifs
        · exact isText_nil
        · exact isText_append.mpr ⟨by decide, hnick⟩

theorem text_ofText {word : String} (hword : IsText (ascii word)) {argv : List Bytes}
    (h : ∀ a ∈ argv, IsText a) : (CmdMsg.ofText word argv).Text :=
  ⟨by rintro w ⟨⟩; exact hword, h⟩

theorem text_ofRPL (r : RPL) {argv : List Bytes} (h : ∀ a ∈ argv, IsText a) :
    (CmdMsg.ofRPL r argv).Text := ⟨by rintro w ⟨⟩, h⟩

theorem text_ofERR (e : ERR) {argv : List Bytes} (h : ∀ a ∈ argv, IsText a) :
    (CmdMsg.ofERR e argv).Text := ⟨by rintro w ⟨⟩, h⟩

/-- A row of the table of users. -/
theorem isText_usersRow (mxname : ℕ) {name term host : Bytes} (hname : IsText name)
    (hterm : IsText term) (hhost : IsText host) : IsText (usersRow mxname name term host) := by
  have hpad : ∀ (w : ℕ) {s : Bytes}, IsText s → IsText (padRight w s) := fun w s hs =>
    isText_append.mpr ⟨hs, isText_replicate (by decide) _⟩
  have hcstr : ∀ {s : Bytes}, IsText s → IsText (cstr s) := fun hs =>
    hs.subset fun _ hb => (List.takeWhile_prefix _).subset hb
  simp only [usersRow, isText_append]
  exact ⟨⟨⟨⟨hpad _ (hcstr hname), by decide⟩, hpad _ hterm⟩, by decide⟩, hpad _ (hcstr hhost)⟩

/-- The list of nicknames. -/
theorem isText_usersstr {nicks : List Bytes} (h : ∀ n ∈ nicks, IsText n) :
    IsText (usersstr nicks) := by
  suffices hfold : ∀ str : Bytes, IsText str → IsText (nicks.foldl
      (fun str nick => (if str.isEmpty then str else str ++ ascii " ") ++ nick) str) from
    hfold [] isText_nil
  induction nicks with
  | nil => exact fun str hstr => hstr
  | cons n nicks ih =>
      intro str hstr
      obtain ⟨hn, hnicks⟩ := List.forall_mem_cons.mp h
      -- the induction is on the nicknames that are left, for any string so far
      refine ih hnicks _ (isText_append.mpr ⟨?_, hn⟩)
      split_ifs
      · exact hstr
      · exact isText_append.mpr ⟨hstr, by decide⟩

/-- The messages of a command with words of a line. -/
theorem text_says {S : Spec} (hclient : ∀ cl, S.client cl → IsText cl.nickname ∧ IsText cl.host)
    (hchannel : ∀ n c, S.channel n c → IsText n ∧ c.Text) {cmd : Bytes} {args : List Bytes}
    (hargs : ∀ a ∈ args, IsText a) {m : CmdMsg} {nick : Bytes} (h : Says S cmd args m nick) :
    IsText (m.line nick) := by
  have hone : ∀ {a : Bytes}, IsText a → ∀ x ∈ [a], IsText x := fun ha =>
    List.forall_mem_singleton.mpr ha
  have htopic : ∀ {n c}, S.channel n c → c.gettopic.Text := by
    intro n c hc
    have htext := (hchannel n c hc).2
    unfold Channel.gettopic
    split_ifs
    · exact text_ofRPL _ (isText_pair htext.name (by decide))
    · exact text_ofRPL _ (isText_pair htext.name htext.topic)
  cases h with
  | nick hcmd hn hvalid hcl hnick =>
      exact (text_ofText (by decide) (hone (hargs _ (List.mem_of_head? hn)))).line (hclient _ hcl).1
  | join hcmd hc hcl =>
      exact (text_ofText (by decide) (hone (hchannel _ _ hc).1)).line (hclient _ hcl).1
  | part hcmd hc hcl hmsg =>
      refine (text_ofText (by decide) (isText_pair (hchannel _ _ hc).1 ?_)).line (hclient _ hcl).1
      rcases hmsg with hmsg | rfl
      · exact hargs _ hmsg
      · decide
  | topic hcmd hc hcl ht =>
      exact (text_ofText (by decide) (isText_pair (hchannel _ _ hc).1 (hargs _ ht))).line (hclient _ hcl).1
  | privmsg hcmd hc hcl ht =>
      exact (text_ofText (by decide) (isText_pair (hchannel _ _ hc).1 (hargs _ ht))).line (hclient _ hcl).1
  | gettopic hcmd hc hcl => exact (htopic hc).line (hclient _ hcl).1
  | joinTopic hcmd hc => exact (htopic hc).line (hchannel _ _ hc).1
  | namreply hcmd hc hcl husers =>
      refine (text_ofRPL _ (isText_pair (hchannel _ _ hc).2.name
        (isText_usersstr fun n hn => ?_))).line (hclient _ hcl).1
      obtain ⟨u, hu, rfl⟩ := List.mem_map.mp hn
      exact (hclient u (husers u hu)).1
  | endOfNames hcmd hc hcl =>
      exact (text_ofRPL _ (isText_pair (hchannel _ _ hc).2.name (by decide))).line (hclient _ hcl).1
  | listStart hcmd hcl => exact (text_ofRPL _ (hone (by decide))).line (hclient _ hcl).1
  | listRow hcmd hc hcl =>
      have htext := (hchannel _ _ hc).2
      exact (text_ofRPL _ (List.forall_mem_cons.mpr
        ⟨htext.name, isText_pair (isText_dec _) htext.topic⟩)).line (hclient _ hcl).1
  | listEnd hcmd hcl => exact (text_ofRPL _ (hone (by decide))).line (hclient _ hcl).1
  | usersStart hcmd mxname =>
      refine (text_ofRPL _ (hone (isText_usersRow _ ?_ ?_ ?_))).line isText_nil
      · decide
      · decide
      · decide
  | users hcmd mxname hcl =>
      obtain ⟨hname, hhost⟩ := hclient _ hcl
      exact (text_ofRPL _ (hone (isText_usersRow _ hname (by decide) hhost))).line isText_nil
  | welcome hm hcl =>
      have hall : ∀ m ∈ welcomeCmds, ∀ a ∈ m.argv, IsText a := by decide +kernel
      -- the replies to a registration have numbers, and no words
      have hnum : ∀ m ∈ welcomeCmds, ∀ word, m.cmd ≠ .text word := by
        simp [welcomeCmds, CmdMsg.ofRPL]
      have htext : CmdMsg.Text _ := ⟨fun word hword => absurd hword (hnum _ hm word), hall _ hm⟩
      exact htext.line (hclient _ hcl).1

/-- The error replies to a line. -/
theorem text_errs {argv : List Bytes} (hargv : ∀ a ∈ argv, IsText a) {msg : CmdMsg}
    (h : Errs argv msg) : msg.Text := by
  cases h with
  | text e text htext => exact text_ofERR e (List.forall_mem_singleton.mpr htext)
  | echo e text hx htext =>
      exact text_ofERR e (List.forall_mem_cons.mpr
        ⟨hargv _ hx, List.forall_mem_singleton.mpr htext⟩)

/-- What is said of the clients and channels whose words can be sent for a line: the nicknames,
hosts, names and topics of the database, and the words of the line. -/
def wordsAt (db : Database) (args : List Bytes) : Spec where
  client := fun cl =>
    (cl.nickname ∈ args ∨
      ∃ fd cl₀, db.clients.lookup fd = some cl₀ ∧ cl.nickname = cl₀.nickname) ∧
    ∃ fd cl₀, db.clients.lookup fd = some cl₀ ∧ cl.host = cl₀.host
  nick := fun _ => True
  channel := fun n c =>
    (c.name = n ∧ n ∈ args ∨ ∃ c₀, db.channels.lookup n = some c₀ ∧ c.name = c₀.name) ∧
    (c.topic = [] ∨ c.topic ∈ args ∨ ∃ c₀, db.channels.lookup n = some c₀ ∧ c.topic = c₀.topic)

theorem wordsAt_db (db : Database) (args : List Bytes) : (wordsAt db args).Db db where
  clients := fun fd cl hcl => ⟨Or.inr ⟨fd, cl, hcl, rfl⟩, fd, cl, hcl, rfl⟩
  nicks := fun _ _ => trivial
  channels := fun _ c hc => ⟨Or.inr ⟨c, hc, rfl⟩, Or.inr (Or.inr ⟨c, hc, rfl⟩)⟩

theorem wordsAt_closed (db : Database) (cmd : Bytes) (args : List Bytes) :
    (wordsAt db args).Closed cmd args where
  nick := fun _ _ _ => trivial
  setNick := fun _ n hn _ _ hcl => ⟨Or.inl (List.mem_of_head? hn), hcl.2⟩
  setUser := fun _ _ _ _ _ _ _ _ _ hcl => hcl
  create := fun _ n hn _ => ⟨Or.inl ⟨rfl, List.mem_of_head? hn⟩, Or.inl rfl⟩
  join := fun _ _ _ hcl => hcl
  part := fun _ _ hcl => hcl
  regist := fun cl hcl => by
    unfold Client.regist
    split_ifs
    · exact hcl
    · exact hcl
  addUser := fun _ _ _ _ hc => hc
  delUser := fun _ _ _ hc => hc
  setTopic := fun t ht _ _ hc => ⟨hc.1, Or.inr (Or.inl ht)⟩

/-- The words that can be sent for a line have no CR, LF and NUL. -/
theorem text_wordsAt {db : Database} (hdb : textSpec.Db db) {args : List Bytes}
    (hargs : ∀ a ∈ args, IsText a) :
    (∀ cl, (wordsAt db args).client cl → IsText cl.nickname ∧ IsText cl.host) ∧
      ∀ n c, (wordsAt db args).channel n c → IsText n ∧ c.Text := by
  refine ⟨?_, ?_⟩
  · rintro cl ⟨hname, fd, cl₀, hcl₀, hhost⟩
    refine ⟨?_, by rw [hhost]; exact (hdb.clients fd cl₀ hcl₀).host⟩
    rcases hname with hname | ⟨f, cl₁, hcl₁, hsame⟩
    · exact hargs _ hname
    · rw [hsame]
      exact (hdb.clients f cl₁ hcl₁).nickname
  · rintro n c ⟨hname, htopic⟩
    have htopic : IsText c.topic := by
      rcases htopic with hnil | hmem | ⟨c₀, hc₀, hsame⟩
      · rw [hnil]
        exact isText_nil
      · exact hargs _ hmem
      · rw [hsame]
        exact (hdb.channels n c₀ hc₀).2.topic
    rcases hname with ⟨hsame, hmem⟩ | ⟨c₀, hc₀, hsame⟩
    · exact ⟨hargs n hmem, by rw [hsame]; exact hargs n hmem, htopic⟩
    · obtain ⟨hn, htext⟩ := hdb.channels n c₀ hc₀
      exact ⟨hn, by rw [hsame]; exact htext.name, htopic⟩

/-- A string that is sent while a line is handled: the lines of messages of its command, each of
which has one, or the line of an error reply, or of a `PONG`. -/
inductive Lined : Server → Bytes → Prop
  | pong {db fd cmd args rest} (hcmd : cmd = ascii "PING") :
      Lined (.running db (some (fd, (cmd :: args) :: rest))) (ascii "PONG\n")
  | said {db fd cmd args rest msgs nick}
      (hmsgs : ∀ m ∈ msgs, Says (wordsAt db args) cmd args m nick ∧ IsText (m.line nick))
      (hlines : sendcmdsStr msgs nick
        = ((msgs.map (CmdMsg.line nick)).map (· ++ ascii "\n")).flatten) :
      Lined (.running db (some (fd, (cmd :: args) :: rest))) (sendcmdsStr msgs nick)
  | err {db fd cmd args rest msg} (herr : Errs (cmd :: args) msg) (hline : IsText (msg.line []))
      (hlines : sendcmdsStr [msg] [] = msg.line [] ++ ascii "\n") :
      Lined (.running db (some (fd, (cmd :: args) :: rest))) (sendcmdsStr [msg] [])

/-- What is sent in a state with such words. -/
theorem lined_of_replies {s : Server} (h : textSpec.Serving (fun argv => ∀ a ∈ argv, IsText a) s)
    {text : Bytes} (hreplies : Replies (fun db _ _ args => wordsAt db args) s text) :
    Lined s text := by
  cases hreplies with
  | said hsaid =>
      cases h with
      | running hdb htodo =>
          have hargv := htodo _ rfl _ List.mem_cons_self
          obtain ⟨-, hargs⟩ := List.forall_mem_cons.mp hargv
          obtain ⟨hclient, hchannel⟩ := text_wordsAt hdb hargs
          rcases hsaid with ⟨hcmd, rfl⟩ | ⟨msgs, nick, rfl, hmsgs⟩
          · exact .pong hcmd
          · exact .said (fun m hm => ⟨hmsgs m hm, text_says hclient hchannel hargs (hmsgs m hm)⟩)
              (sendcmdsStr_eq msgs nick)
  | @err db fd cmd args rest msg herr =>
      cases h with
      | running hdb htodo =>
          have hargv := htodo _ rfl _ List.mem_cons_self
          exact .err herr ((text_errs hargv herr).line isText_nil) (sendcmdsStr_singleton msg [])

/-! ## Runs -/

/-- Every line that has been read keeps the database so. -/
theorem textSpec_accepts {s : Server} (h : textSpec.Serving (fun argv => ∀ a ∈ argv, IsText a) s) :
    textSpec.Accepts s := by
  cases h with
  | undefined => trivial
  | @running db todo hdb htodo =>
      rcases todo with _ | ⟨fd, _ | ⟨_ | ⟨cmd, args⟩, rest⟩⟩
      · trivial
      · trivial
      · trivial
      · have hargv := htodo _ rfl _ List.mem_cons_self
        exact fun _ _ _ => textSpec_closed cmd (List.forall_mem_cons.mp hargv).2

/-- In every run the databases have only texts, and all that is sent are replies to the lines, with
the words of the database and the line. -/
theorem text_run {past : List (Moment Server Input (List Sent))} {s : Server}
    (hrun : Run server past s) : textSpec.Serving (fun argv => ∀ a ∈ argv, IsText a) s ∧
      ∀ m ∈ past, textSpec.Serving (fun argv => ∀ a ∈ argv, IsText a) m.pre ∧
        ∀ x ∈ m.shown, Replies (fun db _ _ args => wordsAt db args) m.pre x.2 := by
  have hnew : ∀ id sock, textSpec.client (Client.new id (sockInfo sock) (sockHost sock)) :=
    fun _ sock => ⟨isText_nil, isText_nil, isText_nil, isText_nil, isText_nil,
      isText_sockHost sock, by rintro n ⟨⟩⟩
  exact serving_run (S := textSpec) (T := fun db _ _ args => wordsAt db args)
    (L := fun argv => ∀ a ∈ argv, IsText a)
    (fun db _ cmd args _ => ⟨wordsAt_db db args, fun _ _ _ => wordsAt_closed db cmd args⟩)
    hnew isText_argvs hrun fun _ _ => textSpec_accepts

/-- In every run all that the database keeps of the clients' words has no CR, LF or NUL, and every
string that is sent has one line for each message of the command that is handled, or is one error
reply or `PONG`, with no other CR or LF. -/
theorem no_injection {past : List (Moment Server Input (List Sent))} {s : Server}
    (hrun : Run server past s) :
    (∀ db todo, s = .running db todo →
      (∀ fd cl, db.clients.lookup fd = some cl → cl.Text) ∧ (∀ n ∈ db.nickMp, IsText n) ∧
        ∀ n c, db.channels.lookup n = some c → IsText n ∧ c.Text) ∧
    ∀ m ∈ past, ∀ sent ∈ m.shown, Lined m.pre sent.2 := by
  obtain ⟨hserving, hsent⟩ := text_run hrun
  refine ⟨?_, fun m hm sent hx => lined_of_replies (hsent m hm).1 ((hsent m hm).2 sent hx)⟩
  rintro db todo rfl
  cases hserving with
  | running hdb htodo => exact ⟨hdb.clients, hdb.nicks, hdb.channels⟩

/-- A client registers and sets a topic, with a CR in the middle of its last line. -/
theorem no_injection_topic : ∃ past db todo, Run server past (.running db todo) ∧
    (∃ c, db.channels.lookup (ascii "#c") = some c ∧ c.topic = ascii "a ") ∧
    (∀ n c, db.channels.lookup n = some c → IsText n ∧ c.Text) ∧
    ∀ m ∈ past, ∀ sent ∈ m.shown, Lined m.pre sent.2 := by
  obtain ⟨past, s, hrun, htest⟩ := exists_run_of_replay server
    ([.accept 4 ⟨[127, 0, 0, 1], 10004, rfl⟩,
      .read 4 (ascii "NICK a\r\nUSER b c d :e\r\nJOIN #c\r\nTOPIC #c :a \rNICK b\r\n")]
      ++ List.replicate 5 .line)
    (fun r => match r.2 with
      | .running db _ => (db.channels.lookup (ascii "#c")).any fun c => c.topic = ascii "a "
      | .undefined => false)
    (by decide +kernel)
  cases s with
  | undefined => cases htest
  | running db todo =>
      obtain ⟨c, hc, htopic⟩ := (Option.any_eq_true _ _).mp htest
      obtain ⟨hdb, hsent⟩ := no_injection hrun
      exact ⟨past, db, todo, hrun, ⟨c, hc, of_decide_eq_true htopic⟩, (hdb db todo rfl).2.2, hsent⟩

end Mircd
