/-
# The input of a client

`handle_client_input` of `Homework/1/mircd` reads what has arrived from a client into a buffer,
cuts the buffer into lines with `strtok_r`, and passes the words of each line to `call`.  Nothing
is kept from one read to the next, and the loop over the lines goes on after a disconnect.

* `strtokR`, `lines`, `parse` : the cut into lines and into words;
* `lines_buffer` : the lines of a buffer are its tokens;
* `Cut`, `segmentation_iff` : when a stream of input gives the same commands however it is cut
  into reads;
* `handleClientInput` : the loop over the lines, with the calls it makes;
* `nothing_after_quit_iff` : the buffers whose calls are all made for a connected client.
-/
import IntroNP.Tokens
import IntroNP.MircdDispatch
import Mathlib.Data.List.DropRight

namespace Mircd

open Machine

/-! ## Lines and words -/

/-- `MAX_LINE`. -/
def MAX_LINE : ℕ := 1024

/-- The delimiters of `strtok_r`. -/
def isEol (b : UInt8) : Bool := b = ch '\r' || b = ch '\n'

/-- The bytes of a line. -/
def isText (b : UInt8) : Bool := b ≠ 0 && !isEol b

/-- A string without CR, LF and NUL. -/
def IsText (s : Bytes) : Prop := ∀ b ∈ s, isText b = true

instance (s : Bytes) : Decidable (IsText s) := List.decidableBAll _ s

/-- A call of `strtok_r` that goes on at the beginning of `s`: the next token with what is left
for the next call, or nothing at the NUL.  It is `none` when the scan leaves the buffer. -/
def strtokR (s : Bytes) : Option (Option (Bytes × Bytes)) :=
  let s := s.dropWhile isEol
  let token := s.takeWhile isText
  match s.dropWhile isText with
  | [] => none
  | b :: rest =>
      if token = [] then some none
      else if b = 0 then some (some (token, b :: rest))
      else some (some (token, rest))

/-- The lines of a buffer, and whether the last scan has stayed inside it.  The fuel bounds the
number of calls. -/
def lines : ℕ → Bytes → List Bytes × Bool
  | 0, _ => ([], false)
  | fuel + 1, s =>
      match strtokR s with
      | none => ([], false)
      | some none => ([], true)
      | some (some (token, rest)) => (token :: (lines fuel rest).1, (lines fuel rest).2)

/-- The loop of `parse` over the bytes behind a word that has begun; the word is added when it is
not empty, and a colon takes all that follows as the last one. -/
def parseWords (word : Bytes) : Bytes → List Bytes
  | [] => if word = [] then [] else [word]
  | b :: s =>
      if b = ch ':' then (if word = [] then [] else [word]) ++ [s]
      else if b = ch ' ' then (if word = [] then [] else [word]) ++ parseWords [] s
      else parseWords (word ++ [b]) s

/-- `parse`. -/
def parse (buf : Bytes) : List Bytes := parseWords [] (buf.rdropWhile isEol)

/-- The buffer after a read: the bytes received, and zeros. -/
def buffer (received : Bytes) : Bytes :=
  received ++ List.replicate (MAX_LINE - received.length) 0

/-- The lines of the buffer. -/
def bufferLines (received : Bytes) : List Bytes × Bool := lines (MAX_LINE + 1) (buffer received)

/-- The argument vectors that `handle_client_input` passes to `call`. -/
def argvs (received : Bytes) : List (List Bytes) := (bufferLines received).1.map parse

example : argvs (ascii "PRIVMSG  #c :a b: c\r\n \nQUIT")
    = [[ascii "PRIVMSG", ascii "#c", ascii "a b: c"], [], [ascii "QUIT"]] := by decide +kernel

theorem isEol_of_isText {b : UInt8} (h : isText b = true) : isEol b = false := by
  simpa using (Bool.and_eq_true_iff.mp h).2

theorem isText_iff {b : UInt8} (hnul : b ≠ 0) : isText b = !isEol b := by
  simp [isText, hnul]

/-- The scans up to the NUL. -/
theorem dropWhile_append_nul {q : UInt8 → Bool} (hq : q 0 = false) (s z : Bytes) :
    (s ++ 0 :: z).dropWhile q = s.dropWhile q ++ 0 :: z := by
  induction s with
  | nil => rw [List.nil_append, List.dropWhile_cons_of_neg (by simp [hq])]; rfl
  | cons b s ih =>
      cases hb : q b with
      | true => rw [List.cons_append, List.dropWhile_cons_of_pos hb, ih, List.dropWhile_cons_of_pos hb]
      | false =>
          rw [List.cons_append, List.dropWhile_cons_of_neg (by simp [hb]),
            List.dropWhile_cons_of_neg (by simp [hb]), List.cons_append]

theorem takeWhile_append_nul {q : UInt8 → Bool} (hq : q 0 = false) (s z : Bytes) :
    (s ++ 0 :: z).takeWhile q = s.takeWhile q := by
  induction s with
  | nil => rw [List.nil_append, List.takeWhile_cons_of_neg (by simp [hq])]; rfl
  | cons b s ih =>
      cases hb : q b with
      | true => rw [List.cons_append, List.takeWhile_cons_of_pos hb, ih, List.takeWhile_cons_of_pos hb]
      | false =>
          rw [List.cons_append, List.takeWhile_cons_of_neg (by simp [hb]),
            List.takeWhile_cons_of_neg (by simp [hb])]

/-- A scan that meets a NUL: there is no token and it finds none, or it finds the first one and
leaves what has the others. -/
theorem strtokR_append {s : Bytes} (hnul : 0 ∉ s) (z : Bytes) :
    (tokens isEol s = [] ∧ strtokR (s ++ 0 :: z) = some none) ∨
      ∃ t r, r.length < s.length ∧ 0 ∉ r ∧ tokens isEol s = t :: tokens isEol r ∧
        strtokR (s ++ 0 :: z) = some (some (t, r ++ 0 :: z)) := by
  have hsub := List.dropWhile_sublist (l := s) isEol
  rw [strtokR, dropWhile_append_nul rfl, takeWhile_append_nul rfl, dropWhile_append_nul rfl,
    ← tokens_dropWhile s]
  cases hs : s.dropWhile isEol with
  | nil => exact Or.inl ⟨rfl, rfl⟩
  | cons a u =>
      have hnul' : ∀ b ∈ a :: u, b ≠ 0 := by
        rintro b hb rfl
        rw [hs] at hsub
        exact hnul (hsub.subset hb)
      have ha : isEol a = false := by
        have hhead := List.head_dropWhile_not (l := s) isEol (by simp [hs])
        simpa [hs] using hhead
      have hat : isText a = true := by
        rw [isText_iff (hnul' a List.mem_cons_self), ha, Bool.not_false]
      have hlen : (a :: u).length ≤ s.length := by
        rw [hs] at hsub
        exact hsub.length_le
      -- the line and what follows it
      have hsplit := List.takeWhile_append_dropWhile (p := isText) (l := a :: u)
      have hline : ∀ b ∈ (a :: u).takeWhile isText, isEol b = false := by
        intro b hb
        have htext := List.mem_takeWhile_imp hb
        simpa [isText] using (Bool.and_eq_true_iff.mp htext).2
      have hne : (a :: u).takeWhile isText ≠ [] := by
        rw [List.takeWhile_cons_of_pos hat]
        exact List.cons_ne_nil _ _
      refine Or.inr ?_
      cases hr : (a :: u).dropWhile isText with
      | nil =>
          rw [hr, List.append_nil] at hsplit
          refine ⟨(a :: u).takeWhile isText, [], Nat.lt_of_lt_of_le (Nat.succ_pos _) hlen,
            List.not_mem_nil, ?_, ?_⟩
          · rw [← tokens_append hline hne (by simp), List.append_nil, hsplit]
          · simp [hne]
      | cons c r =>
          rw [hr] at hsplit
          have hmem : ∀ b ∈ c :: r, b ∈ a :: u := fun b hb => hsplit ▸ List.mem_append_right _ hb
          have hc : c ≠ 0 := hnul' c (hmem c List.mem_cons_self)
          have hceol : isEol c = true := by
            have hhead := List.head_dropWhile_not (l := a :: u) isText (by simp [hr])
            simpa [hr, isText_iff hc] using hhead
          refine ⟨(a :: u).takeWhile isText, r, ?_, fun h0 => ?_, ?_, ?_⟩
          · have hsum := congrArg List.length hsplit
            rw [List.length_append, List.length_cons] at hsum
            omega
          · exact hnul' 0 (hmem 0 (List.mem_cons_of_mem _ h0)) rfl
          · rw [← tokens_cons_sep hceol r, ← tokens_append hline hne (by simpa using hceol), hsplit]
          · simp [hne, hc]

theorem lines_append {s : Bytes} (hnul : 0 ∉ s) (z : Bytes) {fuel : ℕ} (hfuel : s.length < fuel) :
    lines fuel (s ++ 0 :: z) = (tokens isEol s, true) := by
  induction fuel generalizing s with
  | zero => omega
  | succ fuel ih =>
      rw [lines]
      rcases strtokR_append hnul z with ⟨hnone, hscan⟩ | ⟨t, r, hlen, hr, htok, hscan⟩
      · rw [hscan, hnone]
      · rw [hscan, htok]
        simp only
        rw [ih hr (by omega)]

/-- The lines of a buffer that is not full are the tokens of what has been received. -/
theorem lines_buffer {received : Bytes} (hnul : 0 ∉ received)
    (hlen : received.length < MAX_LINE) :
    bufferLines received = (tokens isEol received, true) := by
  obtain ⟨n, hn⟩ : ∃ n, MAX_LINE - received.length = n + 1 :=
    ⟨MAX_LINE - received.length - 1, by omega⟩
  rw [bufferLines, buffer, hn, List.replicate_succ]
  exact lines_append hnul _ (by omega)

/-! ## Segmentation -/

/-- A way of cutting a stream into successive reads. -/
def Cut (s : Bytes) (c : List Bytes) : Prop :=
  c.flatten = s ∧ ∀ received ∈ c, received ≠ [] ∧ received.length < MAX_LINE

/-- The commands of a cut are those of the lines of the stream if and only if no read ends inside
a line. -/
theorem cut_argvs_iff {s : Bytes} {c : List Bytes} (hnul : 0 ∉ s) (hc : Cut s c) :
    c.flatMap argvs = (tokens isEol s).map parse ↔ Whole isEol c := by
  obtain ⟨rfl, hreads⟩ := hc
  rw [← flatMap_tokens_eq_iff parse fun received hr => (hreads received hr).1]
  have hargvs : c.flatMap argvs = c.flatMap fun received => (tokens isEol received).map parse := by
    refine List.flatMap_congr fun received hr => ?_
    have hnul' : 0 ∉ received := fun h0 => hnul (List.mem_flatten.mpr ⟨received, hr, h0⟩)
    rw [argvs, lines_buffer hnul' (hreads received hr).2]
  rw [hargvs]

/-- A cut of which only the middle is given: all other bytes are in reads of their own. -/
theorem cut_around (u v : Bytes) {m : List Bytes}
    (hreads : ∀ r ∈ m, r ≠ [] ∧ r.length < MAX_LINE) :
    Cut (u ++ m.flatten ++ v) (u.map (fun b => [b]) ++ m ++ v.map fun b => [b]) := by
  have hflatten : ∀ w : Bytes, (w.map fun b => [b]).flatten = w := by
    intro w
    rw [← List.flatMap_def, List.flatMap_singleton']
  have hone : ∀ w : Bytes, ∀ r ∈ w.map fun b => [b], r ≠ [] ∧ r.length < MAX_LINE := by
    intro w r hr
    obtain ⟨b, -, rfl⟩ := List.mem_map.mp hr
    exact ⟨List.cons_ne_nil _ _, by simp [MAX_LINE]⟩
  refine ⟨by rw [List.flatten_append, List.flatten_append, hflatten, hflatten], fun r hr => ?_⟩
  rcases List.mem_append.mp hr with hr | hr
  · rcases List.mem_append.mp hr with hr | hr
    · exact hone u r hr
    · exact hreads r hr
  · exact hone v r hr

/-- A stream without NUL gives the same commands for all ways of cutting it into reads if and only
if no line has two bytes.  Two given ways, one of which splits no line, give the same commands if
and only if the other one splits no line either. -/
theorem segmentation_iff {s : Bytes} (hnul : 0 ∉ s) :
    ((∀ c c', Cut s c → Cut s c' → c.flatMap argvs = c'.flatMap argvs) ↔
      s.IsChain fun a b => isEol a = true ∨ isEol b = true) ∧
    ∀ c c', Cut s c → Cut s c' → Whole isEol c →
      (c'.flatMap argvs = c.flatMap argvs ↔ Whole isEol c') := by
  constructor
  · constructor
    · intro hsame
      rw [List.isChain_iff_forall_rel_of_append_cons_cons]
      intro a b u v hs
      by_contra hab
      rw [not_or, Bool.not_eq_true, Bool.not_eq_true] at hab
      have hlen : ∀ r : Bytes, (∀ x ∈ r, x ∈ s) → r.length < MAX_LINE →
          (argvs r).length = (tokens isEol r).length := by
        intro r hr hlen
        rw [argvs, lines_buffer (fun h0 => hnul (hr 0 h0)) hlen, List.length_map]
      -- the two bytes in one read and in two reads, all other bytes in reads of their own
      have hone := cut_around u v (m := [[a, b]]) (by simp [MAX_LINE])
      have htwo := cut_around u v (m := [[a], [b]]) (by simp [MAX_LINE])
      have heq := hsame _ _ (by simpa [hs] using hone) (by simpa [hs] using htwo)
      simp only [List.flatMap_append, List.append_cancel_left_eq, List.flatMap_cons] at heq
      have hcount := congrArg List.length heq
      simp only [List.length_append] at hcount
      rw [hlen [a, b] (by simp [hs]) (by simp [MAX_LINE]),
        hlen [a] (by simp [hs]) (by simp [MAX_LINE]),
        hlen [b] (by simp [hs]) (by simp [MAX_LINE])] at hcount
      have hsplit := length_tokens_split hab.1 hab.2 [] []
      rw [List.nil_append, List.nil_append] at hsplit
      omega
    · intro hchain c c' hc hc'
      have hwhole : ∀ d, Cut s d → Whole isEol d := by
        rintro d ⟨rfl, hreads⟩
        refine ((List.isChain_flatten fun hmem => (hreads [] hmem).1 rfl).mp hchain).2
      rw [(cut_argvs_iff hnul hc).mpr (hwhole c hc), (cut_argvs_iff hnul hc').mpr (hwhole c' hc')]
  · intro c c' hc hc' hwhole
    rw [(cut_argvs_iff hnul hc).mpr hwhole]
    exact cut_argvs_iff hnul hc'

/-- Two lines in one read and in two reads. -/
theorem segmentation_iff_lines :
    [ascii "NICK a\r\n", ascii "LIST\r\n"].flatMap argvs
      = [ascii "NICK a\r\nLIST\r\n"].flatMap argvs := by
  have hnul : 0 ∉ ascii "NICK a\r\nLIST\r\n" := by decide
  have hone : Cut (ascii "NICK a\r\nLIST\r\n") [ascii "NICK a\r\nLIST\r\n"] :=
    ⟨rfl, by simp [MAX_LINE, ascii]⟩
  have htwo : Cut (ascii "NICK a\r\nLIST\r\n") [ascii "NICK a\r\n", ascii "LIST\r\n"] :=
    ⟨rfl, by simp [MAX_LINE, ascii]⟩
  refine ((segmentation_iff hnul).2 _ _ hone htwo (List.isChain_singleton _)).mpr ?_
  refine List.isChain_cons_cons.mpr ⟨fun a ha b _ => Or.inl ?_, List.isChain_singleton _⟩
  obtain rfl : ch '\n' = a := Option.some.inj ha
  rfl

/-- A line in one read and in two reads: the words are others. -/
theorem segmentation_matters : ∃ s c c', 0 ∉ s ∧ s.getLast? = some (ch '\n') ∧
    (∀ line ∈ tokens isEol s, line.length < MAX_LINE) ∧ Cut s c ∧ Cut s c' ∧
    c.flatMap argvs = [[ascii "NICK", ascii "a"]] ∧
    c'.flatMap argvs = [[ascii "NI"], [ascii "CK", ascii "a"]] :=
  ⟨ascii "NICK a\r\n", [ascii "NICK a\r\n"], [ascii "NI", ascii "CK a\r\n"], by decide,
    by decide, by decide, ⟨rfl, by simp [MAX_LINE, ascii]⟩, ⟨rfl, by simp [MAX_LINE, ascii]⟩,
    by decide +kernel, by decide +kernel⟩

/-! ## The loop over the lines -/

/-- A call of `call`: the database it is made in and the argument vector. -/
structure Call where
  db : Database
  argv : List Bytes

/-- What is done with a line: `call`, and the handlers of what it throws. -/
def handleLine (connfd : Fd) (db : Database) (argv : List Bytes) :
    Option (Database × List Sent) :=
  (runCall db connfd argv).map fun step => match step.2.outcome with
    | .done => (step.1, step.2.sent)
    | .cmdMsg msg => (step.1, step.2.sent ++ [(connfd, sendcmdsStr [msg] [])])
    | .disconnect => (step.1.clientDel connfd, step.2.sent)

/-- The loop of `handle_client_input` over the lines: the calls it makes, and, if all of them are
defined, the database after it and what has been sent. -/
def handleLines (connfd : Fd) :
    Database → List (List Bytes) → List Call × Option (Database × List Sent)
  | db, [] => ([], some (db, []))
  | db, argv :: rest =>
      match handleLine connfd db argv with
      | none => ([⟨db, argv⟩], none)
      | some (db', sent) =>
          (⟨db, argv⟩ :: (handleLines connfd db' rest).1,
            (handleLines connfd db' rest).2.map fun r => (r.1, sent ++ r.2))

/-- `handle_client_input`.  A read that returns nothing disconnects the client. -/
def handleClientInput (db : Database) (connfd : Fd) (received : Bytes) :
    List Call × Option (Database × List Sent) :=
  if received = [] then ([], some (db.clientDel connfd, []))
  else ((handleLines connfd db (argvs received)).1,
    if (bufferLines received).2 then (handleLines connfd db (argvs received)).2 else none)

/-- `call` reaches `getuser`, which is behind the check that the command is known. -/
def Call.asksUser (c : Call) : Prop := ∃ cmd args, c.argv = cmd :: args ∧ (cmds.lookup cmd).isSome

/-- `call` throws nothing undefined itself but for a `getuser` that finds no client. -/
theorem dispatch_undefined_iff {c : Call} {fd : Fd} :
    dispatch c.db fd c.argv = .throws .undefined ↔ c.asksUser ∧ fd ∉ c.db.clients := by
  rw [← AList.lookup_eq_none]
  rcases c with ⟨db, _ | ⟨cmd, args⟩⟩
  · simp [dispatch, Call.asksUser]
  · cases hitem : cmds.lookup cmd with
    | none =>
        have hasks : ¬ Call.asksUser ⟨db, cmd :: args⟩ := by
          rintro ⟨c, a, hargv, hsome⟩
          cases hargv
          rw [hitem] at hsome
          cases hsome
        simp [dispatch, hitem, hasks]
    | some item =>
        have hasks : Call.asksUser ⟨db, cmd :: args⟩ := ⟨cmd, args, rfl, by rw [hitem]; rfl⟩
        cases hclient : db.clients.lookup fd with
        | none => simp [dispatch, hitem, hclient, hasks]
        | some client =>
            simp only [dispatch, hitem, hclient]
            split_ifs <;> simp

/-- Only `quit` asks for a disconnect. -/
theorem cmds_stay {cmd : Bytes} {item : CmdItem} (h : cmds.lookup cmd = some item)
    (hquit : cmd ≠ ascii "QUIT") (fd : Fd) (argv : List Bytes) (w : World) :
    Ends (item.fp fd argv) w (fun _ _ => True) (fun e _ => e ≠ .disconnect) := by
  have hnames : ∀ args w, Ends (names fd args) w (fun _ _ => True) (fun e _ => e ≠ .disconnect) := by
    intro args w
    cases args <;> simp [names, getuser, sendcmds, readChannel]
  refine cmds_cases (P := fun cmd fp => cmd ≠ ascii "QUIT" →
    Ends (fp fd argv) w (fun _ _ => True) (fun e _ => e ≠ .disconnect))
    ?_ ?_ ?_ ?_ ?_ ?_ ?_ ?_ ?_ ?_ ?_ h hquit
  · intro _
    cases argv <;> simp [nick, getuser, changeNick]
  · intro _
    simp [user, getuser, arg]
  · intro hquit
    exact absurd rfl hquit
  · intro _
    simp [join, arg, channelAdd, getuser, readChannel, broadcast, sendcmd, sendcmds, hnames]
  · intro _
    simp [part, arg, channelDel, getuser, readChannel, broadcast]
  · intro _
    simp only [topic, arg, getuser, readChannel, sendcmd, sendcmds, broadcast, ends_bind, ends_get,
      ends_ite, ends_throwErr, ends_orUndefined]
    cases argv[1]? <;> simp
  · exact fun _ => hnames argv w
  · intro _
    simp [list, getuser, sendcmds]
  · intro _
    rcases argv with _ | ⟨name, _ | ⟨text, rest⟩⟩
    · simp [privmsg]
    · simp [privmsg]
    · simp only [privmsg, getuser, ends_bind, ends_get, ends_orUndefined]
      cases w.db.channels.lookup name <;> simp [broadcast]
  · intro _
    cases argv <;> simp [ping]
  · intro _
    simp [users, sendcmds]

theorem call_stays {argv : List Bytes} (hquit : argv.head? ≠ some (ascii "QUIT")) (fd : Fd)
    (w : World) : Ends (call fd argv) w (fun _ _ => True) (fun e _ => e ≠ .disconnect) := by
  cases argv with
  | nil => exact trivial
  | cons cmd args =>
      have hcmd : cmd ≠ ascii "QUIT" := by
        rintro rfl
        exact hquit rfl
      rw [call]
      cases hitem : cmds.lookup cmd with
      | none => simp
      | some item =>
          simp only [getuser, ends_bind, ends_get, ends_orUndefined, ends_ite, ends_throwErr,
            ends_pure]
          refine ⟨fun client _ => ⟨fun _ => by simp, fun _ => ⟨fun _ => by simp, fun _ => ?_⟩⟩,
            fun _ => by simp⟩
          refine (cmds_stay hitem hcmd fd args w).mono (fun _ w' _ => ⟨fun _ => trivial, fun _ => ?_⟩)
            (fun _ _ h => h)
          simp [welcome, getuser]

/-! ## After a `QUIT` -/

section lines

variable {db db' : Database} {fd : Fd} {argv : List Bytes} {sent : List Sent}

theorem handleLine_nil (fd : Fd) (db : Database) : handleLine fd db [] = some (db, []) := rfl

/-- `QUIT` removes the client, and is undefined if there is none. -/
theorem handleLine_quit (hquit : argv.head? = some (ascii "QUIT")) :
    (fd ∈ db.clients → handleLine fd db argv = some (db.clientDel fd, [])) ∧
      (fd ∉ db.clients → handleLine fd db argv = none) := by
  obtain ⟨args, rfl⟩ : ∃ args, argv = ascii "QUIT" :: args := by
    cases argv with
    | nil => cases hquit
    | cons cmd args =>
        cases hquit
        exact ⟨args, rfl⟩
  have hitem : cmds.lookup (ascii "QUIT") = some ⟨0, quit⟩ := rfl
  have hallow : ascii "QUIT" ∈ unregAllow := by decide
  constructor
  · intro hconn
    obtain ⟨client, hclient⟩ := Table.mem_iff_lookup.mp hconn
    have hcall : call fd (ascii "QUIT" :: args) ⟨db, []⟩ = .error .disconnect ⟨db, []⟩ := by
      apply result_of_ends (fun r => r = _)
      rw [call, hitem]
      simp [getuser, quit, hclient, hallow]
    rw [handleLine, runCall, hcall]
    rfl
  · intro hconn
    have hcall : call fd (ascii "QUIT" :: args) ⟨db, []⟩ = .error .undefined ⟨db, []⟩ := by
      apply result_of_ends (fun r => r = _)
      rw [call, hitem]
      simp [getuser, AList.lookup_eq_none.mpr hconn]
    rw [handleLine, runCall, hcall]
    rfl

/-- Any other line keeps the client. -/
theorem mem_handleLine (hconn : fd ∈ db.clients) (hquit : argv.head? ≠ some (ascii "QUIT"))
    (h : handleLine fd db argv = some (db', sent)) : fd ∈ db'.clients := by
  obtain ⟨⟨db₁, outcome, out⟩, hrun, hline⟩ := Option.map_eq_some_iff.mp h
  have hmem : fd ∈ db₁.clients ∧ outcome ≠ .disconnect := by
    have hstays := call_stays hquit fd ⟨db, []⟩
    by_cases hdone : outcome = .done
    · subst hdone
      refine ⟨?_, by simp⟩
      rcases called_of_runCall hrun with ⟨-, rfl⟩ | ⟨cmd, args, db₂, -, hret, rfl | rfl⟩
      · exact hconn
      · exact (hret.mem_clients fd).mpr hconn
      · exact Table.mem_modify.mpr ((hret.mem_clients fd).mpr hconn)
    · obtain ⟨cmd, args, e, -, hthrew, hdef, -⟩ := threw_of_runCall hrun hdone
      refine ⟨by rw [(hthrew.frame hdef).1]; exact hconn, ?_⟩
      rintro rfl
      unfold runCall at hrun
      split at hrun
      · cases hrun
      · cases hrun
      · next hdis => exact hstays.of_error hdis rfl
      · cases hrun
  cases outcome with
  | done =>
      cases hline
      exact hmem.1
  | cmdMsg msg =>
      cases hline
      exact hmem.1
  | disconnect => exact absurd rfl hmem.2

theorem handleLines_cons_none (h : handleLine fd db argv = none) (rest : List (List Bytes)) :
    (handleLines fd db (argv :: rest)).1 = [⟨db, argv⟩] := by
  rw [handleLines, h]

theorem handleLines_cons_some (h : handleLine fd db argv = some (db', sent))
    (rest : List (List Bytes)) :
    (handleLines fd db (argv :: rest)).1 = ⟨db, argv⟩ :: (handleLines fd db' rest).1 ∧
      (handleLines fd db (argv :: rest)).2.isSome = (handleLines fd db' rest).2.isSome := by
  rw [handleLines, h]
  exact ⟨rfl, Option.isSome_map⟩

/-- The calls of two lists of lines. -/
theorem handleLines_append {before after : List (List Bytes)} {r : Database × List Sent}
    (h : (handleLines fd db before).2 = some r) :
    (handleLines fd db (before ++ after)).1
      = (handleLines fd db before).1 ++ (handleLines fd r.1 after).1 := by
  induction before generalizing db r with
  | nil =>
      cases h
      rfl
  | cons argv before ih =>
      cases hline : handleLine fd db argv with
      | none =>
          rw [handleLines, hline] at h
          cases h
      | some step =>
          rw [handleLines, hline] at h
          obtain ⟨r', hr', rfl⟩ := Option.map_eq_some_iff.mp h
          rw [List.cons_append, (handleLines_cons_some hline _).1, (handleLines_cons_some hline _).1,
            ih hr', List.cons_append]

/-- Lines without words are all passed to `call`, which does nothing. -/
theorem handleLines_blank {rest : List (List Bytes)} :
    (∀ c ∈ (handleLines fd db rest).1, c.argv = []) ↔ ∀ argv ∈ rest, argv = [] := by
  induction rest with
  | nil => simp [handleLines]
  | cons argv rest ih =>
      cases argv with
      | nil =>
          rw [(handleLines_cons_some (handleLine_nil fd db) rest).1, List.forall_mem_cons,
            List.forall_mem_cons, ih]
      | cons cmd args =>
          have hmem : (⟨db, cmd :: args⟩ : Call) ∈ (handleLines fd db ((cmd :: args) :: rest)).1 := by
            cases hline : handleLine fd db (cmd :: args) with
            | none => simp [handleLines_cons_none hline]
            | some step => simp [(handleLines_cons_some hline rest).1]
          constructor
          · intro hall
            cases hall _ hmem
          · intro hall
            cases hall _ List.mem_cons_self

/-- The client is connected whenever a call asks for it, and no command follows a `QUIT`. -/
def Orderly (fd : Fd) (calls : List Call) : Prop :=
  (∀ c ∈ calls, c.asksUser → fd ∈ c.db.clients) ∧
    ∀ before c after, calls = before ++ c :: after → c.argv.head? = some (ascii "QUIT") →
      ∀ d ∈ after, d.argv = []

/-- The loop reaches no command behind a `QUIT`. -/
def QuitLast (fd : Fd) (db : Database) (rest : List (List Bytes)) : Prop :=
  ∀ before quit after, rest = before ++ quit :: after → quit.head? = some (ascii "QUIT") →
    (handleLines fd db before).2.isSome → ∀ argv ∈ after, argv = []

theorem quit_asksUser {c : Call} (hquit : c.argv.head? = some (ascii "QUIT")) : c.asksUser := by
  rcases c with ⟨db, _ | ⟨cmd, args⟩⟩
  · cases hquit
  · cases hquit
    exact ⟨_, args, rfl, rfl⟩

/-- A list of calls with one more in front. -/
theorem orderly_cons {c : Call} {calls : List Call} (hasks : c.asksUser → fd ∈ c.db.clients) :
    Orderly fd (c :: calls) ↔ Orderly fd calls ∧
      (c.argv.head? = some (ascii "QUIT") → ∀ d ∈ calls, d.argv = []) := by
  constructor
  · rintro ⟨hall, hlast⟩
    refine ⟨⟨fun d hd => hall d (List.mem_cons_of_mem _ hd), fun before d after heq => ?_⟩,
      hlast [] c calls rfl⟩
    exact hlast (c :: before) d after (by rw [heq, List.cons_append])
  · rintro ⟨⟨hall, hlast⟩, hquit⟩
    refine ⟨fun d hd => ?_, fun before d after heq hd => ?_⟩
    · rcases List.mem_cons.mp hd with rfl | hd
      · exact hasks
      · exact hall d hd
    · cases before with
      | nil =>
          cases heq
          exact hquit hd
      | cons b before =>
          rw [List.cons_append, List.cons.injEq] at heq
          exact hlast before d after heq.2 hd

/-- The calls of the loop are orderly if no command behind a `QUIT` is reached. -/
theorem QuitLast.orderly {rest : List (List Bytes)} (h : QuitLast fd db rest)
    (hconn : fd ∈ db.clients) : Orderly fd (handleLines fd db rest).1 := by
  induction rest generalizing db with
  | nil => exact ⟨by rintro c ⟨⟩, fun before c after heq => by simp [handleLines] at heq⟩
  | cons argv rest ih =>
      cases hline : handleLine fd db argv with
      | none =>
          rw [handleLines_cons_none hline]
          refine (orderly_cons fun _ => hconn).mpr ⟨⟨by rintro c ⟨⟩, fun before c after heq => ?_⟩,
            fun _ => List.forall_mem_nil _⟩
          simp at heq
      | some step =>
          obtain ⟨db', sent⟩ := step
          rw [(handleLines_cons_some hline rest).1, orderly_cons fun _ => hconn]
          by_cases hquit : argv.head? = some (ascii "QUIT")
          · have hblank : ∀ c ∈ (handleLines fd db' rest).1, c.argv = [] :=
              handleLines_blank.mpr (h [] argv rest rfl hquit rfl)
            refine ⟨⟨fun c hc hasks => ?_, fun before c after heq hc => ?_⟩, fun _ => hblank⟩
            · obtain ⟨cmd, args, hargv, -⟩ := hasks
              rw [hblank c hc] at hargv
              cases hargv
            · rw [hblank c (heq ▸ List.mem_append_right _ List.mem_cons_self)] at hc
              cases hc
          · refine ⟨ih (fun before quit after heq hq hdef => ?_) (mem_handleLine hconn hquit hline),
              fun hq => absurd hq hquit⟩
            refine h (argv :: before) quit after (by rw [heq, List.cons_append]) hq ?_
            rw [(handleLines_cons_some hline before).2]
            exact hdef

/-- And only then. -/
theorem Orderly.quitLast {rest : List (List Bytes)}
    (h : Orderly fd (handleLines fd db rest).1) : QuitLast fd db rest := by
  rintro before quit after rfl hquit hdef
  obtain ⟨⟨db₁, sent₁⟩, hbefore⟩ := Option.isSome_iff_exists.mp hdef
  rw [handleLines_append hbefore] at h
  obtain ⟨hall, hlast⟩ := h
  have hconn : fd ∈ db₁.clients := by
    by_contra hgone
    rw [handleLines_cons_none ((handleLine_quit hquit).2 hgone)] at hall
    exact hgone (hall ⟨db₁, quit⟩ (by simp) (quit_asksUser hquit))
  rw [(handleLines_cons_some ((handleLine_quit hquit).1 hconn) after).1] at hlast
  exact handleLines_blank.mp (hlast _ ⟨db₁, quit⟩ _ rfl hquit)

end lines

/-- What is received from a connected client is handled in order, that is, every `getuser` finds
the client and no command that follows a `QUIT` is run, if and only if the loop reaches no command
behind a `QUIT`. -/
theorem nothing_after_quit_iff {db : Database} {fd : Fd} (hconn : fd ∈ db.clients)
    (received : Bytes) :
    Orderly fd (handleClientInput db fd received).1 ↔ QuitLast fd db (argvs received) := by
  have hcalls : (handleClientInput db fd received).1 = (handleLines fd db (argvs received)).1 := by
    by_cases hnone : received = []
    · have hempty : argvs [] = [] := by decide +kernel
      rw [handleClientInput, if_pos hnone, hnone, hempty]
      rfl
    · rw [handleClientInput, if_neg hnone]
  rw [hcalls]
  exact ⟨Orderly.quitLast, fun h => h.orderly hconn⟩

/-- A client chooses a nickname and quits. -/
theorem nothing_after_quit_iff_last : ∃ past db, Run system past db ∧ 4 ∈ db.clients ∧
    Orderly 4 (handleClientInput db 4 (ascii "NICK a\r\nQUIT\r\n")).1 := by
  obtain ⟨past, db, hrun, htest⟩ := exists_run_of_replay system [.clientAdd 4 [] []]
    (fun r => decide (4 ∈ r.2.clients)) (by decide +kernel)
  have hconn := of_decide_eq_true htest
  refine ⟨past, db, hrun, hconn, (nothing_after_quit_iff hconn _).mpr ?_⟩
  have hargvs : argvs (ascii "NICK a\r\nQUIT\r\n") = [[ascii "NICK", ascii "a"], [ascii "QUIT"]] := by
    decide +kernel
  rw [hargvs]
  rintro (_ | ⟨b, _ | ⟨b', before⟩⟩) quit after heq hquit - argv hargv
  · cases heq
    exact absurd hquit (by decide)
  · cases heq
    cases hargv
  · simp at heq

/-- A client quits, and a command follows in the same buffer: the command asks for a client that
is gone. -/
theorem command_after_quit : ∃ past db, Run system past db ∧ 4 ∈ db.clients ∧
    (∃ c ∈ (handleClientInput db 4 (ascii "QUIT\r\nNICK a\r\n")).1,
      c.argv = [ascii "NICK", ascii "a"] ∧ 4 ∉ c.db.clients) ∧
    ¬ Orderly 4 (handleClientInput db 4 (ascii "QUIT\r\nNICK a\r\n")).1 := by
  obtain ⟨past, db, hrun, htest⟩ := exists_run_of_replay system [.clientAdd 4 [] []]
    (fun r => decide (4 ∈ r.2.clients) &&
      (handleClientInput r.2 4 (ascii "QUIT\r\nNICK a\r\n")).1.any fun c =>
        decide (c.argv = [ascii "NICK", ascii "a"]) && decide (4 ∉ c.db.clients))
    (by decide +kernel)
  simp only [Bool.and_eq_true, List.any_eq_true, decide_eq_true_eq] at htest
  obtain ⟨hconn, c, hc, hargv, hgone⟩ := htest
  refine ⟨past, db, hrun, hconn, ⟨c, hc, hargv, hgone⟩, fun horder => ?_⟩
  exact hgone (horder.1 c hc ⟨_, _, hargv, rfl⟩)

end Mircd
