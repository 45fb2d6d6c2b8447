/-
# The arrays of the chat server

`sendexp` formats a message into `msg`, and `msg2log` formats it again into its own `msg`, the
sender into `frombuf`, and the line of both into `buf`.  A name comes from a read of nearly
`MAX_LINE` bytes, and stands in later messages with other text around it.

* `fits_msg2log`, `fits_sendexp` : what fits, from the lengths of the message and the sender;
* `Short` : the connects and reads after which everything fits, from the lengths of the names and
  of the input;
* `fits_iff_short` : a step is one of these if and only if all that it formats fits;
* `fits_runs_iff` : the same for runs.
-/
import IntroNP.ChatServer

namespace Chat

open Block Machine

/-! ## Formatting -/

/-- The scans of a step have stayed inside `buf`, and all its strings fit their arrays. -/
def Shown.Fits (o : Shown) : Prop := o.inside = true ∧ ∀ f ∈ o.formats, f.Fits

instance (o : Shown) : Decidable o.Fits := inferInstanceAs (Decidable (_ ∧ _))

theorem fits_nothing : Shown.nothing.Fits := ⟨rfl, List.forall_mem_nil _⟩

theorem fits_append (o o' : Shown) : (o.append o').Fits ↔ o.Fits ∧ o'.Fits := by
  simp only [Shown.Fits, Shown.append, Bool.and_eq_true, List.forall_mem_append]
  tauto

/-- The line fits its array when the message and the sender do. -/
theorem fits_msg2log (env : Env) (sender : Sender) (msg : Bytes) :
    (∀ f ∈ (msg2log env sender msg).2, f.Fits) ↔ msg.length ≤ 1023 ∧ sender.text.length ≤ 511 := by
  have htime := env.timebuf_length
  have hblank : (ascii " ").length = 1 := rfl
  have hfeed : (ascii "\n").length = 1 := rfl
  have hlog : (msg2log env sender msg).1.length
      = env.timebuf.length + sender.text.length + msg.length + 3 := by
    simp only [msg2log, List.length_append, hblank, hfeed]
    omega
  show (∀ f ∈ [(⟨MAX_LINE, msg⟩ : Format), ⟨MAX_LINE / 2, sender.text⟩,
    ⟨MAX_LINE * 2, (msg2log env sender msg).1⟩], f.Fits) ↔ _
  simp only [List.forall_mem_cons, List.not_mem_nil, false_implies, implies_true, Format.Fits, hlog,
    MAX_LINE, and_true]
  omega

theorem fits_sendexp (env : Env) (cliinfo : Table Fd Client) (skip : Fd) (sender : Sender)
    (msg : Bytes) : (sendexp env cliinfo skip sender msg).Fits ↔
      msg.length ≤ 1023 ∧ sender.text.length ≤ 511 := by
  rw [Shown.Fits, sendexp, List.forall_mem_cons, fits_msg2log]
  simp only [Format.Fits, MAX_LINE, true_and]
  omega

theorem fits_reply (env : Env) (connfd : Fd) (msg : Bytes) :
    (reply env connfd msg).Fits ↔ msg.length ≤ 1023 := by
  have hsystem : (Sender.system.text).length = 3 := rfl
  rw [Shown.Fits, reply, fits_msg2log, hsystem]
  simp

/-! ## Short input -/

/-- The new name of `/name` is short enough for its messages, if there is one. -/
def ShortRename (cli : Client) (received : Bytes) : Prop :=
  Ended 0 isLf ((buffer received).drop 6) ∧
    (firstToken 0 isLf ((buffer received).drop 6) ≠ [] →
      (firstToken 0 isLf ((buffer received).drop 6)).length ≤ 1001 ∧
      cli.name.length + (firstToken 0 isLf ((buffer received).drop 6)).length ≤ 1002)

/-- A command ends in the buffer; it is short enough for the message that it is unknown, or it is
another one. -/
def ShortCommand (cli : Client) (received : Bytes) : Prop :=
  Ended 0 isBlank (buffer received) ∧
    if firstToken 0 isBlank (buffer received) = ascii "/exit" then True
    else if firstToken 0 isBlank (buffer received) = ascii "/name" ∧ received.length > 7 then
      ShortRename cli received
    else if firstToken 0 isBlank (buffer received) = ascii "/who" then True
    else (firstToken 0 isBlank (buffer received)).length ≤ 991

/-- A line ends in the buffer, and its sender has a name that is short enough for `frombuf`. -/
def ShortChat (cli : Client) (received : Bytes) : Prop :=
  Ended 0 isLf (buffer received) ∧
    (firstToken 0 isLf (buffer received) ≠ [] → cli.name.length ≤ 509)

/-- The connects and reads whose lengths are small enough. -/
def Short : Option State → Event → Prop
  | none, _ => True
  | some s, .connect _ _ _ name => name.length + (decInt (s.clicnt + 1)).length ≤ 949
  | some s, .read _ connfd received => ∀ cli, s.cliinfo.lookup connfd = some cli →
      if received = [] then cli.name.length ≤ 996
      else if received.head? = some (ch '/') then ShortCommand cli received
      else ShortChat cli received

/-! ## Steps -/

section steps

variable {env : Env} {s : State} {connfd : Fd} {cli : Client} {received : Bytes}

theorem fits_handleNewClient (env : Env) (s : State) (connfd : Fd) (sock : SockAddr) (name : Bytes) :
    (s.handleNewClient env connfd sock name).2.Fits ↔
      name.length + (decInt (s.clicnt + 1)).length ≤ 949 := by
  have h₁ : (ascii "User <").length = 6 := rfl
  have h₂ : (ascii "> has just landed on the server").length = 31 := by decide
  have h₃ : (ascii "Welcome to the simple CHAT server\nTotal ").length = 40 := by decide
  have h₄ : (ascii " users online now. Your name is <").length = 33 := by decide
  have h₅ : (ascii ">").length = 1 := rfl
  have hsystem : (Sender.system.text).length = 3 := rfl
  have hdec : 0 < (decInt (s.clicnt + 1)).length := by
    have hpos : 0 < (dec (s.clicnt + 1).natAbs).length := by
      rw [dec, List.length_map]
      exact Nat.length_toDigits_pos
    rw [decInt, List.length_append]
    omega
  rw [State.handleNewClient, fits_append, fits_sendexp, fits_reply, hsystem]
  simp only [List.length_append, h₁, h₂, h₃, h₄, h₅]
  omega

theorem fits_disconnect (env : Env) (s : State) (connfd : Fd) (cli : Client) :
    (s.disconnect env connfd cli).2.Fits ↔ cli.name.length ≤ 996 := by
  have h₁ : (ascii "User <").length = 6 := rfl
  have h₂ : (ascii "> has left the server").length = 21 := by decide
  have hsystem : (Sender.system.text).length = 3 := rfl
  rw [State.disconnect, fits_sendexp, hsystem]
  simp only [List.length_append, h₁, h₂]
  omega

theorem fits_rename {buf : Bytes} (hbuf : 6 ≤ buf.length)
    (hrest : buf.drop 6 = (buffer received).drop 6) :
    (s.rename env connfd cli buf).2.Fits ↔ ShortRename cli received := by
  have h₁ : (ascii "Nickname changed to <").length = 21 := by decide
  have h₂ : (ascii ">").length = 1 := rfl
  have h₃ : (ascii "User <").length = 6 := rfl
  have h₄ : (ascii "> renamed to <").length = 14 := rfl
  have hsystem : (Sender.system.text).length = 3 := rfl
  rw [State.rename, nextToken_eq rfl hbuf, hrest, ShortRename]
  by_cases hend : Ended 0 isLf ((buffer received).drop 6)
  · rw [if_pos hend]
    by_cases hempty : firstToken 0 isLf ((buffer received).drop 6) = []
    · rw [if_pos hempty]
      simp [hend, hempty, fits_nothing]
    · rw [if_neg hempty]
      simp only [fits_append, fits_reply, fits_sendexp, hsystem, List.length_append, h₁, h₂, h₃, h₄,
        hend, hempty, ne_eq, not_false_eq_true, forall_const, true_and]
      omega
  · rw [if_neg hend]
    simp [hend, Shown.Fits]

theorem fits_command (hlen : received.length ≤ MAX_LINE) (hslash : received.head? = some (ch '/')) :
    (s.command env connfd cli received).2.Fits ↔ ShortCommand cli received := by
  have h₁ : (ascii "Unknown or incomplete command <").length = 31 := by decide
  have h₂ : (ascii ">").length = 1 := rfl
  rw [State.command, ShortCommand, nextToken_eq rfl (Nat.zero_le _), List.drop_zero]
  by_cases hend : Ended 0 isBlank (buffer received)
  · rw [if_pos hend, and_iff_right hend]
    generalize htoken : firstToken 0 isBlank (buffer received) = token
    by_cases hempty : token = []
    · subst hempty
      rw [if_pos rfl]
      simp [fits_nothing, ascii]
    · rw [if_neg hempty, takeWhile_slash hslash]
      simp only
      split_ifs with hexit hname hwho
      · simp [fits_nothing]
      · -- the call of `strtok` has only written behind the first word
        apply fits_rename
        · rw [List.length_set, length_buffer hlen, MAX_LINE]
          omega
        · apply List.drop_set_of_lt
          rw [hname.1]
          decide
      · simp [Shown.Fits]
      · rw [fits_reply]
        simp only [List.length_append, h₁, h₂]
        omega
  · rw [if_neg hend]
    simp [hend, Shown.Fits]

theorem fits_chat (hlen : received.length ≤ MAX_LINE) :
    (s.chat env connfd cli received).2.Fits ↔ ShortChat cli received := by
  have h₁ : (ascii "<").length = 1 := rfl
  have h₂ : (ascii ">").length = 1 := rfl
  rw [State.chat, ShortChat, nextToken_eq rfl (Nat.zero_le _), List.drop_zero]
  by_cases hend : Ended 0 isLf (buffer received)
  · have hline := length_firstToken_lt hend
    rw [length_buffer hlen, MAX_LINE] at hline
    rw [if_pos hend, and_iff_right hend]
    by_cases hempty : firstToken 0 isLf (buffer received) = []
    · rw [if_pos hempty]
      simp [hempty, fits_nothing]
    · rw [if_neg hempty]
      simp only [fits_sendexp, Sender.text, List.length_append, h₁, h₂, hempty, ne_eq,
        not_false_eq_true, forall_const]
      omega
  · rw [if_neg hend]
    simp [hend, Shown.Fits]

end steps

/-- All that a step formats fits if and only if its lengths are small enough. -/
theorem fits_iff_short {s s' : Option State} {e : Event} {o : Shown}
    (h : next s e = some (s', o)) : o.Fits ↔ Short s e := by
  cases s with
  | none => cases h
  | some s =>
      cases e with
      | connect env connfd sock name =>
          simp only [next] at h
          split_ifs at h
          simp only [Option.some.injEq, Prod.mk.injEq] at h
          rw [← h.2, fits_handleNewClient, Short]
      | read env connfd received =>
          simp only [next] at h
          split_ifs at h with hlen
          obtain ⟨cli, hcli, hstep⟩ := Option.map_eq_some_iff.mp h
          have ho : o = (s.handleClientInput env connfd cli received).2 := by
            rw [hstep]
          have hshort : Short (some s) (.read env connfd received) ↔
              if received = [] then cli.name.length ≤ 996
              else if received.head? = some (ch '/') then ShortCommand cli received
              else ShortChat cli received := by
            simp only [Short, hcli, Option.some.injEq, forall_eq']
          rw [hshort, ho, State.handleClientInput]
          split_ifs with hempty hslash
          · exact fits_disconnect env s connfd cli
          · exact fits_command hlen hslash
          · exact fits_chat hlen

/-! ## Runs -/

/-- In a run, everything that is formatted fits its array if and only if the lengths of each connect
and each read are small enough for the names at that time. -/
theorem fits_runs_iff {past : List (Moment (Option State) Event Shown)} {s : Option State}
    (hrun : Run system past s) :
    (∀ m ∈ past, m.shown.Fits) ↔ ∀ m ∈ past, Short m.pre m.event := by
  have hstep : ∀ m ∈ past, (m.shown.Fits ↔ Short m.pre m.event) := by
    refine hrun.moments (C := fun _ _ => True) (I := fun _ => True) trivial ?_ fun _ _ => trivial
    intro s e s' o _ _ hs
    exact ⟨trivial, fits_iff_short hs⟩
  constructor
  · intro h m hm
    exact (hstep m hm).mp (h m hm)
  · intro h m hm
    exact (hstep m hm).mpr (h m hm)

theorem fits_runs_iff_hello : ∃ past s, Run system past s ∧ past ≠ [] ∧
    ((∀ m ∈ past, m.shown.Fits) ↔ ∀ m ∈ past, Short m.pre m.event) := by
  obtain ⟨past, s, hrun, htest⟩ := exists_run_of_replay system
    [.connect Env.sample 4 ⟨(127, 0, 0, 1), 4711⟩ (ascii "abcdefg"),
      .read Env.sample 4 (ascii "hello\n")] (fun r => !r.1.isEmpty) (by decide +kernel)
  have hne : past ≠ [] := by simpa using htest
  exact ⟨past, s, hrun, hne, fits_runs_iff hrun⟩

/-- A client takes a name of 600 letters and says something: the name does not fit `frombuf`. -/
theorem long_name : ∃ past s, Run system past s ∧ ∃ m ∈ past, m.shown.inside = true ∧
    ∃ f ∈ m.shown.formats, f.size = MAX_LINE / 2 ∧ ¬ f.Fits := by
  obtain ⟨past, s, hrun, htest⟩ := exists_run_of_replay system
    [.connect Env.sample 4 ⟨(127, 0, 0, 1), 4711⟩ (ascii "abcdefg"),
      .read Env.sample 4 (ascii "/name " ++ List.replicate 600 (ch 'a') ++ ascii "\n"),
      .read Env.sample 4 (ascii "hello\n")]
    (fun r => r.1.any fun m => m.shown.inside && m.shown.formats.any fun f =>
      decide (f.size = MAX_LINE / 2) && !decide f.Fits) (by decide +kernel)
  simp only [List.any_eq_true, Bool.and_eq_true, decide_eq_true_eq, Bool.not_eq_true',
    decide_eq_false_iff_not] at htest
  exact ⟨past, s, hrun, htest⟩

end Chat
