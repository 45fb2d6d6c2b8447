/-
# What the measuring server of Lab 6 measures

Every read from a sink connection adds to one counter, `/report` reads it and `/reset` reads and
clears it, on any of the command connections.  No byte is lost between two of these answers and none
is told twice.

* `counted`, `Reply.taken`, `Reply.tells` : what an event adds, and what an answer takes away and
  says;
* `step_counted`, `commands_tell` : one step of the server;
* `measured_run` : in every run the answers account for all that has been read.
-/
import IntroNP.FastDelivery

namespace FastDelivery

open Machine

/-- What an event adds to the counter: the bytes read from a sink connection, and a header. -/
def counted (s : State) : Event → ℤ
  | .accept .. => 0
  | .readable connfd received =>
      if received ≠ [] ∧ (s.live.lookup connfd).map Conn.port = some .sink then
        headerSize + received.length
      else 0

/-- What an answer takes away from the counter. -/
def Reply.taken : Reply → ℤ
  | .reset n => n
  | _ => 0

/-- The number of bytes that an answer tells. -/
def Reply.tells : Reply → Option ℤ
  | .reset n => some n
  | .report n => some n
  | _ => none

/-- All that has been read from sink connections in a run. -/
def totalCounted (past : List (Moment State Event (List Reply))) : ℤ :=
  (past.map fun m => counted m.pre m.event).sum

/-- All that the answers of a run have taken away. -/
def totalTaken (past : List (Moment State Event (List Reply))) : ℤ :=
  (past.map fun m => (m.shown.map Reply.taken).sum).sum

section steps

variable {s s' : State} {e : Event} {replies : List Reply}

/-- A command takes away what it says it does. -/
theorem command_counted (s : State) (token : Bytes) :
    (s.command token).1.recvSize + ((s.command token).2.map Reply.taken).sum = s.recvSize := by
  unfold State.command
  split_ifs <;> simp [Reply.taken]

theorem command_tells (s : State) (token : Bytes) :
    ∀ r ∈ (s.command token).2, ∀ n, r.tells = some n → n = s.recvSize := by
  unfold State.command
  split_ifs <;> simp [Reply.tells]

theorem length_command (s : State) (token : Bytes) : (s.command token).2.length ≤ 1 := by
  unfold State.command
  split_ifs <;> simp

/-- So do the commands of one read. -/
theorem commands_counted (s : State) (tokens : List Bytes) :
    (s.commands tokens).1.recvSize + ((s.commands tokens).2.map Reply.taken).sum
      = s.recvSize := by
  induction tokens generalizing s with
  | nil => exact Int.add_zero _
  | cons token tokens ih =>
      have hfirst := command_counted s token
      have hrest := ih (s.command token).1
      rw [State.commands, List.map_append, List.sum_append]
      dsimp only
      omega

/-- An answer tells what is in the counter after the answers before it. -/
theorem commands_tell (s : State) (tokens : List Bytes) {l₁ l₂ : List Reply} {r : Reply} {n : ℤ}
    (hr : (s.commands tokens).2 = l₁ ++ r :: l₂) (hn : r.tells = some n) :
    n + (l₁.map Reply.taken).sum = s.recvSize := by
  induction tokens generalizing s l₁ with
  | nil =>
      rw [State.commands] at hr
      exact absurd hr.symm (by simp)
  | cons token tokens ih =>
      have hfirst := command_counted s token
      have htells := command_tells s token
      have hlength := length_command s token
      rw [State.commands] at hr
      dsimp only at hr
      -- a command has at most one answer
      rcases hreply : (s.command token).2 with _ | ⟨r₀, _ | ⟨r₁, l⟩⟩
      · rw [hreply] at hr hfirst
        rw [List.nil_append] at hr
        have hrest := ih (s.command token).1 hr
        rw [List.map_nil, List.sum_nil, Int.add_zero] at hfirst
        rw [hrest, hfirst]
      · rw [hreply] at hr hfirst htells
        rw [List.map_singleton, List.sum_singleton] at hfirst
        cases l₁ with
        | nil =>
            obtain ⟨rfl, -⟩ := List.cons.inj hr
            rw [htells _ (List.mem_singleton_self _) n hn]
            exact Int.add_zero _
        | cons r₂ l₁ =>
            obtain ⟨rfl, hrest⟩ := List.cons.inj hr
            have hrest := ih (s.command token).1 hrest
            rw [List.map_cons, List.sum_cons]
            omega
      · rw [hreply] at hlength
        simp at hlength

/-- What a step does with the counter. -/
inductive Metered (s : State) : Event → State → List Reply → Prop
  | accepted {listenfd connfd mssSize s'} (hsize : s'.recvSize = s.recvSize) :
      Metered s (.accept listenfd connfd mssSize) s' []
  | closed {connfd s'} (hsize : s'.recvSize = s.recvSize) : Metered s (.readable connfd []) s' []
  | commands {connfd received} (hport : s.mapping.lookup connfd = some .server) :
      Metered s (.readable connfd received)
        (s.commands (tokens (· = ch '\n') (cstr received))).1
        (s.commands (tokens (· = ch '\n') (cstr received))).2
  | data {connfd received s'} (hport : s.mapping.lookup connfd = some .sink) (hdata : received ≠ [])
      (hsize : s'.recvSize = s.recvSize + (headerSize + received.length)) :
      Metered s (.readable connfd received) s' []

theorem metered_of_next (hs : next s e = some (s', replies)) : Metered s e s' replies := by
  cases e with
  | accept listenfd connfd mssSize =>
      rw [next] at hs
      split_ifs at hs
      cases hs
      exact .accepted rfl
  | readable connfd received =>
      rw [next] at hs
      by_cases hlive : s.exited = true ∨ connfd ∉ s.live
      · rw [if_pos hlive] at hs
        cases hs
      rw [if_neg hlive] at hs
      cases hmapping : s.mapping.lookup connfd with
      | none =>
          rw [hmapping] at hs
          cases hs
      | some listenfd =>
          rw [hmapping] at hs
          dsimp only at hs
          split_ifs at hs with hend hserver
          · subst hend
            rw [State.handleDelClient, hmapping] at hs
            cases hs
            exact .closed rfl
          · rw [State.handleServer] at hs
            split_ifs at hs
            rw [Option.some.injEq, Prod.mk.injEq] at hs
            obtain ⟨rfl, rfl⟩ := hs
            exact .commands (hserver ▸ hmapping)
          · obtain ⟨s₁, hsunk, heq⟩ := Option.map_eq_some_iff.mp hs
            cases heq
            rw [State.handleSink] at hsunk
            split_ifs at hsunk
            cases hsunk
            cases listenfd with
            | server => exact absurd rfl hserver
            | sink => exact .data hmapping hend rfl

/-- A step adds what it reads from a sink connection, and takes away what its answers say. -/
theorem step_counted (h : Mapped s) (hs : next s e = some (s', replies)) :
    s'.recvSize + (replies.map Reply.taken).sum = s.recvSize + counted s e := by
  cases metered_of_next hs with
  | accepted hsize =>
      rw [hsize]
      rfl
  | closed hsize =>
      rw [hsize, counted, if_neg fun hdata => hdata.1 rfl]
      rfl
  | @commands connfd received hport =>
      rw [h.mapping] at hport
      rw [commands_counted, counted, if_neg, Int.add_zero]
      rintro ⟨-, hsink⟩
      rw [hport] at hsink
      cases hsink
  | data hport hdata hsize =>
      rw [h.mapping] at hport
      rw [hsize, counted, if_pos ⟨hdata, hport⟩]
      exact Int.add_zero _

/-- The answers of a step tell what is in the counter, after the answers before them. -/
theorem step_tells (hs : next s e = some (s', replies)) {l₁ l₂ : List Reply} {r : Reply} {n : ℤ}
    (hr : replies = l₁ ++ r :: l₂) (hn : r.tells = some n) :
    n + (l₁.map Reply.taken).sum = s.recvSize := by
  have hne : replies ≠ [] := by simp [hr]
  cases metered_of_next hs with
  | accepted => exact absurd rfl hne
  | closed => exact absurd rfl hne
  | commands => exact commands_tell s _ hr hn
  | data => exact absurd rfl hne

end steps

/-! ## Runs -/

/-- In every run, all that has been read from sink connections, with a header for each read, is what
the answers to `/reset` have told and what is in the counter; and the next answer to `/reset` or
`/report`, on whatever connection, tells exactly what the resets answered before it have left. -/
theorem measured_run {past : List (Moment State Event (List Reply))} {s : State}
    (hrun : Run system past s) :
    totalCounted past = totalTaken past + s.recvSize ∧
    ∀ e s' replies, next s e = some (s', replies) → ∀ l₁ r l₂ n, replies = l₁ ++ r :: l₂ →
      r.tells = some n → totalCounted past = totalTaken past + (l₁.map Reply.taken).sum + n := by
  have htotal : totalCounted past = totalTaken past + s.recvSize := by
    induction hrun with
    | start => rfl
    | @next past s e s' replies hrun hs ih =>
        have hstep := step_counted (mapped_run hrun) hs
        rw [totalCounted, totalTaken, List.map_cons, List.map_cons, List.sum_cons, List.sum_cons,
          ← totalCounted, ← totalTaken]
        dsimp only
        omega
  refine ⟨htotal, fun e s' replies hs l₁ r l₂ n hr hn => ?_⟩
  have htells := step_tells hs hr hn
  omega

/-- A command connection reports and resets while a sink connection is being read from. -/
theorem measured_run_reset : ∃ past s, Run system past s ∧ s.recvSize = 67 ∧
    totalTaken past = 69 ∧ totalCounted past = 69 + s.recvSize := by
  obtain ⟨past, s, hrun, htest⟩ := exists_run_of_replay system
    [.accept .server 5 1448, .accept .sink 7 1448, .readable 7 [1, 2, 3],
      .readable 5 (ascii "/report\n/reset\n/report\n"), .readable 7 [4]]
    (fun r => r.2.recvSize = 67 && totalTaken r.1 = 69) (by decide +kernel)
  rw [Bool.and_eq_true, decide_eq_true_eq, decide_eq_true_eq] at htest
  obtain ⟨hsize, htaken⟩ := htest
  refine ⟨past, s, hrun, hsize, htaken, ?_⟩
  rw [(measured_run hrun).1, htaken]

end FastDelivery
