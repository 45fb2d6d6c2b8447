/-
# A queue with workers that sleep

A queue of jobs under a lock, and workers that take the jobs.  A worker that finds the queue empty
gives up the lock and sleeps; who has added a job wakes up one of those who sleep, after it has
given up the lock.  A worker may also wake up for no reason.

* `Pool`, `Action`, `next` : the queue, the workers and the notifications that have not been sent;
* `fifo` : the jobs are taken once each, in the order in which they were added;
* `Served`, `served` : while a worker sleeps, there are at least as many workers on their way to the
  queue, or notifications to be sent, as there are jobs;
* `available` : no job is left alone.

Nothing here mentions a program of the repository.
-/
import IntroNP.Runs
import Mathlib.Data.List.Basic

namespace WorkQueue

variable {α : Type*}

/-- What a worker does. -/
inductive Phase (α : Type*)
  /-- It is on its way to the queue. -/
  | idle
  /-- It sleeps. -/
  | waiting
  /-- It works on a job. -/
  | busy (a : α)

/-- The queue and the workers. -/
structure Pool (α : Type*) where
  /-- The jobs, the oldest one first. -/
  queue : List α
  /-- The notifications that are still to be sent. -/
  signals : ℕ
  /-- The workers. -/
  workers : List (Phase α)

/-- The steps. -/
inductive Action (α : Type*)
  /-- A job is added. -/
  | add (a : α)
  /-- A notification wakes up a worker, or nobody. -/
  | notify (w : Option ℕ)
  /-- A worker looks for a job. -/
  | take (w : ℕ)
  /-- A worker wakes up without a notification. -/
  | wake (w : ℕ)
  /-- A worker has done its job. -/
  | finish (w : ℕ)

def Phase.isWaiting : Phase α → Bool
  | .waiting => true
  | _ => false

def Phase.isIdle : Phase α → Bool
  | .idle => true
  | _ => false

/-- The job that is added. -/
def Action.job : Action α → Option α
  | .add a => some a
  | _ => none

/-- A step, with the job that is taken and who takes it. -/
def next (s : Pool α) : Action α → Option (Pool α × Option (ℕ × α))
  | .add a => some ({ s with queue := s.queue ++ [a], signals := s.signals + 1 }, none)
  | .notify none =>
      if 0 < s.signals ∧ s.workers.countP Phase.isWaiting = 0 then
        some ({ s with signals := s.signals - 1 }, none)
      else none
  | .notify (some w) =>
      match s.workers[w]? with
      | some .waiting =>
          if 0 < s.signals then
            some ({ s with signals := s.signals - 1, workers := s.workers.set w .idle }, none)
          else none
      | _ => none
  | .take w =>
      match s.workers[w]?, s.queue with
      | some .idle, [] => some ({ s with workers := s.workers.set w .waiting }, none)
      | some .idle, a :: queue =>
          some ({ s with queue := queue, workers := s.workers.set w (.busy a) }, some (w, a))
      | _, _ => none
  | .wake w =>
      match s.workers[w]? with
      | some .waiting => some ({ s with workers := s.workers.set w .idle }, none)
      | _ => none
  | .finish w =>
      match s.workers[w]? with
      | some (.busy _) => some ({ s with workers := s.workers.set w .idle }, none)
      | _ => none

/-- The machine, with a number of workers. -/
def machine (n : ℕ) : Machine (Pool α) (Action α) (Option (ℕ × α)) where
  init := ⟨[], 0, List.replicate n .idle⟩
  next := next

/-- The jobs that have been added, in order. -/
def added (past : List (Moment (Pool α) (Action α) (Option (ℕ × α)))) : List α :=
  past.reverse.filterMap fun m => m.event.job

/-- The jobs that have been taken, in order. -/
def taken (past : List (Moment (Pool α) (Action α) (Option (ℕ × α)))) : List α :=
  past.reverse.filterMap fun m => m.shown.map Prod.snd

/-! ## What a step does -/

/-- The steps, as a relation. -/
inductive Step (s : Pool α) : Action α → Pool α → Option (ℕ × α) → Prop
  | add (a : α) : Step s (.add a)
      { s with queue := s.queue ++ [a], signals := s.signals + 1 } none
  | signal (hsignals : 0 < s.signals) (hnone : s.workers.countP Phase.isWaiting = 0) :
      Step s (.notify none) { s with signals := s.signals - 1 } none
  | notify {w : ℕ} (hsignals : 0 < s.signals) (hw : s.workers[w]? = some .waiting) :
      Step s (.notify (some w))
        { s with signals := s.signals - 1, workers := s.workers.set w .idle } none
  | sleep {w : ℕ} (hw : s.workers[w]? = some .idle) (hqueue : s.queue = []) :
      Step s (.take w) { s with workers := s.workers.set w .waiting } none
  | take {w : ℕ} {a : α} {queue : List α} (hw : s.workers[w]? = some .idle)
      (hqueue : s.queue = a :: queue) :
      Step s (.take w) { s with queue := queue, workers := s.workers.set w (.busy a) } (some (w, a))
  | wake {w : ℕ} (hw : s.workers[w]? = some .waiting) :
      Step s (.wake w) { s with workers := s.workers.set w .idle } none
  | finish {w : ℕ} {a : α} (hw : s.workers[w]? = some (.busy a)) :
      Step s (.finish w) { s with workers := s.workers.set w .idle } none

theorem step_of_next {s s' : Pool α} {e : Action α} {o : Option (ℕ × α)}
    (h : next s e = some (s', o)) : Step s e s' o := by
  cases e with
  | add a =>
      cases h
      exact Step.add a
  | notify w =>
      cases w with
      | none =>
          rw [next] at h
          split_ifs at h with hc
          cases h
          exact Step.signal hc.1 hc.2
      | some w =>
          rw [next] at h
          split at h
          · rename_i hw
            split_ifs at h with hsignals
            cases h
            exact Step.notify hsignals hw
          · cases h
  | take w =>
      rw [next] at h
      split at h
      · rename_i hw hqueue
        cases h
        exact Step.sleep hw hqueue
      · rename_i hw hqueue
        cases h
        exact Step.take hw hqueue
      · cases h
  | wake w =>
      rw [next] at h
      split at h
      · rename_i hw
        cases h
        exact Step.wake hw
      · cases h
  | finish w =>
      rw [next] at h
      split at h
      · rename_i hw
        cases h
        exact Step.finish hw
      · cases h

/-- Only an addition lengthens the queue, and only taking shortens it. -/
theorem Step.queue {s s' : Pool α} {e : Action α} {o : Option (ℕ × α)} (h : Step s e s' o) :
    s.queue ++ e.job.toList = (o.map Prod.snd).toList ++ s'.queue := by
  cases h with
  | add a => rfl
  | take hw hqueue =>
      rw [hqueue]
      exact List.append_nil _
  | signal => exact List.append_nil _
  | notify => exact List.append_nil _
  | sleep => exact List.append_nil _
  | wake => exact List.append_nil _
  | finish => exact List.append_nil _

theorem added_cons (s : Pool α) (e : Action α) (o : Option (ℕ × α))
    (past : List (Moment (Pool α) (Action α) (Option (ℕ × α)))) :
    added (⟨s, e, o⟩ :: past) = added past ++ e.job.toList := by
  rw [added, List.reverse_cons, List.filterMap_append]
  cases e <;> rfl

theorem taken_cons (s : Pool α) (e : Action α) (o : Option (ℕ × α))
    (past : List (Moment (Pool α) (Action α) (Option (ℕ × α)))) :
    taken (⟨s, e, o⟩ :: past) = taken past ++ (o.map Prod.snd).toList := by
  rw [taken, List.reverse_cons, List.filterMap_append]
  cases o <;> rfl

/-- The jobs are taken once each, in order. -/
theorem fifo {n : ℕ} {past : List (Moment (Pool α) (Action α) (Option (ℕ × α)))} {s : Pool α}
    (hrun : (machine n).Run past s) : added past = taken past ++ s.queue := by
  induction hrun with
  | start => rfl
  | next hrun hnext ih =>
      rw [added_cons, taken_cons, ih, List.append_assoc, (step_of_next hnext).queue, List.append_assoc]

/-- A worker is busy with a job that has been taken. -/
theorem busy_taken {n : ℕ} {past : List (Moment (Pool α) (Action α) (Option (ℕ × α)))}
    {s : Pool α} (hrun : (machine n).Run past s) :
    ∀ a, Phase.busy a ∈ s.workers → a ∈ taken past := by
  induction hrun with
  | start =>
      intro a ha
      cases List.eq_of_mem_replicate ha
  | next hrun hnext ih =>
      intro b hb
      rw [taken_cons, List.mem_append]
      -- the other workers are busy with the same jobs as before
      have hset : ∀ {l : List (Phase α)} {w : ℕ} {p : Phase α}, Phase.busy b ∈ l.set w p →
          p ≠ Phase.busy b → Phase.busy b ∈ l := by
        intro l w p hmem hp
        exact (List.mem_or_eq_of_mem_set hmem).resolve_right fun h => hp h.symm
      cases step_of_next hnext with
      | add a => exact Or.inl (ih b hb)
      | signal => exact Or.inl (ih b hb)
      | notify => exact Or.inl (ih b (hset hb (by intro h; cases h)))
      | sleep => exact Or.inl (ih b (hset hb (by intro h; cases h)))
      | wake => exact Or.inl (ih b (hset hb (by intro h; cases h)))
      | finish => exact Or.inl (ih b (hset hb (by intro h; cases h)))
      | take hw hqueue =>
          rename_i w a queue
          by_cases hab : a = b
          · right
            rw [hab]
            exact List.mem_singleton_self b
          · exact Or.inl (ih b (hset hb (by rintro ⟨⟩; exact hab rfl)))

/-! ## Nobody sleeps on a job -/

/-- One element in place of another. -/
theorem countP_set_add {β : Type*} {l : List β} {i : ℕ} {x : β} (h : l[i]? = some x)
    (p : β → Bool) (y : β) :
    (l.set i y).countP p + (if p x then 1 else 0) = l.countP p + (if p y then 1 else 0) := by
  obtain ⟨hi, hx⟩ := List.getElem?_eq_some_iff.mp h
  have hmem : p x = true → 0 < l.countP p := by
    intro hp
    rw [List.countP_pos_iff]
    exact ⟨x, List.mem_of_getElem? h, hp⟩
  rw [List.countP_set hi, hx]
  by_cases hp : p x = true
  · have hpos := hmem hp
    rw [if_pos hp]
    omega
  · rw [if_neg hp]
    omega

/-- While a worker sleeps, every job has a worker on its way to it, or a notification. -/
def Served (s : Pool α) : Prop :=
  0 < s.workers.countP Phase.isWaiting →
    s.queue.length ≤ s.workers.countP Phase.isIdle + s.signals

theorem Step.served {s s' : Pool α} {e : Action α} {o : Option (ℕ × α)} (h : Step s e s' o)
    (hs : Served s) : Served s' := by
  cases h with
  | add a =>
      intro hwaiting
      have hle := hs hwaiting
      show (s.queue ++ [a]).length ≤ s.workers.countP Phase.isIdle + (s.signals + 1)
      rw [List.length_append, List.length_singleton]
      omega
  | signal hsignals hnone =>
      intro hwaiting
      rw [hnone] at hwaiting
      cases hwaiting
  | notify hsignals hw =>
      -- the notification becomes the worker that it wakes up
      intro _
      have hidle : _ + 0 = _ + 1 := countP_set_add hw Phase.isIdle .idle
      have hle := hs (List.countP_pos_iff.mpr ⟨_, List.mem_of_getElem? hw, rfl⟩)
      show s.queue.length ≤ (s.workers.set _ .idle).countP Phase.isIdle + (s.signals - 1)
      omega
  | sleep hw hqueue =>
      intro _
      show s.queue.length ≤ _
      rw [hqueue]
      exact Nat.zero_le _
  | take hw hqueue =>
      -- the worker is gone, and so is the job
      intro hwaiting
      rename_i w a queue
      have hidle : _ + 1 = _ + 0 := countP_set_add hw Phase.isIdle (.busy a)
      have hsleep : _ + 0 = _ + 0 := countP_set_add hw Phase.isWaiting (.busy a)
      have hwaiting : 0 < (s.workers.set w (.busy a)).countP Phase.isWaiting := hwaiting
      have hle := hs (by omega)
      rw [hqueue, List.length_cons] at hle
      show queue.length ≤ (s.workers.set w (.busy a)).countP Phase.isIdle + s.signals
      omega
  | wake hw =>
      intro _
      have hidle : _ + 0 = _ + 1 := countP_set_add hw Phase.isIdle .idle
      have hle := hs (List.countP_pos_iff.mpr ⟨_, List.mem_of_getElem? hw, rfl⟩)
      show s.queue.length ≤ (s.workers.set _ .idle).countP Phase.isIdle + s.signals
      omega
  | finish hw =>
      intro hwaiting
      rename_i w a
      have hidle : _ + 0 = _ + 1 := countP_set_add hw Phase.isIdle .idle
      have hsleep : _ + 0 = _ + 0 := countP_set_add hw Phase.isWaiting .idle
      have hwaiting : 0 < (s.workers.set w .idle).countP Phase.isWaiting := hwaiting
      have hle := hs (by omega)
      show s.queue.length ≤ (s.workers.set w .idle).countP Phase.isIdle + s.signals
      omega

variable {n : ℕ} {past : List (Moment (Pool α) (Action α) (Option (ℕ × α)))} {s : Pool α}

theorem served (hrun : (machine n).Run past s) : Served s := by
  apply hrun.always (I := Served)
  · intro hwaiting
    exact Nat.zero_le _
  · intro s e s' o hs h
    exact (step_of_next h).served hs

theorem exists_idle {workers : List (Phase α)} (h : 0 < workers.countP Phase.isIdle) :
    ∃ w : ℕ, workers[w]? = some Phase.idle := by
  obtain ⟨p, hp, hidle⟩ := List.countP_pos_iff.mp h
  obtain ⟨w, hw⟩ := List.getElem?_of_mem hp
  refine ⟨w, ?_⟩
  rw [hw]
  cases p with
  | idle => rfl
  | waiting => cases hidle
  | busy a => cases hidle

/-- A job that waits has a worker on its way to the queue, unless all the workers are busy or a
notification is still to be sent. -/
theorem available (hrun : (machine n).Run past s) (hqueue : s.queue ≠ [])
    (hsignals : s.signals = 0) :
    (∃ w : ℕ, s.workers[w]? = some Phase.idle) ∨ ∀ p ∈ s.workers, ∃ a, p = Phase.busy a := by
  by_cases hidle : 0 < s.workers.countP Phase.isIdle
  · left
    exact exists_idle hidle
  · right
    have hpos := List.length_pos_iff.mpr hqueue
    -- nobody sleeps either
    have hwaiting : ¬ 0 < s.workers.countP Phase.isWaiting := by
      intro hwaiting
      have hle := served hrun hwaiting
      omega
    intro p hp
    cases p with
    | busy a => exact ⟨a, rfl⟩
    | idle => exact absurd (List.countP_pos_iff.mpr ⟨_, hp, rfl⟩) hidle
    | waiting => exact absurd (List.countP_pos_iff.mpr ⟨_, hp, rfl⟩) hwaiting

end WorkQueue
