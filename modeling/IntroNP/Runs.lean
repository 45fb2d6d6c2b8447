/-
# Machines and their runs

A server is a machine: from a state and an event it goes to at most one next state, and it
shows something to the outside while it does.  Whatever the environment may choose (which
client speaks next, which datagram the network delivers, whether a timer has fired) is part
of the event, so a statement about every run is a statement about every interleaving.

* `Machine`, `Run` : runs with their whole history, newest moment first;
* `Run.history_invariant`, `Run.invariant`, `Run.moments` : the induction rules for histories,
  for states and for what the steps show, for runs whose steps all meet a condition;
* `Run.simulation` : the runs of a machine that does the steps of another one;
* `CanReach`, `Run.canReach` : what a run can still come to;
* `Machine.replay` : the executable counterpart, which turns a list of events into a run.

Nothing here mentions a program of the repository.
-/
import Mathlib.Data.List.Basic
import Mathlib.Logic.Relation

variable {σ ι ω : Type*}

/-- A machine: its initial state, and what an event does in a state, if the event can happen
there. -/
structure Machine (σ ι ω : Type*) where
  /-- The state before the first event. -/
  init : σ
  /-- The state after an event and what the step shows outside. -/
  next : σ → ι → Option (σ × ω)

/-- One step of a run: the state it was taken in, the event, and what it showed. -/
structure Moment (σ ι ω : Type*) where
  /-- The state before the step. -/
  pre : σ
  /-- The event. -/
  event : ι
  /-- What the step showed outside. -/
  shown : ω

namespace Machine

/-- A machine whose steps show nothing. -/
def silent (init : σ) (next : σ → ι → Option σ) : Machine σ ι Unit where
  init := init
  next := fun s a => (next s a).map (·, ())

/-- The runs of a machine: their moments, newest first, and the state they end in. -/
inductive Run (M : Machine σ ι ω) : List (Moment σ ι ω) → σ → Prop
  | start : Run M [] M.init
  | next {past s a s' o} (hrun : Run M past s) (hnext : M.next s a = some (s', o)) :
      Run M (⟨s, a, o⟩ :: past) s'

/-- All the states of a run, newest first. -/
def states (past : List (Moment σ ι ω)) (s : σ) : List σ := s :: past.map Moment.pre

@[simp] theorem mem_states_self (past : List (Moment σ ι ω)) (s : σ) : s ∈ states past s :=
  List.mem_cons_self

/-- A longer run keeps the states of the shorter one. -/
theorem mem_states_next {past : List (Moment σ ι ω)} {s t s' : σ} {a : ι} {o : ω}
    (h : t ∈ states past s) : t ∈ states (⟨s, a, o⟩ :: past) s' := by
  rw [states, List.map_cons]
  exact List.mem_cons_of_mem _ h

variable {M : Machine σ ι ω} {past : List (Moment σ ι ω)} {s : σ}

/-- The induction rule for histories: what holds of the empty history and is kept by every
step that meets the condition holds of every run all of whose steps meet it. -/
theorem Run.history_invariant {C : σ → ι → Prop} {I : List (Moment σ ι ω) → σ → Prop}
    (hinit : I [] M.init)
    (hnext : ∀ past s a s' o, Run M past s → I past s → C s a → M.next s a = some (s', o) →
      I (⟨s, a, o⟩ :: past) s')
    (hrun : Run M past s) (hC : ∀ m ∈ past, C m.pre m.event) : I past s := by
  induction hrun with
  | start => exact hinit
  | next hrun h ih =>
      have hpast := fun m hm => hC m (List.mem_cons_of_mem _ hm)
      exact hnext _ _ _ _ _ hrun (ih hpast) (hC _ List.mem_cons_self) h

/-- The induction rule for states. -/
theorem Run.invariant {C : σ → ι → Prop} {I : σ → Prop} (hinit : I M.init)
    (hnext : ∀ s a s' o, I s → C s a → M.next s a = some (s', o) → I s')
    (hrun : Run M past s) (hC : ∀ m ∈ past, C m.pre m.event) : I s :=
  hrun.history_invariant (C := C) (I := fun _ s => I s) hinit
    (fun _ s a s' o _ hI hCa h => hnext s a s' o hI hCa h) hC

/-- The induction rule for states, with no condition on the steps. -/
theorem Run.always {I : σ → Prop} (hinit : I M.init)
    (hnext : ∀ s a s' o, I s → M.next s a = some (s', o) → I s')
    (hrun : Run M past s) : I s :=
  hrun.invariant (C := fun _ _ => True) hinit
    (fun s a s' o hI _ h => hnext s a s' o hI h) (fun _ _ => trivial)

/-- The induction rule for moments: if every step from a state of the invariant keeps the
invariant and has a property, all moments of a run have it. -/
theorem Run.moments {C : σ → ι → Prop} {I : σ → Prop} {P : Moment σ ι ω → Prop} (hinit : I M.init)
    (hnext : ∀ s a s' o, I s → C s a → M.next s a = some (s', o) → I s' ∧ P ⟨s, a, o⟩)
    (hrun : Run M past s) (hC : ∀ m ∈ past, C m.pre m.event) : ∀ m ∈ past, P m := by
  have hall : I s ∧ ∀ m ∈ past, P m := by
    refine hrun.history_invariant (C := C) (I := fun past s => I s ∧ ∀ m ∈ past, P m)
      ⟨hinit, List.forall_mem_nil _⟩ ?_ hC
    rintro past s a s' o - ⟨hI, hpast⟩ hCa h
    obtain ⟨hI', hP⟩ := hnext s a s' o hI hCa h
    exact ⟨hI', List.forall_mem_cons.mpr ⟨hP, hpast⟩⟩
  exact hall.2

/-- The rule of simulation: if every step of a machine is a step of another one, or leaves the state
of the other one as it is, then every run has a counterpart.  The relation says what the two
histories have in common. -/
theorem Run.simulation {τ κ ν : Type*} {N : Machine τ κ ν} (abs : σ → τ)
    {R : List (Moment σ ι ω) → List (Moment τ κ ν) → Prop} (hinit : abs M.init = N.init)
    (hnil : R [] [])
    (hstep : ∀ past past' s a s' o, M.Run past s → R past past' → M.next s a = some (s', o) →
      (abs s' = abs s ∧ R (⟨s, a, o⟩ :: past) past') ∨
        ∃ b t, N.next (abs s) b = some (abs s', t) ∧ R (⟨s, a, o⟩ :: past) (⟨abs s, b, t⟩ :: past'))
    (hrun : M.Run past s) : ∃ past', N.Run past' (abs s) ∧ R past past' := by
  induction hrun with
  | start =>
      rw [hinit]
      exact ⟨[], Run.start, hnil⟩
  | next hrun hnext ih =>
      obtain ⟨past', hrun', hR⟩ := ih
      rcases hstep _ past' _ _ _ _ hrun hR hnext with ⟨habs, hR'⟩ | ⟨b, t, hnext', hR'⟩
      · rw [habs]
        exact ⟨past', hrun', hR'⟩
      · exact ⟨_, hrun'.next hnext', hR'⟩

/-! ## Continuations -/

/-- A state that can still be reached from another one. -/
def CanReach (M : Machine σ ι ω) : σ → σ → Prop :=
  Relation.ReflTransGen fun s s' => ∃ a o, M.next s a = some (s', o)

/-- A run goes on to every such state. -/
theorem Run.canReach {s' : σ} (hrun : Run M past s) (h : M.CanReach s s') :
    ∃ past', Run M past' s' ∧ past <:+ past' := by
  induction h with
  | refl => exact ⟨past, hrun, List.suffix_refl past⟩
  | tail _ hstep ih =>
      obtain ⟨past', hrun', hsuffix⟩ := ih
      obtain ⟨a, o, hnext⟩ := hstep
      exact ⟨_, hrun'.next hnext, hsuffix.trans (List.suffix_cons _ _)⟩

/-! ## Replaying a list of events -/

/-- Replay events from a history. -/
def replay (M : Machine σ ι ω) :
    List (Moment σ ι ω) → σ → List ι → Option (List (Moment σ ι ω) × σ)
  | past, s, [] => some (past, s)
  | past, s, a :: as => (M.next s a).bind fun r => replay M (⟨s, a, r.2⟩ :: past) r.1 as

/-- Replaying events from a run gives a run. -/
theorem Run.replay {as : List ι} {past' : List (Moment σ ι ω)} {s' : σ} (hrun : Run M past s)
    (h : M.replay past s as = some (past', s')) : Run M past' s' := by
  induction as generalizing past s with
  | nil =>
      simp only [Machine.replay, Option.some.injEq, Prod.mk.injEq] at h
      obtain ⟨rfl, rfl⟩ := h
      exact hrun
  | cons a as ih =>
      simp only [Machine.replay, Option.bind_eq_some_iff] at h
      obtain ⟨⟨t, o⟩, hnext, hrest⟩ := h
      exact ih (hrun.next hnext) hrest

/-- A replay from the start whose result passes a test is a run that passes it. -/
theorem exists_run_of_replay (M : Machine σ ι ω) (as : List ι)
    (p : List (Moment σ ι ω) × σ → Bool) (h : (M.replay [] M.init as).map p = some true) :
    ∃ past s, Run M past s ∧ p (past, s) = true := by
  rw [Option.map_eq_some_iff] at h
  obtain ⟨⟨past, s⟩, hreplay, hp⟩ := h
  exact ⟨past, s, Run.start.replay hreplay, hp⟩

end Machine
