/-
# Guessing secrets

A desk where secrets are guessed.  An oracle that is talked to takes a new secret; it may be guessed
twice, and after two wrong guesses the oracle tells it.  The secrets are kept in slots, and the
question is which oracles share one.

* `Desk`, `next`, `desk` : the desk as a machine, for any assignment of slots;
* `spoken`, `lastSecret` : the last secret that was put into a slot;
* `text_next`, `stage_next` : what a step does to the slots and to the stages;
* `lastSecret_eq_text` : in every run the secret of an oracle is the last one of its slot.

Nothing here mentions a program of the repository.
-/
import IntroNP.Runs
import Mathlib.Logic.Function.Basic

namespace Guessing

open Machine

variable {ι κ α : Type*} [DecidableEq ι] [DecidableEq κ] [DecidableEq α] [Inhabited α]

/-- The stages of the oracles (0 : no secret, 1 and 2 : a guess, 3 : the secret is told), and the
contents of the slots. -/
@[ext] structure Desk (ι κ α : Type*) where
  /-- The stage of each oracle. -/
  stage : ι → ℕ
  /-- What the slots hold. -/
  text : κ → α

/-- What can be done at the desk. -/
inductive Event (ι α : Type*)
  | talk (i : ι) (secret : α)
  | guess (i : ι) (guess : α)
  | ask (i : ι)

/-- What is answered. -/
inductive Answer (α : Type*)
  | heard
  | right
  | wrong
  | told (secret : α)

/-- One step at the desk. -/
def next (slot : ι → κ) (d : Desk ι κ α) : Event ι α → Option (Desk ι κ α × Answer α)
  | .talk i secret =>
      if d.stage i = 0 then
        some (⟨Function.update d.stage i 1, Function.update d.text (slot i) secret⟩, .heard)
      else none
  | .guess i guess =>
      if d.stage i = 1 ∨ d.stage i = 2 then
        if guess = d.text (slot i) then
          some ({ d with stage := Function.update d.stage i 0 }, .right)
        else some ({ d with stage := Function.update d.stage i (d.stage i + 1) }, .wrong)
      else none
  | .ask i =>
      if d.stage i = 3 then
        some ({ d with stage := Function.update d.stage i 0 }, .told (d.text (slot i)))
      else none

/-- The desk, before anyone has talked to an oracle. -/
def desk (slot : ι → κ) : Machine (Desk ι κ α) (Event ι α) (Answer α) :=
  ⟨⟨fun _ => 0, fun _ => default⟩, next slot⟩

/-- The secret that an event puts into a slot. -/
def spoken (slot : ι → κ) (k : κ) : Event ι α → Option α
  | .talk i secret => if slot i = k then some secret else none
  | _ => none

/-- The last secret that was put into a slot. -/
def lastSecret (slot : ι → κ) (k : κ) (past : List (Event ι α × Answer α)) : Option α :=
  past.findSome? fun m => spoken slot k m.1

/-- The events and answers of a history. -/
def record (past : List (Moment (Desk ι κ α) (Event ι α) (Answer α))) :
    List (Event ι α × Answer α) := past.map fun m => (m.event, m.shown)

section runs

variable {slot : ι → κ} {d d' : Desk ι κ α} {a : Event ι α} {o : Answer α}
  {past : List (Moment (Desk ι κ α) (Event ι α) (Answer α))}

omit [Inhabited α] in
/-- What a step does to the slots. -/
theorem text_next (h : next slot d a = some (d', o)) (k : κ) :
    d'.text k = (spoken slot k a).getD (d.text k) := by
  cases a with
  | talk i secret =>
      simp only [next] at h
      split_ifs at h
      cases h
      by_cases hk : slot i = k
      · subst hk
        simp [spoken]
      · rw [spoken, if_neg hk, Option.getD_none]
        exact Function.update_of_ne (Ne.symm hk) _ _
  | guess i guess =>
      simp only [next] at h
      split_ifs at h <;> cases h <;> rfl
  | ask i =>
      simp only [next] at h
      split_ifs at h
      cases h
      rfl

omit [Inhabited α] in
/-- An oracle leaves its first stage only with a secret. -/
theorem stage_next (h : next slot d a = some (d', o)) {i : ι} (hi : d'.stage i ≠ 0) :
    d.stage i ≠ 0 ∨ ∃ secret, spoken slot (slot i) a = some secret := by
  by_cases hstage : d.stage i = 0
  · right
    cases a with
    | talk j secret =>
        simp only [next] at h
        split_ifs at h
        cases h
        by_cases hij : i = j
        · subst hij
          exact ⟨secret, if_pos rfl⟩
        · exact absurd ((Function.update_of_ne hij _ _).trans hstage) hi
    | guess j guess =>
        simp only [next] at h
        by_cases hij : i = j
        · subst hij
          rw [if_neg (by rw [hstage]; decide)] at h
          cases h
        · split_ifs at h <;> cases h <;>
            exact absurd ((Function.update_of_ne hij _ _).trans hstage) hi
    | ask j =>
        simp only [next] at h
        split_ifs at h with hj
        cases h
        by_cases hij : i = j
        · exact absurd (hij ▸ Function.update_self ..) hi
        · exact absurd ((Function.update_of_ne hij _ _).trans hstage) hi
  · exact Or.inl hstage

omit [DecidableEq ι] [DecidableEq α] [Inhabited α] in
theorem lastSecret_cons (k : κ) (m : Event ι α × Answer α) (past : List (Event ι α × Answer α)) :
    lastSecret slot k (m :: past) = (spoken slot k m.1).or (lastSecret slot k past) := by
  rw [lastSecret, List.findSome?_cons]
  cases spoken slot k m.1 <;> rfl

/-- In every run a slot holds the last secret that was put into it. -/
theorem text_eq_lastSecret (hrun : (desk slot).Run past d) (k : κ) :
    d.text k = (lastSecret slot k (record past)).getD default := by
  induction hrun with
  | start => rfl
  | next hrun hnext ih =>
      rw [text_next hnext k, record, List.map_cons, lastSecret_cons, ih]
      cases spoken slot k _ <;> rfl

/-- In every run an oracle past its first stage has a secret. -/
theorem exists_lastSecret (hrun : (desk slot).Run past d) {i : ι} (hi : d.stage i ≠ 0) :
    ∃ secret, lastSecret slot (slot i) (record past) = some secret := by
  induction hrun with
  | start => exact absurd rfl hi
  | next hrun hnext ih =>
      rw [record, List.map_cons, lastSecret_cons]
      rcases stage_next hnext hi with hstage | ⟨secret, hsecret⟩
      · obtain ⟨secret, hsecret⟩ := ih hstage
        cases hspoken : spoken slot (slot i) _ with
        | none => exact ⟨secret, hsecret⟩
        | some t => exact ⟨t, rfl⟩
      · exact ⟨secret, by rw [hsecret]; rfl⟩

/-- The secret of an oracle is the last one that was put into its slot, whoever was talked to. -/
theorem lastSecret_eq_text (hrun : (desk slot).Run past d) {i : ι} (hi : d.stage i ≠ 0) :
    lastSecret slot (slot i) (record past) = some (d.text (slot i)) := by
  obtain ⟨secret, hsecret⟩ := exists_lastSecret hrun hi
  rw [text_eq_lastSecret hrun, hsecret, Option.getD_some]

end runs

end Guessing
