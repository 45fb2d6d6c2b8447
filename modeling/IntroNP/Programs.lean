/-
# Programs with state and exceptions

A C++ function that changes the objects it is given and may throw half way is a program of
`EStateM`: a throw keeps the changes made before it.  `Ends m s Q E` says how the program `m`
ends when started in `s`: it returns with `Q` or throws with `E`.  The rules below compute it
along the program, so that `simp` turns it into the plain condition on the first state.

* `Ends` and its rules `ends_pure`, `ends_bind`, `ends_throw`, `ends_get`, `ends_modify`,
  `ends_ite`;
* `Ends.mono`, `Ends.and` : the rules of consequence and of conjunction;
* `bind_eq` : the result of a sequence;
* `Maintains` and its rules : an invariant of the state that a program keeps, whether it returns or
  throws;
* `Except.map_eq_ok_iff`, `Except.map_eq_error_iff` : the results of a mapped computation;
* `foldlM_induction` : what every step of a fold that may fail preserves;
* `mem_of_mapM`, `mapM_isSome`, `mapM_eq_some` : where the results of a map that may fail come
  from, when it succeeds, and with what.

Nothing here mentions a program of the repository.
-/
import Mathlib.Logic.Basic

variable {ε σ α β : Type}

/-- How a program ends: returning in a state that satisfies `Q`, or throwing in one that
satisfies `E`. -/
def Ends (m : EStateM ε σ α) (s : σ) (Q : α → σ → Prop) (E : ε → σ → Prop) : Prop :=
  match m s with
  | .ok a s' => Q a s'
  | .error e s' => E e s'

section rules

variable {s : σ} {Q Q' : α → σ → Prop} {E E' : ε → σ → Prop}

@[simp] theorem ends_pure (a : α) : Ends (pure a : EStateM ε σ α) s Q E ↔ Q a s := Iff.rfl

@[simp] theorem ends_throw (e : ε) : Ends (throw e : EStateM ε σ α) s Q E ↔ E e s := Iff.rfl

@[simp] theorem ends_get {Q : σ → σ → Prop} :
    Ends (get : EStateM ε σ σ) s Q E ↔ Q s s := Iff.rfl

@[simp] theorem ends_modify (f : σ → σ) {Q : PUnit → σ → Prop} :
    Ends (modify f : EStateM ε σ PUnit) s Q E ↔ Q ⟨⟩ (f s) := Iff.rfl

@[simp] theorem ends_bind (m : EStateM ε σ β) (f : β → EStateM ε σ α) :
    Ends (m >>= f) s Q E ↔ Ends m s (fun b s' => Ends (f b) s' Q E) E := by
  show (match EStateM.bind m f s with | .ok a s' => Q a s' | .error e s' => E e s') ↔ _
  unfold Ends EStateM.bind
  cases m s <;> rfl

@[simp] theorem ends_modifyGet (f : σ → α × σ) :
    Ends (modifyGet f : EStateM ε σ α) s Q E ↔ Q (f s).1 (f s).2 := Iff.rfl

@[simp] theorem ends_ofExcept (x : Except ε α) :
    Ends (MonadExcept.ofExcept x : EStateM ε σ α) s Q E
      ↔ match x with | .ok a => Q a s | .error e => E e s := by
  cases x <;> rfl

/-- A loop that only changes the state. -/
@[simp] theorem ends_forM_modify (f : β → σ → σ) (bs : List β) {Q : PUnit → σ → Prop} :
    Ends (bs.forM fun b => (modify (f b) : EStateM ε σ PUnit)) s Q E
      ↔ Q ⟨⟩ (bs.foldl (fun s b => f b s) s) := by
  induction bs generalizing s with
  | nil => exact Iff.rfl
  | cons b bs ih =>
      show Ends (modify (f b) >>= fun _ => bs.forM fun b => modify (f b)) s Q E ↔ _
      rw [ends_bind, ends_modify, ih, List.foldl_cons]

/-- A handler goes on in the state in which the program has thrown. -/
@[simp] theorem ends_tryCatch (m : EStateM ε σ α) (h : ε → EStateM ε σ α) :
    Ends (tryCatch m h) s Q E ↔ Ends m s Q (fun e s' => Ends (h e) s' Q E) := by
  show (match EStateM.tryCatch m h s with | .ok a s' => Q a s' | .error e s' => E e s') ↔ _
  unfold Ends EStateM.tryCatch
  cases m s <;> rfl

@[simp] theorem ends_ite (c : Prop) [Decidable c] (m m' : EStateM ε σ α) :
    Ends (if c then m else m') s Q E ↔ (c → Ends m s Q E) ∧ (¬ c → Ends m' s Q E) := by
  by_cases hc : c <;> simp [hc]

/-- The rule of consequence. -/
theorem Ends.mono {m : EStateM ε σ α} (h : Ends m s Q E) (hQ : ∀ a s', Q a s' → Q' a s')
    (hE : ∀ e s', E e s' → E' e s') : Ends m s Q' E' := by
  unfold Ends at h ⊢
  cases hm : m s with
  | ok a s' => rw [hm] at h; exact hQ a s' h
  | error e s' => rw [hm] at h; exact hE e s' h

/-- Two statements about how a program ends. -/
theorem Ends.and {m : EStateM ε σ α} (h : Ends m s Q E) (h' : Ends m s Q' E') :
    Ends m s (fun a s' => Q a s' ∧ Q' a s') (fun e s' => E e s' ∧ E' e s') := by
  unfold Ends at h h' ⊢
  cases hm : m s with
  | ok a s' =>
      rw [hm] at h h'
      exact ⟨h, h'⟩
  | error e s' =>
      rw [hm] at h h'
      exact ⟨h, h'⟩

/-- A program that returns satisfies the first postcondition. -/
theorem Ends.of_ok {m : EStateM ε σ α} (h : Ends m s Q E) {a : α} {s' : σ}
    (hm : m s = .ok a s') : Q a s' := by
  rw [Ends, hm] at h
  exact h

/-- A program that throws satisfies the second one. -/
theorem Ends.of_error {m : EStateM ε σ α} (h : Ends m s Q E) {e : ε} {s' : σ}
    (hm : m s = .error e s') : E e s' := by
  rw [Ends, hm] at h
  exact h

/-- A statement about the result of a program, from its two postconditions. -/
theorem result_of_ends {m : EStateM ε σ α} (P : EStateM.Result ε σ α → Prop)
    (h : Ends m s (fun a s' => P (.ok a s')) (fun e s' => P (.error e s'))) : P (m s) := by
  unfold Ends at h
  cases hm : m s with
  | ok a s' => rw [hm] at h; exact h
  | error e s' => rw [hm] at h; exact h

/-- The exact result of a program, from its postcondition. -/
theorem eq_ok_of_ends {m : EStateM ε σ α} {a : α} {s' : σ}
    (h : Ends m s (fun b t => b = a ∧ t = s') (fun _ _ => False)) : m s = .ok a s' := by
  unfold Ends at h
  cases hm : m s with
  | ok b t => rw [hm] at h; rw [h.1, h.2]
  | error e t => rw [hm] at h; exact h.elim

/-- The result of a sequence. -/
theorem bind_eq (m : EStateM ε σ β) (f : β → EStateM ε σ α) (s : σ) :
    (m >>= f) s = match m s with
      | .ok b s' => f b s'
      | .error e s' => .error e s' := by
  show EStateM.bind m f s = _
  unfold EStateM.bind
  cases m s <;> rfl

end rules

/-! ## Invariants -/

/-- From a state that satisfies `I` the program ends in one, whether it returns something with `R`
or throws something with `E`. -/
def Maintains (I : σ → Prop) (E : ε → Prop) (m : EStateM ε σ α) (R : α → Prop) : Prop :=
  ∀ s, I s → Ends m s (fun a s' => I s' ∧ R a) (fun e s' => I s' ∧ E e)

section maintains

variable {I : σ → Prop} {E : ε → Prop} {R R' : α → Prop}

theorem maintains_pure {a : α} (h : R a) : Maintains I E (pure a) R := fun _ hs => ⟨hs, h⟩

theorem maintains_throw {e : ε} (h : E e) : Maintains I E (throw e) R := fun _ hs => ⟨hs, h⟩

theorem maintains_get : Maintains I E get I := fun _ hs => ⟨hs, hs⟩

theorem maintains_modify {f : σ → σ} (h : ∀ s, I s → I (f s)) :
    Maintains I E (modify f) fun _ => True := fun s hs => ⟨h s hs, trivial⟩

theorem Maintains.bind {m : EStateM ε σ β} {f : β → EStateM ε σ α} {Q : β → Prop}
    (hm : Maintains I E m Q) (hf : ∀ b, Q b → Maintains I E (f b) R) :
    Maintains I E (m >>= f) R := by
  intro s hs
  rw [ends_bind]
  refine (hm s hs).mono (fun b s' hb => ?_) (fun _ _ h => h)
  exact hf b hb.2 s' hb.1

theorem maintains_ite {c : Prop} [Decidable c] {m m' : EStateM ε σ α}
    (hm : c → Maintains I E m R) (hm' : ¬ c → Maintains I E m' R) :
    Maintains I E (if c then m else m') R := by
  by_cases hc : c
  · rw [if_pos hc]
    exact hm hc
  · rw [if_neg hc]
    exact hm' hc

/-- What the program returns may be said more weakly. -/
theorem Maintains.mono {m : EStateM ε σ α} (h : Maintains I E m R) (hR : ∀ a, R a → R' a) :
    Maintains I E m R' :=
  fun s hs => (h s hs).mono (fun _ _ ha => ⟨ha.1, hR _ ha.2⟩) (fun _ _ he => he)

end maintains

theorem Except.map_eq_ok_iff {f : α → β} {x : Except ε α} {b : β} :
    x.map f = .ok b ↔ ∃ a, x = .ok a ∧ f a = b := by
  cases x with
  | ok a => simp [Except.map]
  | error e => simp [Except.map]

theorem Except.map_eq_error_iff {f : α → β} {x : Except ε α} {e : ε} :
    x.map f = .error e ↔ x = .error e := by
  cases x with
  | ok a => simp [Except.map]
  | error e' => simp [Except.map]

/-- The rule of a fold that may fail: what each step preserves holds at the end. -/
theorem foldlM_induction {P : β → Prop} {f : β → α → Option β}
    (hstep : ∀ b a b', P b → f b a = some b' → P b') {as : List α} {b b' : β} (h : P b)
    (hfold : as.foldlM f b = some b') : P b' := by
  induction as generalizing b with
  | nil =>
      cases hfold
      exact h
  | cons a as ih =>
      rw [List.foldlM_cons] at hfold
      obtain ⟨c, hc, hfold⟩ := Option.bind_eq_some_iff.mp hfold
      exact ih (hstep b a c h hc) hfold

/-- What a map that may fail has collected. -/
theorem mem_of_mapM {f : α → Option β} {as : List α} {bs : List β} (h : as.mapM f = some bs)
    {b : β} (hb : b ∈ bs) : ∃ a ∈ as, f a = some b := by
  induction as generalizing bs with
  | nil =>
      cases h
      cases hb
  | cons a as ih =>
      rw [List.mapM_cons] at h
      obtain ⟨c, hc, h⟩ := Option.bind_eq_some_iff.mp h
      obtain ⟨cs, hcs, h⟩ := Option.bind_eq_some_iff.mp h
      cases h
      rcases List.mem_cons.mp hb with rfl | hb
      · exact ⟨a, List.mem_cons_self, hc⟩
      · obtain ⟨a', ha', hfa'⟩ := ih hcs hb
        exact ⟨a', List.mem_cons_of_mem _ ha', hfa'⟩

/-- A map that may fail succeeds when it succeeds everywhere. -/
theorem mapM_isSome {f : α → Option β} {as : List α} :
    (as.mapM f).isSome ↔ ∀ a ∈ as, (f a).isSome := by
  induction as with
  | nil => simp
  | cons a as ih =>
      rw [List.mapM_cons, List.forall_mem_cons, ← ih]
      cases f a with
      | none => simp
      | some b => cases as.mapM f <;> simp

/-- A map that succeeds everywhere. -/
theorem mapM_eq_some {f : α → Option β} {g : α → β} {as : List α}
    (h : ∀ a ∈ as, f a = some (g a)) : as.mapM f = some (as.map g) := by
  induction as with
  | nil => rfl
  | cons a as ih =>
      rw [List.mapM_cons, h a List.mem_cons_self, ih fun b hb => h b (List.mem_cons_of_mem a hb)]
      rfl
