/-
# The secrets of the oracles

Every run of the program is a run of the desk of `Guessing`.  In the patched version each oracle has
a slot of its own; in the first one both point to the buffer of `gen_secret`, so that they share a
slot, and what one of them tells is the secret of the other.

* `Inv`, `State.desk`, `slot` : the invariant, and the program as a desk;
* `desk_step`, `desk_run` : its steps and runs; a line that can be answered is;
* `good_job_iff` : a guess wins if it is the last secret of the slot;
* `shown_secret_wins` : in the first version a secret that has been told wins at both oracles.

* source : `Lab/7/Play with the Oracles/oracle.c`, `Lab/7/Play with the Oracles p1/oraclep1.c`
-/
import IntroNP.Guessing
import IntroNP.Oracles

namespace Oracles

open Block Machine ProofOfWork

variable {γ : Type}

/-! ## The desk -/

/-- What holds in every run: the buffer has a string, an oracle past its first stage has a secret,
and only the first version points to the buffer. -/
structure Inv (P : Process γ) (s : State γ) : Prop where
  room : s.buf.length = 64
  ended : 0 ∈ s.buf
  held : ∀ i, (s.oracle i).stage ≠ 0 → (s.oracle i).secret ≠ none
  kept : ∀ i secret, (s.oracle i).secret = some secret → (secret = .buf ↔ P.patched = false)

/-- The slot of an oracle: its own, or the buffer that both share. -/
def slot (patched : Bool) (i : Fin 2) : Option (Fin 2) := if patched then some i else none

/-- The text of a copy. -/
def Secret.copied : Secret → Bytes
  | .buf => []
  | .copy text => text

/-- The oracles as a desk. -/
def State.desk (P : Process γ) (s : State γ) : Guessing.Desk (Fin 2) (Option (Fin 2)) Bytes where
  stage := fun i => (s.oracle i).stage
  text := fun k => k.elim (if P.patched then [] else cstr s.buf) fun i =>
    if P.patched then ((s.oracle i).secret.map Secret.copied).getD [] else []

/-- What a moment is at the desk. -/
def seen (P : Process γ) (m : Moment (State γ) Event Reply) :
    Option (Guessing.Event (Fin 2) Bytes × Guessing.Answer Bytes) :=
  m.event.choice.bind fun i =>
    match m.shown with
    | .thanks => m.event.key.map fun userkey =>
        (.talk i (P.R.secret (m.pre.drawn P userkey)), .heard)
    | .goodJob => m.event.guess.map fun guess => (.guess i guess, .right)
    | .no => m.event.guess.map fun guess => (.guess i guess, .wrong)
    | .secret text _ => some (.ask i, .told text)
    | .invalid => none
    | .input _ => none

section desk

variable {P : Process γ} {s s' : State γ} {e : Event} {o : Reply} {i : Fin 2}

theorem stringAt_of_mem {buf : Bytes} (h : 0 ∈ buf) : stringAt 0 buf 0 = some (cstr buf) := by
  have hprefix : cstr buf <+: buf := List.takeWhile_prefix _
  have hne : (cstr buf).length ≠ buf.length := by
    intro hlen
    rw [← hprefix.eq_of_length hlen] at h
    simpa using List.mem_takeWhile_imp h
  have hle := hprefix.length_le
  rw [stringAt]
  exact if_pos (by rw [Nat.zero_add]; exact Nat.lt_of_le_of_ne hle hne)

/-- The secret of an oracle is what its slot holds. -/
theorem secretText_eq (hinv : Inv P s) (hi : (s.oracle i).stage ≠ 0) :
    s.secretText i = some ((s.desk P).text (slot P.patched i)) := by
  obtain ⟨secret, hsecret⟩ := Option.ne_none_iff_exists'.mp (hinv.held i hi)
  have hkept := hinv.kept i secret hsecret
  rw [State.secretText, hsecret, Option.bind_some]
  cases hpatched : P.patched with
  | false =>
      obtain rfl := hkept.mpr hpatched
      simp [State.desk, slot, hpatched, stringAt_of_mem hinv.ended]
  | true =>
      cases secret with
      | buf => exact absurd (hkept.mp rfl) (by rw [hpatched]; decide)
      | copy text => simp [State.desk, slot, hpatched, hsecret, Secret.copied]

theorem inv_start : Inv P (start P) where
  room := rfl
  ended := by simp [start]
  held := fun i hi => absurd rfl hi
  kept := by
    rintro i secret ⟨⟩

/-- Another stage keeps the invariant. -/
theorem Inv.setStage (hinv : Inv P s) (hi : (s.oracle i).stage ≠ 0) (n : Fin 4)
    (oseed : Option (BitVec 31)) :
    Inv P { s.setOracle i { s.oracle i with stage := n } with oseed } := by
  refine ⟨hinv.room, hinv.ended, ?_, ?_⟩
  · intro j hj
    show ((s.setOracle i _).oracle j).secret ≠ none
    rw [secret_setStage]
    by_cases hji : j = i
    · subst hji
      exact hinv.held j hi
    · apply hinv.held j
      change (Function.update s.oracle i _ j).stage ≠ 0 at hj
      rwa [Function.update_of_ne hji] at hj
  · intro j secret hj
    change ((s.setOracle i _).oracle j).secret = some secret at hj
    rw [secret_setStage] at hj
    exact hinv.kept j secret hj

/-- A turn of the loop keeps the invariant. -/
theorem inv_step (hinv : Inv P s) (hstep : Step P s e s' o) : Inv P s' := by
  cases hstep with
  | input c hchoice => exact hinv
  | invalid i hchoice hstage => exact hinv
  | talk i userkey rest hchoice hstage hkey hroom =>
      refine ⟨hroom, List.mem_append_right _ List.mem_cons_self, ?_, ?_⟩
      · intro j hj
        by_cases hji : j = i
        · subst hji
          simp [State.talked]
        · simp only [State.talked, Function.update_of_ne hji] at hj ⊢
          exact hinv.held j hj
      · intro j secret hj
        by_cases hji : j = i
        · subst hji
          simp only [State.talked, Function.update_self, Option.some.injEq] at hj
          cases hpatched : P.patched <;> simp [hpatched, ← hj]
        · simp only [State.talked, Function.update_of_ne hji] at hj
          exact hinv.kept j secret hj
  | right i secret hchoice hstage hsecret hguess =>
      exact hinv.setStage (stage_ne_zero hstage) 0 s.oseed
  | wrong i secret guess hchoice hstage hsecret hguess hne =>
      exact hinv.setStage (stage_ne_zero hstage) _ s.oseed
  | told i secret hchoice hstage hsecret =>
      exact hinv.setStage (by rw [hstage]; decide) 0 none

end desk

section refinement

variable {P : Process γ} {s s' : State γ} {e : Event} {o : Reply} {i : Fin 2}

/-- Another stage, at the desk. -/
theorem desk_setStage (n : Fin 4) (oseed : Option (BitVec 31)) :
    State.desk P { s.setOracle i { s.oracle i with stage := n } with oseed }
      = { s.desk P with stage := Function.update (s.desk P).stage i n } := by
  apply Guessing.Desk.ext <;> funext j
  · show ((Function.update s.oracle i { s.oracle i with stage := n } j).stage : ℕ)
      = Function.update (s.desk P).stage i (n : ℕ) j
    by_cases hj : j = i
    · subst hj
      rw [Function.update_self, Function.update_self]
    · rw [Function.update_of_ne hj, Function.update_of_ne hj]
      rfl
  · simp only [State.desk, secret_setStage]
    rfl

/-- A new secret, at the desk. -/
theorem desk_talked (hstage : (s.oracle i).stage = 0) (userkey : BitVec 31) (rest : Bytes) :
    (s.talked P i userkey rest).desk P = ⟨Function.update (s.desk P).stage i 1,
      Function.update (s.desk P).text (slot P.patched i) (P.R.secret (s.drawn P userkey))⟩ := by
  have hcstr : cstr (P.R.secret (s.drawn P userkey) ++ 0 :: rest)
      = P.R.secret (s.drawn P userkey) := by
    rw [cstr_append_zero, cstr_eq_self (zero_notMem_secret P.R _)]
  apply Guessing.Desk.ext <;> funext j
  · show ((Function.update s.oracle i _ j).stage : ℕ) = Function.update (s.desk P).stage i 1 j
    by_cases hj : j = i
    · subst hj
      rw [Function.update_self, Function.update_self, hstage]
      rfl
    · rw [Function.update_of_ne hj, Function.update_of_ne hj]
      rfl
  · cases hpatched : P.patched with
    | false =>
        cases j with
        | none => simp [State.desk, State.talked, slot, hpatched, hcstr]
        | some k => simp [State.desk, slot, hpatched]
    | true =>
        cases j with
        | none => simp [State.desk, slot, hpatched]
        | some k =>
            by_cases hk : k = i
            · subst hk
              simp [State.desk, State.talked, slot, hpatched, Secret.copied]
            · have hne : some k ≠ some i := fun h => hk (Option.some.inj h)
              simp [State.desk, State.talked, slot, hpatched, Function.update_of_ne hk,
                Function.update_of_ne hne]

/-- The stages of a guess, at the desk. -/
theorem guess_stage (hstage : (s.oracle i).stage = 1 ∨ (s.oracle i).stage = 2) :
    (s.desk P).stage i = 1 ∨ (s.desk P).stage i = 2 :=
  hstage.imp (congrArg Fin.val) (congrArg Fin.val)

theorem stage_succ (hstage : (s.oracle i).stage = 1 ∨ (s.oracle i).stage = 2) :
    (((s.oracle i).stage + 1 : Fin 4) : ℕ) = (s.desk P).stage i + 1 := by
  show _ = ((s.oracle i).stage : ℕ) + 1
  rcases hstage with hstage | hstage
  · rw [hstage]
    rfl
  · rw [hstage]
    rfl

/-- A turn of the loop is a step at the desk, or leaves the desk as it is. -/
theorem desk_step (hinv : Inv P s) (hstep : Step P s e s' o) :
    (s'.desk P = s.desk P ∧ seen P ⟨s, e, o⟩ = none) ∨
      ∃ b t, Guessing.next (slot P.patched) (s.desk P) b = some (s'.desk P, t) ∧
        seen P ⟨s, e, o⟩ = some (b, t) := by
  have hguess : ∀ i secret, (s.oracle i).stage = 1 ∨ (s.oracle i).stage = 2 →
      s.secretText i = some secret → (s.desk P).text (slot P.patched i) = secret := by
    intro i secret hstage hsecret
    have htext := secretText_eq hinv (i := i) (stage_ne_zero hstage)
    rw [hsecret] at htext
    exact (Option.some.inj htext).symm
  cases hstep with
  | input c hchoice => exact Or.inl ⟨rfl, by rw [seen, hchoice]; rfl⟩
  | invalid i hchoice hstage => exact Or.inl ⟨rfl, by rw [seen, hchoice]; rfl⟩
  | talk i userkey rest hchoice hstage hkey hroom =>
      refine Or.inr ⟨.talk i (P.R.secret (s.drawn P userkey)), .heard, ?_, ?_⟩
      · have hat : (s.desk P).stage i = 0 := congrArg Fin.val hstage
        rw [Guessing.next, if_pos hat, desk_talked hstage]
      · simp [seen, hchoice, hkey]
  | right i secret hchoice hstage hsecret hguessed =>
      refine Or.inr ⟨.guess i secret, .right, ?_, ?_⟩
      · have hat := guess_stage (P := P) hstage
        rw [Guessing.next, if_pos hat, if_pos (hguess i secret hstage hsecret).symm]
        exact congrArg (fun d => some (d, Guessing.Answer.right))
          (desk_setStage 0 s.oseed).symm
      · simp [seen, hchoice, hguessed]
  | wrong i secret guess hchoice hstage hsecret hguessed hne =>
      refine Or.inr ⟨.guess i guess, .wrong, ?_, ?_⟩
      · have hat := guess_stage (P := P) hstage
        rw [Guessing.next, if_pos hat,
          if_neg (by rw [hguess i secret hstage hsecret]; exact hne)]
        rw [← stage_succ hstage]
        exact congrArg (fun d => some (d, Guessing.Answer.wrong))
          (desk_setStage _ s.oseed).symm
      · simp [seen, hchoice, hguessed]
  | told i secret hchoice hstage hsecret =>
      have htext := secretText_eq hinv (i := i) (by rw [hstage]; decide)
      rw [hsecret] at htext
      refine Or.inr ⟨.ask i, .told secret, ?_, ?_⟩
      · have hat : (s.desk P).stage i = 3 := congrArg Fin.val hstage
        rw [Guessing.next, if_pos hat, ← Option.some.inj htext]
        exact congrArg (fun d => some (d, Guessing.Answer.told secret))
          (desk_setStage 0 none).symm
      · simp [seen, hchoice]

end refinement

/-! ## Runs -/

/-- The generator of the C library with the smallest state. -/
def smallest : Generator ℕ where
  srand := UInt32.toNat
  rand := fun g =>
    let g := (1103515245 * g + 12345) % 2 ^ 31
    (BitVec.ofNat 31 g, g)

/-- A process. -/
def process (patched : Bool) : Process ℕ := ⟨smallest, 1234, 1669248000, patched⟩

/-- A choice with a line, where the buffers are empty. -/
def line (c : Char) (text : Bytes) : Event := ⟨[ch c, ch '\n'], List.replicate 128 0, text⟩

section runs

variable {P : Process γ} {s s' : State γ} {past later : History γ}
  {m : Moment (State γ) Event Reply} {e : Event} {i : Fin 2}

theorem inv_run (hrun : (system P).Run past s) : Inv P s :=
  hrun.always inv_start fun _ _ _ _ hinv hnext => inv_step hinv (step_of_next hinv.room hnext)

/-- Every run is a run of the desk. -/
theorem exists_desk_run (hrun : (system P).Run past s) : ∃ past',
    (Guessing.desk (slot P.patched)).Run past' (s.desk P) ∧
      Guessing.record past' = past.filterMap (seen P) := by
  refine hrun.simulation (State.desk P)
    (R := fun past past' => Guessing.record past' = past.filterMap (seen P)) ?_ rfl ?_
  · apply Guessing.Desk.ext <;> funext k
    · rfl
    · cases k <;> cases hpatched : P.patched <;>
        simp [State.desk, system, start, cstr, hpatched] <;> rfl
  · intro past past' s e s' o hrun hR hnext
    have hinv := inv_run hrun
    rcases desk_step hinv (step_of_next hinv.room hnext) with ⟨hdesk, hseen⟩ | ⟨b, t, hnext', hseen⟩
    · exact Or.inl ⟨hdesk, by rw [hR, List.filterMap_cons_none hseen]⟩
    · refine Or.inr ⟨b, t, hnext', ?_⟩
      rw [Guessing.record, List.map_cons, List.filterMap_cons_some hseen, ← hR]
      rfl

/-- The number of an oracle or another character, a line for its task, and a word in it for a
guess. -/
structure Answerable (s : State γ) (e : Event) : Prop where
  menu : e.menu.headD (ch 'q') ≠ ch 'q'
  room : e.buf.length = 128
  line : e.stdin ≠ []
  word : ∀ i, e.choice = some i → (s.oracle i).stage = 1 ∨ (s.oracle i).stage = 2 →
    firstToken 0 isDelim (fgets 128 e.stdin) ≠ []

/-- A guess, as a turn of the loop. -/
theorem next_of_guess (hchoice : e.choice = some i)
    (hstage : (s.oracle i).stage = 1 ∨ (s.oracle i).stage = 2) {guess secret : Bytes}
    (hguess : e.guess = some guess) (hsecret : s.secretText i = some secret) :
    next P s e = if guess = secret then
        some (s.setOracle i { s.oracle i with stage := 0 }, .goodJob)
      else some (s.setOracle i { s.oracle i with stage := (s.oracle i).stage + 1 }, .no) := by
  rw [next_of_choice hchoice, ← oracleGuess_eq hguess hsecret]
  rcases hstage with hstage | hstage
  · rw [task, hstage]
  · rw [task, hstage]

/-- The program answers it. -/
theorem exists_next (hinv : Inv P s) (he : Answerable s e) :
    ∃ s' o, next P s e = some (s', o) := by
  cases hchoice : e.choice with
  | none =>
      rw [Event.choice] at hchoice
      rw [next]
      simp only [if_neg he.menu]
      split_ifs at hchoice with hone htwo
      rw [if_neg hone, if_neg htwo]
      exact ⟨_, _, rfl⟩
  | some i =>
      have hstages : ∀ x : Fin 4, x = 0 ∨ x = 1 ∨ x = 2 ∨ x = 3 := by decide
      have hguesses : (s.oracle i).stage = 1 ∨ (s.oracle i).stage = 2 →
          ∃ s' o, next P s e = some (s', o) := by
        intro hstage
        have hguess := guess_eq he.room he.line
        rw [if_neg (he.word i hchoice hstage)] at hguess
        rw [next_of_guess hchoice hstage hguess (secretText_eq hinv (stage_ne_zero hstage))]
        split_ifs
        · exact ⟨_, _, rfl⟩
        · exact ⟨_, _, rfl⟩
      rcases hstages (s.oracle i).stage with hstage | hstage | hstage | hstage
      · rw [next_of_choice hchoice, task, hstage]
        cases hkey : e.key with
        | some userkey =>
            obtain ⟨rest, hinit, -⟩ := oracleInit_eq (P := P) (i := i) hinv.room hkey
            exact ⟨_, _, hinit⟩
        | none =>
            have hmem : (0 : UInt8) ∈ fgets 128 e.stdin
                ++ 0 :: e.buf.drop ((fgets 128 e.stdin).length + 1) :=
              List.mem_append_right _ List.mem_cons_self
            exact ⟨s, .invalid, oracleInit_invalid (readLine_eq he.room he.line)
              (stringAt_of_mem hmem) hkey⟩
      · exact hguesses (Or.inl hstage)
      · exact hguesses (Or.inr hstage)
      · rw [next_of_choice hchoice, task, hstage]
        exact ⟨_, _, oracleShow_eq hstage (secretText_eq hinv (by rw [hstage]; decide))⟩

/-- Every run of the program is a run of the desk, where the oracles of the first version share a
slot, and every line that can be answered is. -/
theorem desk_run (hrun : (system P).Run past s) :
    (∃ past', (Guessing.desk (slot P.patched)).Run past' (s.desk P) ∧
      Guessing.record past' = past.filterMap (seen P)) ∧
    ∀ e, Answerable s e → ∃ s' o, next P s e = some (s', o) :=
  ⟨exists_desk_run hrun, fun _ he => exists_next (inv_run hrun) he⟩

/-- A run in which both oracles are talked to and the second one is guessed at. -/
theorem desk_run_talks : ∃ (past : History ℕ) (s : State ℕ),
    (∃ past', (Guessing.desk (slot true)).Run past' (s.desk (process true)) ∧
      Guessing.record past' = past.filterMap (seen (process true))) ∧
    (∀ e, Answerable s e → ∃ s' o, next (process true) s e = some (s', o)) ∧
    past.map Moment.shown = [.no, .thanks, .thanks] := by
  obtain ⟨past, s, hrun, hshown⟩ := exists_run_of_replay (system (process true))
    [line '1' (ascii "meow\n"), line '2' (ascii "meow\n"), line '2' (ascii "0\n")]
    (fun r => r.1.map Moment.shown = [.no, .thanks, .thanks]) (by decide +kernel)
  obtain ⟨hdesk, hnext⟩ := desk_run hrun
  exact ⟨past, s, hdesk, hnext, of_decide_eq_true hshown⟩

/-- A guess wins if and only if it is the secret that was generated last, for this oracle in the
patched version, and for any of the two in the first one. -/
theorem good_job_iff (hrun : (system P).Run past s) {o : Reply} (hnext : next P s e = some (s', o))
    (hchoice : e.choice = some i) (hstage : (s.oracle i).stage = 1 ∨ (s.oracle i).stage = 2)
    {guess : Bytes} (hguess : e.guess = some guess) :
    o = .goodJob ↔ Guessing.lastSecret (slot P.patched) (slot P.patched i)
      (past.filterMap (seen P)) = some guess := by
  have hinv := inv_run hrun
  have hsome := stage_ne_zero hstage
  have hat : (s.desk P).stage i ≠ 0 := fun h => hsome (Fin.ext h)
  obtain ⟨past', hrun', hrecord⟩ := exists_desk_run hrun
  rw [← hrecord, Guessing.lastSecret_eq_text hrun' hat, Option.some.injEq]
  rw [next_of_guess hchoice hstage hguess (secretText_eq hinv hsome)] at hnext
  split_ifs at hnext with heq
  · cases hnext
    exact iff_of_true rfl heq.symm
  · cases hnext
    exact iff_of_false (by decide) (Ne.symm heq)

/-- Two guesses of the first oracle, after both have been talked to: its secret wins, another text
does not. -/
theorem good_job_iff_both : ∃ (past : History ℕ) (s : State ℕ) (text : Bytes),
    (system (process true)).Run past s ∧ past.map Moment.shown = [.thanks, .thanks] ∧
    (next (process true) s (line '1' (text ++ ascii "\n"))).map Prod.snd = some .goodJob ∧
    Guessing.lastSecret (slot true) (some 0) (past.filterMap (seen (process true))) = some text ∧
    (next (process true) s (line '1' (ascii "0\n"))).map Prod.snd = some .no ∧
    Guessing.lastSecret (slot true) (some 0) (past.filterMap (seen (process true)))
      ≠ some (ascii "0") := by
  obtain ⟨past, s, hrun, htest⟩ := exists_run_of_replay (system (process true))
    [line '1' (ascii "meow\n"), line '2' (ascii "meow\n")]
    (fun r => r.1.map Moment.shown = [.thanks, .thanks] ∧ (r.2.oracle 0).stage = 1 ∧
      (∃ text ∈ r.2.secretText 0, (line '1' (text ++ ascii "\n")).guess = some text ∧
        (next (process true) r.2 (line '1' (text ++ ascii "\n"))).map Prod.snd = some .goodJob) ∧
      (next (process true) r.2 (line '1' (ascii "0\n"))).map Prod.snd = some .no)
    (by decide +kernel)
  obtain ⟨hshown, hstage, ⟨text, -, hguess, hwins⟩, hloses⟩ := of_decide_eq_true htest
  refine ⟨past, s, text, hrun, hshown, hwins, ?_, hloses, ?_⟩
  · obtain ⟨⟨s', o⟩, hnext, rfl⟩ := Option.map_eq_some_iff.mp hwins
    exact (good_job_iff hrun hnext (i := 0) rfl (Or.inl hstage) hguess).mp rfl
  · obtain ⟨⟨s', o⟩, hnext, rfl⟩ := Option.map_eq_some_iff.mp hloses
    intro hlast
    cases (good_job_iff hrun hnext (i := 0) rfl (Or.inl hstage) (by decide +kernel)).mpr hlast

/-- The buffer changes only when a secret is generated. -/
theorem buf_of_step {o : Reply} (hstep : Step P s e s' o) (h : o ≠ .thanks) : s'.buf = s.buf := by
  cases hstep with
  | talk i userkey rest hchoice hstage hkey hroom => exact absurd rfl h
  | _ => rfl

/-- Every oracle of the first version has the text of the buffer. -/
theorem secretText_first (hinv : Inv P s) (hfirst : P.patched = false)
    (hi : (s.oracle i).stage ≠ 0) : s.secretText i = some (cstr s.buf) := by
  rw [secretText_eq hinv hi]
  simp [State.desk, slot, hfirst]

/-- What an oracle of the first version tells stays in the buffer. -/
theorem buf_of_told (hinv : Inv P s) (hfirst : P.patched = false) {text : Bytes}
    {seed : Option (BitVec 31)} (hstep : Step P s e s' (.secret text seed)) :
    cstr s'.buf = text := by
  cases hstep with
  | told i secret hchoice hstage hsecret =>
      have hbuf := secretText_first hinv hfirst (i := i) (by rw [hstage]; decide)
      rw [hsecret] at hbuf
      exact (Option.some.inj hbuf).symm

/-- In the first version the secret that one oracle has told is a guess that wins at any of the two,
until another secret is generated. -/
theorem shown_secret_wins (hfirst : P.patched = false)
    (hrun : (system P).Run (later ++ m :: past) s) {text : Bytes} {seed : Option (BitVec 31)}
    (hshown : m.shown = .secret text seed) (hlater : ∀ m' ∈ later, m'.shown ≠ .thanks)
    (hchoice : e.choice = some i) (hstage : (s.oracle i).stage = 1 ∨ (s.oracle i).stage = 2)
    (hguess : e.guess = some text) : ∃ s', next P s e = some (s', .goodJob) := by
  have hinv := inv_run hrun
  have hsecret := secretText_first hinv hfirst (i := i)
    (stage_ne_zero hstage)
  have hbuf : cstr s.buf = text := by
    clear hsecret hinv hstage
    induction later generalizing s with
    | nil =>
        cases hrun with
        | next hrun hnext =>
            have hinv := inv_run hrun
            dsimp only at hshown
            subst hshown
            exact buf_of_told hinv hfirst (step_of_next hinv.room hnext)
    | cons m' later ih =>
        cases hrun with
        | next hrun hnext =>
            have hstep := step_of_next (inv_run hrun).room hnext
            rw [buf_of_step hstep (hlater _ List.mem_cons_self)]
            exact ih hrun fun m'' hm'' => hlater m'' (List.mem_cons_of_mem _ hm'')
  rw [next_of_guess hchoice hstage hguess hsecret, if_pos hbuf.symm]
  exact ⟨_, rfl⟩

/-- The secret that a moment shows. -/
def shownSecret (m : Moment (State γ) Event Reply) : Option Bytes :=
  match m.shown with
  | .secret text _ => some text
  | _ => none

/-- What the second oracle tells wins at the first one. -/
theorem shown_secret_wins_other : ∃ s text s',
    next (process false) s (line '1' (text ++ ascii "\n")) = some (s', .goodJob) := by
  obtain ⟨past, s, hrun, htest⟩ := exists_run_of_replay (system (process false))
    [line '1' (ascii "meow\n"), line '2' (ascii "meow\n"), line '2' (ascii "0\n"),
      line '2' (ascii "0\n"), line '2' []]
    (fun r => (r.2.oracle 0).stage = 1 ∧ ∃ m ∈ r.1.head?, ∃ text ∈ shownSecret m,
      (line '1' (text ++ ascii "\n")).guess = some text) (by decide +kernel)
  obtain ⟨hstage, m, hm, text, htext, hguess⟩ := of_decide_eq_true htest
  obtain ⟨past, rfl⟩ := List.head?_eq_some_iff.mp hm
  obtain ⟨seed, hshown⟩ : ∃ seed, m.shown = .secret text seed := by
    rw [Option.mem_def, shownSecret] at htext
    split at htext
    · next t seed heq =>
        cases htext
        exact ⟨seed, heq⟩
    · cases htext
  have hrun' : (system (process false)).Run ([] ++ m :: past) s := hrun
  obtain ⟨s', hnext⟩ := shown_secret_wins rfl hrun' hshown (List.forall_mem_nil _) (i := 0) rfl
    (Or.inl hstage) hguess
  exact ⟨s, text, s', hnext⟩

end runs

end Oracles
