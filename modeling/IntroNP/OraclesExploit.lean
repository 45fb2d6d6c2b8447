/-
# The exploit of the patched oracles

The script lets an oracle tell two secrets with their seeds.  The numbers that follow a seed are
known, so that the two seeds tell what `magic` and the process number contribute to the next one,
and with it the next secret.

* `create`, `showSeed`, `exploit` : the script;
* `create_eq`, `showSeed_eq` : a secret with its seed, and how the seed is shown;
* `exploit_wins` : the script wins against every generator.

How the script finds the seed in the text of an answer is left out.

* source : `Lab/7/Play with the Oracles p1/exploit.py`
-/
import IntroNP.OraclesDesk

namespace Oracles

open Block Machine ProofOfWork

variable {γ : Type}

/-! ## The script -/

/-- `usermsg`, as a line. -/
def usermsg : Bytes := ascii "meow\n"

/-- `userkey`. -/
def userkey : BitVec 31 := 0x776f6567

/-- The choice of the first oracle, and a line. -/
def first (buf line : Bytes) : Event := ⟨ascii "1\n", buf, line⟩

/-- `create`. -/
def create (P : Process γ) (buf : Bytes) (s : State γ) : Option (State γ) :=
  (next P s (first buf usermsg)).map Prod.fst

/-- `show` : two guesses, and the seed that is shown then. -/
def showSeed (P : Process γ) (bufs : ℕ → Bytes) (n : ℕ) (s : State γ) :
    Option (State γ × BitVec 31) := do
  let (s, _) ← next P s (first (bufs n) usermsg)
  let (s, _) ← next P s (first (bufs (n + 1)) usermsg)
  let (s, reply) ← next P s (first (bufs (n + 2)) [])
  match reply with
  | .secret _ (some seed) => some (s, seed)
  | _ => none

/-- The script, with what the program has in its buffers before each task, and the answer to the
payload.  Its C library is that of the program. -/
def exploit (P : Process γ) (bufs : ℕ → Bytes) (s : State γ) : Option Reply := do
  let s ← create P (bufs 0) s
  let (s, seed) ← showSeed P bufs 1 s
  let rand := P.R.draw 4 (P.R.seeded seed)
  let s ← create P (bufs 4) s
  let (s, seed) ← showSeed P bufs 5 s
  let magic_pid := seed ^^^ rand ^^^ userkey
  let rand := P.R.draw 4 (P.R.seeded seed)
  let seed := rand ^^^ userkey ^^^ magic_pid
  let s ← create P (bufs 8) s
  let payload := P.R.secret (P.R.seeded seed)
  let (_, reply) ← next P s (first (bufs 9) (payload ++ [ch '\n']))
  some reply

/-! ## Its messages -/

section exploit

variable {P : Process γ} {s : State γ} {bufs : ℕ → Bytes} {i : Fin 2}

theorem choice_first (buf line : Bytes) : (first buf line).choice = some 0 := by
  rfl

/-- The key of the message depends on two bytes that the line does not reach. -/
theorem key_usermsg {buf : Bytes} (hbuf : buf.length = 128) : (first buf usermsg).key
    = some ((BitVec.ofNat 32 (ofLE (ascii "meow")) ^^^
        BitVec.ofNat 32 (ofLE (ch '\n' :: 0 :: (buf.drop 6).take 2))).setWidth 31) := by
  have hline : fgets 128 usermsg = usermsg := by decide +kernel
  have husermsg : usermsg = [109, 101, 111, 119, 10] := by decide +kernel
  have hread := readLine_eq hbuf (show usermsg ≠ [] by rw [husermsg]; simp)
  have hcstr : stringAt 0 (usermsg ++ 0 :: buf.drop 6) 0 = some usermsg :=
    stringAt_append [] (show (0 : UInt8) ∉ usermsg by rw [husermsg]; decide) _
  have hlength : usermsg.length = 5 := by rw [husermsg]; rfl
  rw [hline, hlength] at hread
  rw [Event.key, first]
  show (readLine buf usermsg).bind _ = _
  rw [hread, Option.bind_some]
  show (stringAt 0 (usermsg ++ 0 :: buf.drop 6) 0).bind _ = _
  rw [hcstr, husermsg]
  simp [msg2key, List.range_succ]
  rfl

/-- The message is no secret. -/
theorem guess_usermsg {buf : Bytes} (hbuf : buf.length = 128) :
    (first buf usermsg).guess = some (ascii "meow") := by
  have hword : firstToken 0 isDelim (fgets 128 usermsg) = ascii "meow" := by decide +kernel
  have hguess := guess_eq (e := first buf usermsg) hbuf
    (by show usermsg ≠ []; decide +kernel)
  change _ = if firstToken 0 isDelim (fgets 128 usermsg) = [] then _ else _ at hguess
  rw [hguess, if_neg (by rw [hword]; decide +kernel)]
  exact congrArg some hword

theorem ne_secret (R : Generator γ) (g : γ) : ascii "meow" ≠ R.secret g := by
  intro h
  have hall : ∀ d : Fin 16, hexChar d ≠ ch 'm' := by decide +kernel
  have hmem : ch 'm' ∈ R.secret g := by
    rw [← h]
    decide +kernel
  obtain ⟨d, hd, heq⟩ := mem_secret R hmem
  exact hall ⟨d, hd⟩ heq.symm

/-- The payload is a guess of the secret that it is made of. -/
theorem guess_payload {buf : Bytes} (hbuf : buf.length = 128) (g : γ) :
    (first buf (P.R.secret g ++ [ch '\n'])).guess = some (P.R.secret g) := by
  have hlen := length_digits_le P.R 4 g
  have hword : firstToken 0 isDelim (P.R.secret g ++ [ch '\n']) = P.R.secret g :=
    firstToken_append (fun c hc => inToken_of_mem_secret P.R hc) (by decide) (secret_ne_nil P.R g)
  have hnewline : ch '\n' ∉ P.R.secret g := by
    intro h
    have hin := inToken_of_mem_secret P.R h
    simp [inToken, isDelim] at hin
  have hline : fgets 128 (P.R.secret g ++ [ch '\n']) = P.R.secret g ++ [ch '\n'] :=
    fgets_line hnewline (by rw [Generator.secret]; omega) []
  have hguess := guess_eq (e := first buf (P.R.secret g ++ [ch '\n'])) hbuf
    (List.append_ne_nil_of_right_ne_nil _ (List.cons_ne_nil _ _))
  change _ = if firstToken 0 isDelim (fgets 128 (P.R.secret g ++ [ch '\n'])) = [] then _ else
    some (firstToken 0 isDelim (fgets 128 (P.R.secret g ++ [ch '\n']))) at hguess
  rwa [hline, hword, if_neg (secret_ne_nil P.R g)] at hguess

theorem xor_seed (m p k u r₁ r₂ : BitVec 31) :
    r₂ ^^^ u ^^^ (m ^^^ (r₁ ^^^ p) ^^^ k ^^^ r₁ ^^^ u) = m ^^^ (r₂ ^^^ p) ^^^ k := by
  ext j hj
  simp only [BitVec.getElem_xor]
  generalize m[j] = a, p[j] = b, k[j] = c, u[j] = d, r₁[j] = e, r₂[j] = f
  revert a b c d e f
  decide

/-! ## Its rounds -/

/-- A secret has been made, and the first oracle waits for a guess. -/
structure Made (P : Process γ) (s : State γ) (seed : BitVec 31) : Prop where
  inv : Inv P s
  stage : (s.oracle 0).stage = 1
  oseed : s.oseed = some seed
  rand : s.rand = P.R.after 4 (P.R.seeded seed)
  secret : s.secretText 0 = some (P.R.secret (P.R.seeded seed))

/-- `create`, when there is no seed. -/
theorem create_eq (hinv : Inv P s) (hstage : (s.oracle 0).stage = 0) (hseed : s.oseed = none)
    {buf : Bytes} {k : BitVec 31} (hkey : (first buf usermsg).key = some k) :
    ∃ s', create P buf s = some s' ∧ s'.magic = s.magic ∧
      Made P s' (s.magic ^^^ s.key P ^^^ k) := by
  obtain ⟨rest, hinit, hroom⟩ := oracleInit_eq (P := P) (i := 0) hinv.room hkey
  have hnext : next P s (first buf usermsg) = some (s.talked P 0 k rest, .thanks) := by
    rw [next_of_choice (choice_first buf usermsg), task, hstage]
    exact hinit
  have hinv' := inv_step hinv (.talk 0 k rest (choice_first buf usermsg) hstage hkey hroom)
  have hdrawn : s.drawn P k = P.R.seeded (s.magic ^^^ s.key P ^^^ k) := by
    rw [State.drawn, State.source, hseed]
  refine ⟨s.talked P 0 k rest, by rw [create, hnext]; rfl, rfl, hinv', ?_, ?_, ?_, ?_⟩
  · simp [State.talked, hstage]
  · simp [State.talked, State.seed, hseed]
  · rw [← hdrawn]
    rfl
  · rw [secretText_eq hinv' (by simp [State.talked, hstage]), desk_talked hstage, ← hdrawn]
    simp

/-- A wrong guess of the script. -/
theorem next_usermsg (hinv : Inv P s) (hstage : (s.oracle 0).stage = 1 ∨ (s.oracle 0).stage = 2)
    {g : γ} (hsecret : s.secretText 0 = some (P.R.secret g)) {buf : Bytes}
    (hbuf : buf.length = 128) :
    ∃ s', next P s (first buf usermsg) = some (s', .no) ∧ s'.magic = s.magic ∧
      s'.oseed = s.oseed ∧ s'.rand = s.rand ∧ (s'.oracle 0).stage = (s.oracle 0).stage + 1 ∧
      s'.secretText 0 = some (P.R.secret g) ∧ Inv P s' := by
  have hnext := next_of_guess (P := P) (choice_first buf usermsg) hstage (guess_usermsg hbuf)
    hsecret
  rw [if_neg (ne_secret P.R g)] at hnext
  refine ⟨_, hnext, rfl, rfl, rfl, ?_, ?_, inv_step hinv (step_of_next hinv.room hnext)⟩
  · simp [State.setOracle]
  · rw [secretText_setStage, hsecret]

/-- `show`, after a secret has been made. -/
theorem showSeed_eq {seed : BitVec 31} (hmade : Made P s seed)
    (hbufs : ∀ n, (bufs n).length = 128) (n : ℕ) :
    ∃ s', showSeed P bufs n s = some (s', seed) ∧ s'.magic = s.magic ∧ s'.rand = s.rand ∧
      s'.oseed = none ∧ (s'.oracle 0).stage = 0 ∧ Inv P s' := by
  obtain ⟨s₁, hfirst, hmagic₁, hoseed₁, hrand₁, hstage₁, hsecret₁, hinv₁⟩ :=
    next_usermsg hmade.inv (Or.inl hmade.stage) hmade.secret (hbufs n)
  rw [hmade.stage] at hstage₁
  obtain ⟨s₂, hsecond, hmagic₂, hoseed₂, hrand₂, hstage₂, hsecret₂, hinv₂⟩ :=
    next_usermsg hinv₁ (Or.inr hstage₁) hsecret₁ (hbufs (n + 1))
  rw [hstage₁] at hstage₂
  have hseed : s₂.oseed = some seed := by rw [hoseed₂, hoseed₁, hmade.oseed]
  have hthird : next P s₂ (first (bufs (n + 2)) []) = oracleShow s₂ 0 := by
    rw [next_of_choice (choice_first _ _), task, hstage₂]
    rfl
  rw [oracleShow_eq hstage₂ hsecret₂] at hthird
  refine ⟨{ s₂.setOracle 0 { s₂.oracle 0 with stage := 0 } with oseed := none }, ?_,
    hmagic₂.trans hmagic₁, hrand₂.trans hrand₁, rfl, ?_,
    inv_step hinv₂ (step_of_next hinv₂.room hthird)⟩
  · rw [showSeed, hfirst]
    show (next P s₁ (first (bufs (n + 1)) usermsg)).bind _ = _
    rw [hsecond]
    show (next P s₂ (first (bufs (n + 2)) [])).bind _ = _
    rw [hthird, hseed]
    rfl
  · simp [State.setOracle]

/-- The payload for the seed that is in use. -/
theorem payload_wins {seed : BitVec 31} (hmade : Made P s seed) {buf : Bytes}
    (hbuf : buf.length = 128) :
    ∃ s', next P s (first buf (P.R.secret (P.R.seeded seed) ++ [ch '\n']))
      = some (s', .goodJob) := by
  rw [next_of_guess (choice_first _ _) (Or.inl hmade.stage) (guess_payload hbuf _) hmade.secret,
    if_pos rfl]
  exact ⟨_, rfl⟩

/-- The script wins against every generator, from every state of every run in which the first oracle
waits for a message and no seed is in use, if its last two messages have the same key. -/
theorem exploit_wins {past : History γ} (hrun : (system P).Run past s)
    (hstage : (s.oracle 0).stage = 0) (hseed : s.oseed = none)
    (hbufs : ∀ n, (bufs n).length = 128)
    (hsame : ((bufs 4).drop 6).take 2 = ((bufs 8).drop 6).take 2) :
    exploit P bufs s = some .goodJob := by
  obtain ⟨k, hkey₀⟩ : ∃ k, (first (bufs 0) usermsg).key = some k := ⟨_, key_usermsg (hbufs 0)⟩
  obtain ⟨k', hkey₄, hkey₈⟩ : ∃ k', (first (bufs 4) usermsg).key = some k' ∧
      (first (bufs 8) usermsg).key = some k' :=
    ⟨_, key_usermsg (hbufs 4), by rw [key_usermsg (hbufs 8), hsame]⟩
  -- the three secrets, with the seeds that are shown for the first two
  obtain ⟨s₁, hcreate₁, -, hmade₁⟩ := create_eq (inv_run hrun) hstage hseed hkey₀
  generalize s.magic ^^^ s.key P ^^^ k = seed at hmade₁
  obtain ⟨s₂, hshow₁, -, hrand₂, hseed₂, hstage₂, hinv₂⟩ := showSeed_eq hmade₁ hbufs 1
  obtain ⟨s₃, hcreate₂, hmagic₃, hmade₂⟩ := create_eq hinv₂ hstage₂ hseed₂ hkey₄
  obtain ⟨s₄, hshow₂, hmagic₄, hrand₄, hseed₄, hstage₄, hinv₄⟩ := showSeed_eq hmade₂ hbufs 5
  obtain ⟨s₅, hcreate₃, -, hmade₃⟩ := create_eq hinv₄ hstage₄ hseed₄ hkey₈
  have hkeys : ∀ {t : State γ} {seed : BitVec 31}, t.rand = P.R.after 4 (P.R.seeded seed) →
      t.key P = P.R.draw 4 (P.R.seeded seed) ^^^ P.pid := by
    intro t seed h
    rw [State.key, h]
    rfl
  rw [hkeys (hrand₂.trans hmade₁.rand)] at hmade₂ hshow₂
  rw [hkeys (hrand₄.trans hmade₂.rand), hmagic₄, hmagic₃,
    ← xor_seed _ _ _ userkey (P.R.draw 4 (P.R.seeded seed))] at hmade₃
  obtain ⟨s₆, hwin⟩ := payload_wins hmade₃ (hbufs 9)
  rw [exploit, hcreate₁]
  show (showSeed P bufs 1 s₁).bind _ = _
  rw [hshow₁]
  show (create P (bufs 4) s₂).bind _ = _
  rw [hcreate₂]
  show (showSeed P bufs 5 s₃).bind _ = _
  rw [hshow₂]
  show (create P (bufs 8) s₄).bind _ = _
  rw [hcreate₃]
  show (next P s₅ _).bind _ = _
  rw [hwin]
  rfl

/-- The script, from the start of a process. -/
theorem exploit_wins_start :
    exploit (process true) (fun _ => List.replicate 128 0) (start (process true)) = some .goodJob :=
  exploit_wins Run.start rfl rfl (fun _ => List.length_replicate) rfl

end exploit

end Oracles
