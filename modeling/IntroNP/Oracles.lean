/-
# The oracles of Lab 7

Two oracles make up secrets and let the client guess them.  The secrets come from the generator of
the C library, whose seed is shown to a client that has guessed wrong twice.  `gen_secret` returns a
static buffer: the first version of the program keeps a pointer to it, the patched one a copy.

* `State`, `genSecret`, `msg2key`, `oracleInit`, `oracleGuess`, `oracleShow`, `next`, `system` : the
  program, with the process number, the generator and what fills its buffers as parameters;
* `genSecret_eq` : the secret is made of the next four numbers of the generator;
* `readLine_eq`, `guess_eq` : the lines that are typed;
* `Step`, `step_of_next` : what a turn of the loop can do.

The texts of the menu and the name of the user, which is only printed, are left out.

* source : `Lab/7/Play with the Oracles/oracle.c`, `Lab/7/Play with the Oracles p1/oraclep1.c`
-/
import IntroNP.ProofOfWork
import IntroNP.Runs

namespace Oracles

open Block Machine ProofOfWork

/-! ## The generator -/

/-- `srand` and `rand` of the C library.  A number is a non-negative `int`. -/
structure Generator (γ : Type) where
  /-- The generator after `srand`. -/
  srand : UInt32 → γ
  /-- A call of `rand`. -/
  rand : γ → BitVec 31 × γ

namespace Generator

variable {γ : Type} (R : Generator γ)

/-- The generator after some calls. -/
def after : ℕ → γ → γ
  | 0, g => g
  | n + 1, g => after n (R.rand g).2

/-- The number that a later call returns. -/
def draw (n : ℕ) (g : γ) : BitVec 31 := (R.rand (R.after n g)).1

/-- The generator for a seed that is an `int`. -/
def seeded (seed : BitVec 31) : γ := R.srand (UInt32.ofNat seed.toNat)

/-- The next `n` numbers, in hexadecimal. -/
def digits (n : ℕ) (g : γ) : Bytes := (List.range n).flatMap fun i => hex (R.draw i g).toNat

/-- What is made of the next four numbers. -/
def secret (g : γ) : Bytes := R.digits 4 g

end Generator

/-! ## The program -/

/-- `o->secret` : the buffer of `gen_secret`, or a copy that `strdup` has made. -/
inductive Secret
  | buf
  | copy (text : Bytes)
  deriving DecidableEq

/-- `oracle_t`.  The stages are those of the table `stage`. -/
structure Oracle where
  /-- `stage`. -/
  stage : Fin 4
  /-- `key`. -/
  key : BitVec 31
  /-- `secret`, which is a null pointer at first. -/
  secret : Option Secret

/-- The variables of the program. -/
structure State (γ : Type) where
  /-- `magic`. -/
  magic : BitVec 31
  /-- `oseed`, unless it is negative. -/
  oseed : Option (BitVec 31)
  /-- The generator. -/
  rand : γ
  /-- `buf` of `gen_secret`. -/
  buf : Bytes
  /-- `oracle`. -/
  oracle : Fin 2 → Oracle

/-- A process. -/
structure Process (γ : Type) where
  /-- The C library. -/
  R : Generator γ
  /-- `getpid()`. -/
  pid : BitVec 31
  /-- `time(0)`, as far as `srand` takes it. -/
  time : UInt32
  /-- It runs the patched version. -/
  patched : Bool

variable {γ : Type}

/-- `snprintf(buf+len, 10, "%x", rand())` : the buffer, `len` and the generator afterwards. -/
def print (R : Generator γ) (buf : Bytes) (len : ℕ) (g : γ) : Option (Bytes × ℕ × γ) :=
  let text := hex (R.rand g).1.toNat
  (store buf len (text.take 9 ++ [0])).map fun buf => (buf, len + text.length, (R.rand g).2)

/-- Several such lines. -/
def prints (R : Generator γ) : ℕ → Bytes → ℕ → γ → Option (Bytes × ℕ × γ)
  | 0, buf, len, g => some (buf, len, g)
  | n + 1, buf, len, g => do
      let (buf, len, g) ← print R buf len g
      prints R n buf len g

/-- `gen_secret`, which returns `buf`. -/
def genSecret (R : Generator γ) (s : State γ) (k1 k2 : BitVec 31) : Option (State γ) := do
  let s := match s.oseed with
    | some _ => s
    | none =>
        let oseed := s.magic ^^^ k1 ^^^ k2
        { s with oseed := some oseed, rand := R.seeded oseed }
  let (buf, len, g) ← prints R 4 s.buf 0 s.rand
  let buf ← store buf len [0]
  some { s with buf, rand := g }

/-- `msg2key`, where -1 is `none`. -/
def msg2key (msg : Bytes) (len : ℕ) : Option (BitVec 31) :=
  let n := len / 4 + if len % 4 = 0 then 0 else 1
  if n = 0 then none
  else
    let key := (List.range n).foldl
      (fun key i => key ^^^ BitVec.ofNat 32 (ofLE ((msg.drop (4 * i)).take 4))) 0
    some (key.setWidth 31)

/-- `fgets(buf, sizeof(buf), stdin)` : the buffer afterwards, which stays as it is at the end of the
input. -/
def readLine (buf stdin : Bytes) : Option Bytes :=
  if stdin = [] then some buf else store buf 0 (fgets buf.length stdin ++ [0])

/-- What the program answers. -/
inductive Reply
  /-- `** Invalid message.` -/
  | invalid
  /-- `** Thank you for your message, let me generate a secret for you.` -/
  | thanks
  /-- `*** Good Job!`, with the flag. -/
  | goodJob
  /-- `*** No no no ...` -/
  | no
  /-- The secret and the seed. -/
  | secret (text : Bytes) (seed : Option (BitVec 31))
  /-- `** Invalid input`. -/
  | input (ch : UInt8)
  deriving DecidableEq

/-- Another oracle in an array. -/
def State.setOracle (s : State γ) (i : Fin 2) (o : Oracle) : State γ :=
  { s with oracle := Function.update s.oracle i o }

/-- The string that `o->secret` points to; a null pointer has none. -/
def State.secretText (s : State γ) (i : Fin 2) : Option Bytes :=
  (s.oracle i).secret.bind fun
    | .buf => stringAt 0 s.buf 0
    | .copy text => some text

/-- The pointer that `oracle_init` keeps: to the buffer, or to what `strdup` makes of it. -/
def keep (patched : Bool) (buf : Bytes) : Option Secret :=
  if patched then (stringAt 0 buf 0).map .copy else some .buf

/-- `oracle_init`, with its buffer and the input. -/
def oracleInit (P : Process γ) (s : State γ) (i : Fin 2) (buf stdin : Bytes) :
    Option (State γ × Reply) := do
  let buf ← readLine buf stdin
  let msg ← stringAt 0 buf 0
  match msg2key buf msg.length with
  | none => some (s, .invalid)
  | some userkey =>
      let key := (P.R.rand s.rand).1 ^^^ P.pid
      let s := { s with rand := (P.R.rand s.rand).2 }
      let s ← genSecret P.R (s.setOracle i { s.oracle i with key }) key userkey
      let secret ← keep P.patched s.buf
      some (s.setOracle i { s.oracle i with
        secret := some secret, stage := (s.oracle i).stage + 1 }, .thanks)

/-- The delimiters of a guess. -/
def isDelim (b : UInt8) : Bool := b = ch ' ' || b = ch '\t' || b = ch '\n' || b = ch '\r'

/-- `oracle_guess`.  It is undefined for a line without a guess. -/
def oracleGuess (s : State γ) (i : Fin 2) (buf stdin : Bytes) : Option (State γ × Reply) := do
  let buf ← readLine buf stdin
  let (guess, _) ← (← nextToken 0 isDelim buf 0)
  let secret ← s.secretText i
  if guess = secret then some (s.setOracle i { s.oracle i with stage := 0 }, .goodJob)
  else some (s.setOracle i { s.oracle i with stage := (s.oracle i).stage + 1 }, .no)

/-- `oracle_show`. -/
def oracleShow (s : State γ) (i : Fin 2) : Option (State γ × Reply) := do
  let secret ← s.secretText i
  some ({ s.setOracle i { s.oracle i with stage := (s.oracle i).stage + 1 } with oseed := none },
    .secret secret s.oseed)

/-- What the menu and a task find: the input at each, and the buffer of the task. -/
structure Event where
  /-- The input at the menu. -/
  menu : Bytes
  /-- The buffer of the task. -/
  buf : Bytes
  /-- The input of the task. -/
  stdin : Bytes

/-- The task of the table `stage` that an oracle has to do. -/
def task (P : Process γ) (s : State γ) (i : Fin 2) (e : Event) : Option (State γ × Reply) :=
  match (s.oracle i).stage with
  | 0 => oracleInit P s i e.buf e.stdin
  | 1 => oracleGuess s i e.buf e.stdin
  | 2 => oracleGuess s i e.buf e.stdin
  | 3 => oracleShow s i

/-- One turn of the loop in `main`, which ends with `q` or the input. -/
def next (P : Process γ) (s : State γ) (e : Event) : Option (State γ × Reply) :=
  let c := e.menu.headD (ch 'q')
  if c = ch 'q' then none
  else if c = ch '1' then task P s 0 e
  else if c = ch '2' then task P s 1 e
  else some (s, .input c)

/-- The program before its loop. -/
def start (P : Process γ) : State γ where
  magic := (P.R.rand (P.R.srand (P.time ^^^ UInt32.ofNat P.pid.toNat))).1
  oseed := none
  rand := (P.R.rand (P.R.srand (P.time ^^^ UInt32.ofNat P.pid.toNat))).2
  buf := List.replicate 64 0
  oracle := fun _ => ⟨0, 0, none⟩

/-- The program. -/
def system (P : Process γ) : Machine (State γ) Event Reply := ⟨start P, next P⟩

/-- The history of a run. -/
abbrev History (γ : Type) := List (Moment (State γ) Event Reply)

/-! ## The secret -/

/-- What an event types at the menu, if it is the number of an oracle. -/
def Event.choice (e : Event) : Option (Fin 2) :=
  let c := e.menu.headD (ch 'q')
  if c = ch '1' then some 0 else if c = ch '2' then some 1 else none

/-- The key of the message that is typed. -/
def Event.key (e : Event) : Option (BitVec 31) := do
  let buf ← readLine e.buf e.stdin
  let msg ← stringAt 0 buf 0
  msg2key buf msg.length

/-- The guess that is typed. -/
def Event.guess (e : Event) : Option Bytes := do
  let buf ← readLine e.buf e.stdin
  let (guess, _) ← (← nextToken 0 isDelim buf 0)
  some guess

/-- The seed that is in use when a secret is generated. -/
def State.seed (s : State γ) (k1 k2 : BitVec 31) : BitVec 31 :=
  s.oseed.getD (s.magic ^^^ k1 ^^^ k2)

/-- The generator that a secret is drawn from: a new one, if there is no seed. -/
def State.source (R : Generator γ) (s : State γ) (k1 k2 : BitVec 31) : γ :=
  match s.oseed with
  | some _ => s.rand
  | none => R.seeded (s.magic ^^^ k1 ^^^ k2)

section secret

variable (R : Generator γ)

theorem digits_succ (n : ℕ) (g : γ) :
    R.digits (n + 1) g = hex (R.rand g).1.toNat ++ R.digits n (R.rand g).2 := by
  rw [Generator.digits, List.range_succ_eq_map, List.flatMap_cons, List.flatMap_map]
  rfl

/-- A number has eight digits at most. -/
theorem length_digits_le (n : ℕ) (g : γ) : (R.digits n g).length ≤ 8 * n := by
  induction n generalizing g with
  | zero => exact Nat.le_refl 0
  | succ n ih =>
      have hlen := length_hex (R.rand g).1.isLt
      have hrest := ih (R.rand g).2
      rw [digits_succ, List.length_append]
      omega

theorem mem_secret {g : γ} {b : UInt8} (h : b ∈ R.secret g) : ∃ d < 16, b = hexChar d := by
  obtain ⟨n, -, hb⟩ := List.mem_flatMap.mp h
  exact mem_hex hb

theorem secret_ne_nil (g : γ) : R.secret g ≠ [] := by
  rw [Generator.secret, digits_succ]
  exact List.append_ne_nil_of_left_ne_nil (hex_ne_nil _) _

/-- The digits are no delimiters. -/
theorem inToken_of_mem_secret {g : γ} {b : UInt8} (h : b ∈ R.secret g) :
    inToken 0 isDelim b = true := by
  have hall : ∀ d : Fin 16, inToken 0 isDelim (hexChar d) = true := by decide +kernel
  obtain ⟨d, hd, rfl⟩ := mem_secret R h
  exact hall ⟨d, hd⟩

theorem zero_notMem_secret (g : γ) : 0 ∉ R.secret g := by
  intro h
  have hin := inToken_of_mem_secret R h
  simp [inToken] at hin

/-- A number, behind what has been printed: no text is cut. -/
theorem print_eq (t rest : Bytes) (hroom : 9 ≤ rest.length) (g : γ) :
    ∃ rest', print R (t ++ rest) t.length g
        = some (t ++ hex (R.rand g).1.toNat ++ rest', (t ++ hex (R.rand g).1.toNat).length,
          (R.rand g).2) ∧
      rest.length = (hex (R.rand g).1.toNat).length + rest'.length := by
  have hlen := length_hex (R.rand g).1.isLt
  have htake : (hex (R.rand g).1.toNat).take 9 = hex (R.rand g).1.toNat :=
    List.take_of_length_le (by omega)
  have hfits : (hex (R.rand g).1.toNat ++ [0]).length ≤ rest.length := by
    rw [List.length_append, List.length_singleton]
    omega
  refine ⟨[0] ++ rest.drop (hex (R.rand g).1.toNat ++ [0]).length, ?_, ?_⟩
  · rw [print]
    simp only [htake, store_append t hfits, Option.map_some, List.append_assoc, List.length_append]
  · simp only [List.length_append, List.length_drop, List.length_singleton] at hfits ⊢
    omega

/-- Several numbers, behind what has been printed. -/
theorem prints_eq (n : ℕ) (t rest : Bytes) (hroom : 8 * n < rest.length) (g : γ) :
    ∃ rest', prints R n (t ++ rest) t.length g
        = some (t ++ R.digits n g ++ rest', (t ++ R.digits n g).length, R.after n g) ∧
      rest.length = (R.digits n g).length + rest'.length := by
  induction n generalizing t rest g with
  | zero =>
      rw [Generator.digits, List.range_zero, List.flatMap_nil, List.append_nil]
      exact ⟨rest, rfl, (Nat.zero_add _).symm⟩
  | succ n ih =>
      have hlen := length_hex (R.rand g).1.isLt
      obtain ⟨rest₁, hprint, hrest₁⟩ := print_eq R t rest (by omega) g
      obtain ⟨rest₂, hprints, hrest₂⟩ := ih (t ++ hex (R.rand g).1.toNat) rest₁ (by omega)
        (R.rand g).2
      refine ⟨rest₂, ?_, ?_⟩
      · show (print R (t ++ rest) t.length g).bind _ = _
        rw [hprint, digits_succ, ← List.append_assoc t]
        exact hprints
      · rw [digits_succ, List.length_append]
        omega

/-- A call of `gen_secret`. -/
theorem genSecret_eq {s : State γ} (hbuf : s.buf.length = 64) (k1 k2 : BitVec 31) :
    ∃ rest, genSecret R s k1 k2 = some { s with
        oseed := some (s.seed k1 k2)
        rand := R.after 4 (s.source R k1 k2)
        buf := R.secret (s.source R k1 k2) ++ 0 :: rest } ∧
      (R.secret (s.source R k1 k2) ++ 0 :: rest).length = 64 := by
  obtain ⟨rest, hprints, hrest⟩ := prints_eq R 4 [] s.buf (by omega) (s.source R k1 k2)
  have hlen := length_digits_le R 4 (s.source R k1 k2)
  rw [List.nil_append, List.nil_append] at hprints
  have hfits : ([0] : Bytes).length ≤ rest.length := by
    rw [List.length_singleton]
    omega
  refine ⟨rest.drop 1, ?_, ?_⟩
  · cases hseed : s.oseed <;>
      simp only [State.source, State.seed, hseed, genSecret, Generator.secret] at hprints ⊢
    all_goals
      rw [List.length_nil] at hprints
      rw [hprints]
      show (store _ _ _).bind _ = _
      rw [store_append _ hfits]
      rfl
  · rw [Generator.secret, List.length_append, List.length_cons, List.length_drop]
    rw [List.length_singleton] at hfits
    omega

end secret

/-! ## Lines -/

/-- What `fgets` leaves in a buffer. -/
theorem readLine_eq {buf stdin : Bytes} (hbuf : buf.length = 128) (hne : stdin ≠ []) :
    readLine buf stdin
      = some (fgets 128 stdin ++ 0 :: buf.drop ((fgets 128 stdin).length + 1)) := by
  have hlen := length_fgets_le 128 stdin
  have hfits : (fgets 128 stdin ++ [0]).length ≤ buf.length := by
    rw [List.length_append, List.length_singleton]
    omega
  have hstore := store_append [] hfits
  rw [readLine, if_neg hne, hbuf]
  simpa using hstore

/-- The guess is the first word of the line. -/
theorem guess_eq {e : Event} (hbuf : e.buf.length = 128) (hne : e.stdin ≠ []) :
    e.guess = if firstToken 0 isDelim (fgets 128 e.stdin) = [] then none
      else some (firstToken 0 isDelim (fgets 128 e.stdin)) := by
  set rest := e.buf.drop ((fgets 128 e.stdin).length + 1) with hrest
  have hended : Ended 0 isDelim (fgets 128 e.stdin ++ 0 :: rest) := by
    refine ⟨0, ?_, rfl⟩
    rw [List.dropWhile_append]
    split_ifs
    · exact List.mem_cons_self
    · exact List.mem_append_right _ List.mem_cons_self
  rw [Event.guess, readLine_eq hbuf hne]
  show (nextToken 0 isDelim _ 0).bind _ = _
  rw [nextToken_eq rfl (Nat.zero_le _), List.drop_zero, if_pos hended, firstToken_append_nul rfl]
  split_ifs <;> rfl

/-! ## Steps -/

/-- The key that an oracle takes. -/
def State.key (P : Process γ) (s : State γ) : BitVec 31 := (P.R.rand s.rand).1 ^^^ P.pid

/-- The generator that the secret is drawn from when a key is typed. -/
def State.drawn (P : Process γ) (s : State γ) (userkey : BitVec 31) : γ :=
  State.source P.R { s with rand := (P.R.rand s.rand).2 } (s.key P) userkey

/-- The state after an oracle has been talked to; `rest` stays behind the secret. -/
def State.talked (P : Process γ) (s : State γ) (i : Fin 2) (userkey : BitVec 31) (rest : Bytes) :
    State γ where
  magic := s.magic
  oseed := some (s.seed (s.key P) userkey)
  rand := P.R.after 4 (s.drawn P userkey)
  buf := P.R.secret (s.drawn P userkey) ++ 0 :: rest
  oracle := Function.update s.oracle i ⟨(s.oracle i).stage + 1, s.key P,
    some (if P.patched then .copy (P.R.secret (s.drawn P userkey)) else .buf)⟩

/-- What a turn of the loop does. -/
inductive Step (P : Process γ) (s : State γ) (e : Event) : State γ → Reply → Prop
  | input (c : UInt8) (hchoice : e.choice = none) : Step P s e s (.input c)
  | invalid (i : Fin 2) (hchoice : e.choice = some i) (hstage : (s.oracle i).stage = 0) :
      Step P s e s .invalid
  | talk (i : Fin 2) (userkey : BitVec 31) (rest : Bytes) (hchoice : e.choice = some i)
      (hstage : (s.oracle i).stage = 0) (hkey : e.key = some userkey)
      (hroom : (s.talked P i userkey rest).buf.length = 64) :
      Step P s e (s.talked P i userkey rest) .thanks
  | right (i : Fin 2) (secret : Bytes) (hchoice : e.choice = some i)
      (hstage : (s.oracle i).stage = 1 ∨ (s.oracle i).stage = 2)
      (hsecret : s.secretText i = some secret) (hguess : e.guess = some secret) :
      Step P s e (s.setOracle i { s.oracle i with stage := 0 }) .goodJob
  | wrong (i : Fin 2) (secret guess : Bytes) (hchoice : e.choice = some i)
      (hstage : (s.oracle i).stage = 1 ∨ (s.oracle i).stage = 2)
      (hsecret : s.secretText i = some secret) (hguess : e.guess = some guess)
      (hne : guess ≠ secret) :
      Step P s e (s.setOracle i { s.oracle i with stage := (s.oracle i).stage + 1 }) .no
  | told (i : Fin 2) (secret : Bytes) (hchoice : e.choice = some i)
      (hstage : (s.oracle i).stage = 3) (hsecret : s.secretText i = some secret) :
      Step P s e { s.setOracle i { s.oracle i with stage := 0 } with oseed := none }
        (.secret secret s.oseed)

section steps

variable {P : Process γ} {s s' : State γ} {e : Event} {o : Reply} {i : Fin 2}

theorem stage_ne_zero (hstage : (s.oracle i).stage = 1 ∨ (s.oracle i).stage = 2) :
    (s.oracle i).stage ≠ 0 := by
  rcases hstage with h | h <;> rw [h] <;> decide

/-- Another stage changes no secret. -/
theorem secret_setStage (n : Fin 4) (j : Fin 2) :
    ((s.setOracle i { s.oracle i with stage := n }).oracle j).secret = (s.oracle j).secret := by
  show (Function.update s.oracle i { s.oracle i with stage := n } j).secret = _
  by_cases hj : j = i
  · subst hj
    rw [Function.update_self]
  · rw [Function.update_of_ne hj]

theorem secretText_setStage (n : Fin 4) (j : Fin 2) :
    (s.setOracle i { s.oracle i with stage := n }).secretText j = s.secretText j := by
  rw [State.secretText, secret_setStage]
  rfl

/-- A message with a key. -/
theorem oracleInit_eq (hbuf : s.buf.length = 64) {userkey : BitVec 31}
    (hkey : e.key = some userkey) :
    ∃ rest, oracleInit P s i e.buf e.stdin = some (s.talked P i userkey rest, .thanks) ∧
      (s.talked P i userkey rest).buf.length = 64 := by
  obtain ⟨buf, hread, hkey⟩ := Option.bind_eq_some_iff.mp hkey
  obtain ⟨msg, hmsg, hkey⟩ := Option.bind_eq_some_iff.mp hkey
  set s₁ := State.setOracle { s with rand := (P.R.rand s.rand).2 } i
    { s.oracle i with key := s.key P } with hs₁
  obtain ⟨rest, hgen, hroom⟩ := genSecret_eq P.R (s := s₁) hbuf (s.key P) userkey
  refine ⟨rest, ?_, hroom⟩
  have hstring := stringAt_append [] (zero_notMem_secret P.R (s₁.source P.R (s.key P) userkey)) rest
  rw [oracleInit]
  show (readLine e.buf e.stdin).bind _ = _
  rw [hread]
  show (stringAt 0 buf 0).bind _ = _
  rw [hmsg]
  show (match msg2key buf msg.length with | none => _ | some userkey => _) = _
  rw [hkey]
  show (genSecret P.R s₁ (s.key P) userkey).bind _ = _
  rw [hgen]
  show (keep P.patched (_ ++ 0 :: rest)).bind _ = _
  rw [List.nil_append, List.length_nil] at hstring
  rw [keep, hstring]
  cases hpatched : P.patched
  all_goals
    simp [hs₁, hpatched, State.setOracle, State.talked, State.drawn, State.seed, State.source]

/-- A message without a key. -/
theorem oracleInit_invalid {buf msg : Bytes} (hread : readLine e.buf e.stdin = some buf)
    (hmsg : stringAt 0 buf 0 = some msg) (hkey : e.key = none) :
    oracleInit P s i e.buf e.stdin = some (s, .invalid) := by
  rw [Event.key, hread, Option.bind_eq_bind, Option.bind_some, hmsg] at hkey
  change msg2key buf msg.length = none at hkey
  rw [oracleInit, hread]
  show (stringAt 0 buf 0).bind _ = _
  rw [hmsg]
  show (match msg2key buf msg.length with | none => _ | some userkey => _) = _
  rw [hkey]

/-- What `oracle_init` does. -/
theorem oracleInit_cases (hbuf : s.buf.length = 64)
    (h : oracleInit P s i e.buf e.stdin = some (s', o)) :
    (s' = s ∧ o = .invalid) ∨ ∃ userkey rest, e.key = some userkey ∧
      s' = s.talked P i userkey rest ∧ o = .thanks ∧
      (s.talked P i userkey rest).buf.length = 64 := by
  cases hkey : e.key with
  | some userkey =>
      obtain ⟨rest, hinit, hroom⟩ := oracleInit_eq (P := P) (i := i) hbuf hkey
      rw [hinit] at h
      cases h
      exact Or.inr ⟨userkey, rest, rfl, rfl, rfl, hroom⟩
  | none =>
      obtain ⟨buf, hread, hrest⟩ := Option.bind_eq_some_iff.mp h
      obtain ⟨msg, hmsg, -⟩ := Option.bind_eq_some_iff.mp hrest
      rw [oracleInit_invalid hread hmsg hkey] at h
      cases h
      exact Or.inl ⟨rfl, rfl⟩

/-- A guess is compared with the secret. -/
theorem oracleGuess_eq {guess secret : Bytes} (hguess : e.guess = some guess)
    (hsecret : s.secretText i = some secret) :
    oracleGuess s i e.buf e.stdin = if guess = secret then
        some (s.setOracle i { s.oracle i with stage := 0 }, .goodJob)
      else some (s.setOracle i { s.oracle i with stage := (s.oracle i).stage + 1 }, .no) := by
  obtain ⟨buf, hread, hguess⟩ := Option.bind_eq_some_iff.mp hguess
  obtain ⟨token, htoken, hguess⟩ := Option.bind_eq_some_iff.mp hguess
  obtain ⟨⟨t, m⟩, rfl, hguess⟩ := Option.bind_eq_some_iff.mp hguess
  cases hguess
  rw [oracleGuess]
  show (readLine e.buf e.stdin).bind _ = _
  rw [hread]
  show (nextToken 0 isDelim buf 0).bind _ = _
  rw [htoken]
  show (s.secretText i).bind _ = _
  rw [hsecret]
  rfl

/-- Without a guess or a secret, `oracle_guess` is undefined. -/
theorem exists_of_oracleGuess (h : oracleGuess s i e.buf e.stdin = some (s', o)) :
    ∃ guess secret, e.guess = some guess ∧ s.secretText i = some secret := by
  obtain ⟨buf, hread, h⟩ := Option.bind_eq_some_iff.mp h
  obtain ⟨token, htoken, h⟩ := Option.bind_eq_some_iff.mp h
  obtain ⟨⟨t, m⟩, rfl, h⟩ := Option.bind_eq_some_iff.mp h
  change (s.secretText i).bind _ = _ at h
  obtain ⟨secret, hsecret, -⟩ := Option.bind_eq_some_iff.mp h
  refine ⟨t, secret, ?_, hsecret⟩
  rw [Event.guess, hread]
  show (nextToken 0 isDelim buf 0).bind _ = _
  rw [htoken]
  rfl

theorem oracleShow_eq {secret : Bytes} (hstage : (s.oracle i).stage = 3)
    (hsecret : s.secretText i = some secret) :
    oracleShow s i = some ({ s.setOracle i { s.oracle i with stage := 0 } with oseed := none },
      .secret secret s.oseed) := by
  rw [oracleShow, hsecret, hstage]
  rfl

/-- The number of an oracle at the menu. -/
theorem next_of_choice (h : e.choice = some i) : next P s e = task P s i e := by
  rw [Event.choice] at h
  rw [next]
  split_ifs at h with hone htwo
  · cases h
    simp only [hone]
    exact (if_neg (by decide)).trans (if_pos trivial)
  · cases h
    simp only [htwo]
    exact (if_neg (by decide)).trans ((if_neg (by decide)).trans (if_pos trivial))

/-- What a turn can do. -/
theorem step_of_next (hbuf : s.buf.length = 64) (h : next P s e = some (s', o)) :
    Step P s e s' o := by
  cases hchoice : e.choice with
  | none =>
      rw [next] at h
      rw [Event.choice] at hchoice
      split_ifs at h hchoice
      cases h
      exact .input _ (by rw [Event.choice]; split_ifs; rfl)
  | some i =>
      rw [next_of_choice hchoice] at h
      have hstages : ∀ x : Fin 4, x = 0 ∨ x = 1 ∨ x = 2 ∨ x = 3 := by decide
      have hguesses : (s.oracle i).stage = 1 ∨ (s.oracle i).stage = 2 →
          oracleGuess s i e.buf e.stdin = some (s', o) → Step P s e s' o := by
        intro hstage h
        obtain ⟨guess, secret, hguess, hsecret⟩ := exists_of_oracleGuess h
        rw [oracleGuess_eq hguess hsecret] at h
        split_ifs at h with heq
        · cases h
          exact .right i secret hchoice hstage hsecret (heq ▸ hguess)
        · cases h
          exact .wrong i secret guess hchoice hstage hsecret hguess heq
      rcases hstages (s.oracle i).stage with hstage | hstage | hstage | hstage
      · rw [task, hstage] at h
        rcases oracleInit_cases hbuf h with ⟨rfl, rfl⟩ | ⟨userkey, rest, hkey, rfl, rfl, hroom⟩
        · exact .invalid i hchoice hstage
        · exact .talk i userkey rest hchoice hstage hkey hroom
      · rw [task, hstage] at h
        exact hguesses (Or.inl hstage) h
      · rw [task, hstage] at h
        exact hguesses (Or.inr hstage) h
      · rw [task, hstage] at h
        obtain ⟨secret, hsecret, -⟩ := Option.bind_eq_some_iff.mp h
        change oracleShow s i = some (s', o) at h
        rw [oracleShow_eq hstage hsecret] at h
        cases h
        exact .told i secret hchoice hstage hsecret

end steps

end Oracles
