/-
# The proof of work of the services

The services of the labs let a client in that solves a puzzle: for a prefix it has to find bytes
such that the SHA-1 digest of the two begins with six zeros in hexadecimal.  It answers with the
bytes in base64.  The check is the function `pow` of `webcrawler.cpp`, which keeps everything in one
buffer of 512 bytes; the clients are `solve.c` and `pow.py`.

* `pow` : the check, on the buffer as it is before;
* `pow_eq` : what it answers for each line;
* `solve`, `solvePow` : the two clients;
* `Finds`, `solve_finds`, `solvePow_finds` : they find the first answer that is accepted.

SHA-1 is a parameter.  An answer without text leaves `olen` without a value, and what follows is
undefined.

* source : `Lab/7/Web Crawler/webcrawler.cpp`, `Lab/PoW/solve.c`, `Lab/PoW/pow.py`
-/
import IntroNP.Base64
import IntroNP.Conversions
import IntroNP.Pieces

namespace ProofOfWork

open Block Base64

/-! ## The check -/

/-- A hexadecimal digit. -/
def hexChar (d : ℕ) : UInt8 := UInt8.ofNat (Nat.digitChar d).toNat

/-- The conversion `%x`. -/
def hex (n : ℕ) : Bytes := (Nat.toDigits 16 n).map fun c => UInt8.ofNat c.toNat

/-- The conversion `%2.2x` of a byte. -/
def hex2 (b : UInt8) : Bytes := [hexChar (b.toNat / 16), hexChar (b.toNat % 16)]

/-- The delimiters of the line. -/
def isEol (b : UInt8) : Bool := b = ch '\n' || b = ch '\r'

/-- The number of leading zeros that are asked for. -/
def difficulty : ℕ := 6

/-- `pow`, with the contents of `buf` before the call, the value of `rand()` and the input.  It is
undefined outside of the buffer, and where `olen` is used without a value. -/
def pow (sha1 : Bytes → Bytes) (buf : Bytes) (rand : ℕ) (stdin : Bytes) : Option ℤ := do
  let prefx := hex rand
  let buf ← store buf 0 (prefx ++ [0])
  if stdin = [] then some (-1)
  else
    let buf ← store buf prefx.length (fgets (512 - prefx.length) stdin ++ [0])
    match ← strtok 0 isEol buf 0 with
    | none => some (-1)
    | some token =>
        let s ← stringAt 0 token.block prefx.length
        let (buf, olen) ← b64decode token.block prefx.length s.length prefx.length
        let olen ← olen
        let cksum := sha1 (buf.take (prefx.length + olen))
        let buf ← storeStrings 0 2 (cksum.map hex2) 0 buf
        if ∀ i < difficulty, buf[i]? = some (ch '0') then some 0 else some (-1)

/-- The text of a line that is decoded: what stands before the end of the line. -/
def answer (line : Bytes) : Bytes := line.takeWhile (inToken 0 isEol)

/-- The digest begins with six zeros. -/
def Solves (sha1 : Bytes → Bytes) (prefx s : Bytes) : Prop :=
  (sha1 (prefx ++ s)).take 3 = [0, 0, 0]

instance (sha1 : Bytes → Bytes) (prefx s : Bytes) : Decidable (Solves sha1 prefx s) :=
  inferInstanceAs (Decidable (_ = _))

/-! ## Digits -/

theorem mem_hex {n : ℕ} {b : UInt8} (h : b ∈ hex n) : ∃ d < 16, b = hexChar d := by
  induction n using Nat.strong_induction_on with
  | _ n ih =>
      rw [hex, Nat.toDigits_eq_if (by omega)] at h
      split_ifs at h with hn
      · exact ⟨n, hn, List.mem_singleton.mp h⟩
      · rw [List.map_append] at h
        rcases List.mem_append.mp h with h | h
        · exact ih (n / 16) (Nat.div_lt_self (by omega) (by omega)) h
        · exact ⟨n % 16, Nat.mod_lt n (by omega), List.mem_singleton.mp h⟩

theorem inToken_hexChar {d : ℕ} (hd : d < 16) : inToken 0 isEol (hexChar d) = true := by
  have h : ∀ d : Fin 16, inToken 0 isEol (hexChar d) = true := by decide +kernel
  exact h ⟨d, hd⟩

theorem hexChar_eq_zero {d : ℕ} (hd : d < 16) : hexChar d = ch '0' ↔ d = 0 := by
  have h : ∀ d : Fin 16, hexChar d = ch '0' ↔ (d : ℕ) = 0 := by decide +kernel
  exact h ⟨d, hd⟩

/-- A byte is written with two zeros only if it is zero. -/
theorem hex2_eq_zeros (b : UInt8) : hex2 b = [ch '0', ch '0'] ↔ b = 0 := by
  have hb : b.toNat < 256 := b.toNat_lt
  rw [hex2, List.cons.injEq, List.cons.injEq, hexChar_eq_zero (by omega),
    hexChar_eq_zero (by omega), ← UInt8.toNat_inj]
  constructor
  · rintro ⟨hhigh, hlow, -⟩
    show b.toNat = 0
    omega
  · intro h
    have hzero : b.toNat = 0 := h
    exact ⟨by omega, by omega, rfl⟩

/-- A value of `rand()` has at most eight digits. -/
theorem length_hex {n : ℕ} (h : n < 2 ^ 31) : (hex n).length ≤ 8 := by
  rw [hex, List.length_map, Nat.length_toDigits_le_iff (by omega) (by omega)]
  omega

/-! ## The check, step by step -/

/-- The first three bytes of a digest are zero if six zeros are written for them. -/
theorem exists_three {cksum : Bytes} (h : cksum.length = 20) : ∃ a b c rest,
    cksum = a :: b :: c :: rest ∧ (cksum.take 3 = [0, 0, 0]
      ↔ hex2 a = [ch '0', ch '0'] ∧ hex2 b = [ch '0', ch '0'] ∧ hex2 c = [ch '0', ch '0']) := by
  obtain ⟨a, t, rfl⟩ := List.exists_cons_of_length_eq_add_one h
  obtain ⟨b, t, rfl⟩ := List.exists_cons_of_length_eq_add_one (Nat.succ.inj h)
  obtain ⟨c, t, rfl⟩ := List.exists_cons_of_length_eq_add_one (Nat.succ.inj (Nat.succ.inj h))
  refine ⟨a, b, c, t, rfl, ?_⟩
  rw [hex2_eq_zeros, hex2_eq_zeros, hex2_eq_zeros]
  simp

/-- The digest in the buffer begins with six zeros if its first three bytes are zero. -/
theorem zeros_iff {cksum rest : Bytes} (h : cksum.length = 20) :
    (∀ i < difficulty, ((cksum.map hex2).flatten ++ rest)[i]? = some (ch '0'))
      ↔ cksum.take 3 = [0, 0, 0] := by
  obtain ⟨a, b, c, cksum, rfl, hbytes⟩ := exists_three h
  rw [hbytes]
  simp only [hex2, List.cons.injEq, and_true]
  constructor
  · intro h
    have hat : ∀ i < 6, _ := h
    exact ⟨⟨Option.some.inj (hat 0 (by omega)), Option.some.inj (hat 1 (by omega))⟩,
      ⟨Option.some.inj (hat 2 (by omega)), Option.some.inj (hat 3 (by omega))⟩,
      Option.some.inj (hat 4 (by omega)), Option.some.inj (hat 5 (by omega))⟩
  · rintro ⟨⟨h0, h1⟩, ⟨h2, h3⟩, h4, h5⟩ i hi
    have hi : i < 6 := hi
    obtain rfl | rfl | rfl | rfl | rfl | rfl : i = 0 ∨ i = 1 ∨ i = 2 ∨ i = 3 ∨ i = 4 ∨ i = 5 := by
      omega
    · exact congrArg some h0
    · exact congrArg some h1
    · exact congrArg some h2
    · exact congrArg some h3
    · exact congrArg some h4
    · exact congrArg some h5

/-- The digest is written over the buffer, and its first digits are compared. -/
theorem compare_digest {cksum m : Bytes} (h : cksum.length = 20) (hm : 40 < m.length) :
    ((storeStrings 0 2 (cksum.map hex2) 0 m).bind fun buf =>
        if ∀ i < difficulty, buf[i]? = some (ch '0') then some (0 : ℤ) else some (-1))
      = if cksum.take 3 = [0, 0, 0] then some 0 else some (-1) := by
  have htwo : ∀ t ∈ cksum.map hex2, t.length = 2 := by
    intro t ht
    obtain ⟨b, -, rfl⟩ := List.mem_map.mp ht
    rfl
  obtain ⟨rest, hstore, -⟩ := exists_storeStrings (0 : UInt8) htwo []
    (show (cksum.map hex2).length * 2 < m.length by rw [List.length_map, h]; exact hm)
  rw [List.nil_append, List.nil_append, List.length_nil] at hstore
  rw [hstore]
  show (if _ then _ else _) = _
  simp only [zeros_iff h]

/-- The buffer with the line in it is the prefix, the answer, and what ends it. -/
theorem exists_line (line rest : Bytes) :
    ∃ b r, inToken 0 isEol b = false ∧ line ++ [0] ++ rest = answer line ++ b :: r := by
  have hsplit := List.takeWhile_append_dropWhile (p := inToken 0 isEol) (l := line)
  cases hdrop : line.dropWhile (inToken 0 isEol) with
  | nil =>
      rw [hdrop, List.append_nil] at hsplit
      refine ⟨0, rest, rfl, ?_⟩
      rw [answer, hsplit, List.append_assoc]
      rfl
  | cons b r =>
      have hb := List.head_dropWhile_not (inToken 0 isEol) (l := line) (by rw [hdrop]; simp)
      refine ⟨b, r ++ [0] ++ rest, by simpa [hdrop] using hb, ?_⟩
      rw [hdrop] at hsplit
      conv_lhs => rw [← hsplit]
      simp [answer]

section check

variable {sha1 : Bytes → Bytes} {buf : Bytes} {rand : ℕ}

theorem hex_ne_nil (n : ℕ) : hex n ≠ [] := by
  intro h
  exact Nat.toDigits_ne_nil (List.map_eq_nil_iff.mp h)

/-- The line is read behind the prefix, and its end becomes a terminator. -/
theorem exists_token (hbuf : buf.length = 512) (hrand : rand < 2 ^ 31) (stdin : Bytes) :
    ∃ buf₁ buf₂ token rest, store buf 0 (hex rand ++ [0]) = some buf₁
      ∧ store buf₁ (hex rand).length (fgets (512 - (hex rand).length) stdin ++ [0]) = some buf₂
      ∧ strtok 0 isEol buf₂ 0 = some (some token)
      ∧ token.block
        = hex rand ++ (answer (fgets (512 - (hex rand).length) stdin) ++ 0 :: rest)
      ∧ token.block.length = 512 := by
  generalize hline : fgets (512 - (hex rand).length) stdin = line
  have hlen := length_hex hrand
  have hle : line.length ≤ 512 - (hex rand).length - 1 := by
    rw [← hline]
    exact length_fgets_le _ _
  -- `snprintf`
  have hfirst : store buf 0 (hex rand ++ [0]) = some (hex rand ++ 0 :: buf.drop
      ((hex rand).length + 1)) := by
    have hroom : (hex rand ++ [0]).length ≤ buf.length := by
      rw [List.length_append, List.length_singleton]
      omega
    have hstore := store_append [] hroom
    simpa using hstore
  -- `fgets`
  have hroom : (line ++ [0]).length ≤ (0 :: buf.drop ((hex rand).length + 1)).length := by
    simp only [List.length_append, List.length_cons, List.length_drop, List.length_nil]
    omega
  have hsecond := store_append (hex rand) hroom
  obtain ⟨b, rest, hb, hrest⟩ := exists_line line
    ((0 :: buf.drop ((hex rand).length + 1)).drop (line ++ [0]).length)
  rw [hrest] at hsecond
  -- `strtok_r`
  have hword : ∀ c ∈ hex rand ++ answer line, inToken 0 isEol c = true := by
    intro c hc
    rcases List.mem_append.mp hc with hc | hc
    · obtain ⟨d, hd, rfl⟩ := mem_hex hc
      exact inToken_hexChar hd
    · exact List.mem_takeWhile_imp hc
  have hthird : strtok 0 isEol ([] ++ ([] ++ (hex rand ++ answer line ++ b :: rest))) 0 = _ :=
    strtok_token (List.forall_mem_nil _) hword
      (List.append_ne_nil_of_left_ne_nil (hex_ne_nil rand) _) hb
  rw [List.nil_append, List.nil_append, List.append_assoc, List.append_assoc] at hthird
  refine ⟨_, _, _, rest, hfirst, hsecond, hthird, rfl, ?_⟩
  have hlength : (hex rand ++ (answer line ++ b :: rest)).length = 512 := by
    rw [length_store hsecond, length_store hfirst, hbuf]
  simpa using hlength

/-- What `pow` answers. -/
theorem pow_eq (hsha1 : ∀ s, (sha1 s).length = 20) (hbuf : buf.length = 512)
    (hrand : rand < 2 ^ 31) (stdin : Bytes) : pow sha1 buf rand stdin
      = if stdin = [] then some (-1)
        else
          let s := answer (fgets (512 - (hex rand).length) stdin)
          if s = [] then none
          else if Solves sha1 (hex rand) (decoded (digitsOf s)) then some 0 else some (-1) := by
  obtain ⟨buf₁, buf₂, token, rest, hfirst, hsecond, htoken, hblock, hlen⟩ :=
    exists_token hbuf hrand stdin
  rw [pow]
  show (store buf 0 (hex rand ++ [0])).bind _ = _
  rw [hfirst]
  show (if stdin = [] then some (-1) else _) = _
  by_cases hnil : stdin = []
  · rw [if_pos hnil, if_pos hnil]
  rw [if_neg hnil, if_neg hnil]
  show (store buf₁ _ _).bind _ = _
  rw [hsecond]
  show (strtok 0 isEol buf₂ 0).bind _ = _
  rw [htoken]
  show (stringAt 0 token.block (hex rand).length).bind _ = _
  have hclean : 0 ∉ answer (fgets (512 - (hex rand).length) stdin) := by
    intro h
    have hin : inToken 0 isEol 0 = true := List.mem_takeWhile_imp h
    cases hin
  have hlast := stringAt_append (hex rand) hclean rest
  generalize answer (fgets (512 - (hex rand).length) stdin) = s at *
  rw [hblock] at hlen ⊢
  rw [hlast]
  simp only [List.length_append, List.length_cons] at hlen
  show (b64decode (hex rand ++ (s ++ 0 :: rest)) (hex rand).length s.length
    (hex rand).length).bind _ = if s = [] then none else _
  by_cases hs : s = []
  · -- `olen` has no value
    rw [if_pos hs, hs, b64decode, if_pos List.length_nil]
    cases store (hex rand ++ ([] ++ 0 :: rest)) (hex rand).length [0] <;> rfl
  · have hpos := List.length_pos_iff.mpr hs
    have hdecoded := length_decoded_le (digitsOf s)
    have hdigits := length_digitsOf_le s
    have hread : ∀ i < s.length,
        (hex rand ++ (s ++ 0 :: rest))[(hex rand).length + i]? = s[i]? := by
      intro i hi
      rw [List.getElem?_append_right (Nat.le_add_right _ _), Nat.add_sub_cancel_left,
        List.getElem?_append_left hi]
    have hdecode := b64decode_eq hs hread (Or.inl (Nat.le_refl _)) (by
      simp only [List.length_append, List.length_cons]
      omega)
    rw [store_append (hex rand) (by
      simp only [List.length_append, List.length_cons, List.length_nil]
      omega)] at hdecode
    rw [if_neg hs, hdecode]
    show (storeStrings 0 2 ((sha1 ((hex rand ++ (decoded (digitsOf s) ++ [0] ++ _)).take _)).map
      hex2) 0 _).bind _ = _
    rw [List.append_assoc, ← List.append_assoc, ← List.length_append, List.take_left]
    apply compare_digest (hsha1 _)
    simp only [List.length_append, List.length_cons, List.length_drop]
    omega

end check

/-- A check that succeeds, with the digest of the prefix `455c2e` and the answer `0`. -/
theorem pow_accepts : pow (fun _ => [0, 0, 0, 61, 32, 29, 156, 163, 207, 141, 242, 127, 223, 119,
    227, 106, 170, 91, 40, 75]) (List.replicate 512 0) 4545582 (ascii "MA==\n") = some 0 :=
  (pow_eq (fun _ => rfl) List.length_replicate (by omega) _).trans (by decide +kernel)

/-! ## The clients -/

/-- The loop of `solve.c`, with the number of values that are left.  It returns what is printed as
the solution, if there is one. -/
def solveLoop (sha1 : Bytes → Bytes) (len zeros : ℕ) :
    ℕ → ℕ → Bytes → Bytes → Option (Option Bytes)
  | 0, _, _, _ => some none
  | n + 1, i, input, cksum => do
      let input ← store input len (leBytes 4 i)
      let cksum ← storeStrings 0 2 ((sha1 (input.take (len + 4))).map hex2) 0 cksum
      if ∀ z < zeros, cksum[z]? = some (ch '0') then
        let input ← store input 0 (b64encode (leBytes 4 i)).1
        (stringAt 0 input 0).map some
      else solveLoop sha1 len zeros n (i + 1) input cksum

/-- `solve.c` for its two arguments, with the contents of `input` and `cksum` before. -/
def solve (sha1 : Bytes → Bytes) (input cksum prefx : Bytes) (zeros : ℕ) : Option (Option Bytes) :=
  (store input 0 (prefx.take 127 ++ [0])).bind fun input =>
    solveLoop sha1 prefx.length zeros 1073741824 0 input cksum

/-- What `pow` prints before it reads. -/
def greeting (rand : ℕ) : Bytes :=
  ascii "Proof-of-Work Access Rate Control: Given a prefix P = '" ++ hex rand ++ ascii "'.\n"
    ++ ascii "Please send me a base64-encoded string S so that the hexdigest of\n"
    ++ ascii "sha1(P+decode(S)) has at least 6 leading zeros.\n" ++ ascii "Enter your string S: "

/-- `solve_pow` of `pow.py`: the line that it sends, for what it has received. -/
def solvePow (sha1 : Bytes → Bytes) (received : Bytes) : Option Bytes := do
  let prefx ← (pieces (ch '\'') (received.takeWhile (· ≠ ch '\n') ++ [ch '\n']))[1]?
  let solved := ((List.range 1000000000).find? fun i =>
    ((sha1 (prefx ++ dec i)).flatMap hex2).take 6 = ascii "000000").map dec
  some (text (sextets (solved.getD [])) ++ [ch '\n'])

/-- The first answer that is accepted, among the first ones of a sequence. -/
def Finds (sha1 : Bytes → Bytes) (buf : Bytes) (rand : ℕ) (answers : ℕ → Bytes) (n : ℕ)
    (line : Option Bytes) : Prop :=
  match line with
  | some s => ∃ i < n, s = text (sextets (answers i))
      ∧ (∀ rest, pow sha1 buf rand (s ++ ch '\n' :: rest) = some 0)
      ∧ ∀ j < i, ∀ rest,
        pow sha1 buf rand (text (sextets (answers j)) ++ ch '\n' :: rest) = some (-1)
  | none => ∀ j < n, ∀ rest,
      pow sha1 buf rand (text (sextets (answers j)) ++ ch '\n' :: rest) = some (-1)

section clients

variable {sha1 : Bytes → Bytes} {buf : Bytes} {rand : ℕ}

theorem length_text (ds : List ℕ) : (text ds).length = (ds.length + 3) / 4 * 4 := by
  rw [text, List.length_append, List.length_map, List.length_replicate]
  omega

theorem inToken_text {ds : List ℕ} (h : ∀ d ∈ ds, d < 64) :
    ∀ c ∈ text ds, inToken 0 isEol c = true := by
  have hletters : ∀ d : Fin 64, inToken 0 isEol (t d) = true := by decide +kernel
  intro c hc
  rcases List.mem_append.mp hc with hc | hc
  · obtain ⟨d, hd, rfl⟩ := List.mem_map.mp hc
    exact hletters ⟨d, h d hd⟩
  · rw [List.eq_of_mem_replicate hc]
    rfl

/-- A short answer is checked as a whole. -/
theorem pow_text (hsha1 : ∀ s, (sha1 s).length = 20) (hbuf : buf.length = 512)
    (hrand : rand < 2 ^ 31) {s : Bytes} (hs : s ≠ []) (hlen : s.length ≤ 300) (rest : Bytes) :
    pow sha1 buf rand (text (sextets s) ++ ch '\n' :: rest)
      = if Solves sha1 (hex rand) s then some 0 else some (-1) := by
  have hhex := length_hex hrand
  have htext := length_text (sextets s)
  rw [length_sextets] at htext
  have hin := inToken_text (sextets_lt s)
  have hscan : ∀ u : Bytes, (text (sextets s) ++ ch '\n' :: u).takeWhile (· ≠ ch '\n')
      = text (sextets s) := by
    intro u
    apply takeWhile_append_stop
    · intro c hc
      rw [decide_eq_true_eq]
      rintro rfl
      have hend := hin _ hc
      cases hend
    · simp
  have hfgets : fgets (512 - (hex rand).length) (text (sextets s) ++ ch '\n' :: rest)
      = text (sextets s) ++ [ch '\n'] := by
    obtain ⟨u, hu⟩ : ∃ u, (text (sextets s) ++ ch '\n' :: rest).take (512 - (hex rand).length - 1)
        = text (sextets s) ++ ch '\n' :: u := by
      rw [List.take_append, List.take_of_length_le (by omega), List.take_cons (by omega)]
      exact ⟨_, rfl⟩
    have hdrop : (text (sextets s) ++ ch '\n' :: u).dropWhile (· ≠ ch '\n') = ch '\n' :: u := by
      have hsplit := List.takeWhile_append_dropWhile (p := fun b => decide (b ≠ ch '\n'))
        (l := text (sextets s) ++ ch '\n' :: u)
      rw [hscan] at hsplit
      exact List.append_cancel_left hsplit
    simp only [fgets, hu, hscan, hdrop]
    rfl
  have hanswer : answer (text (sextets s) ++ [ch '\n']) = text (sextets s) := by
    apply takeWhile_append_stop hin
    simp [inToken, isEol]
  have hdigits : sextets s ≠ [] := by
    intro h
    have hlength := length_sextets s
    rw [h, List.length_nil] at hlength
    have hpos := List.length_pos_iff.mpr hs
    omega
  have hnil : text (sextets s) ≠ [] := by
    intro h
    rw [h, List.length_nil] at htext
    have hpos := List.length_pos_iff.mpr hs
    omega
  have hdecoded : decoded (digitsOf (text (sextets s))) = s := by
    have htext : digitsOf (text (sextets s) ++ []) = sextets s := digitsOf_text (sextets_lt s) rfl
    rw [List.append_nil] at htext
    rw [htext, decoded_canonical (canonical_sextets s) hdigits, octets_sextets]
  rw [pow_eq hsha1 hbuf hrand, if_neg (by simp), hfgets, hanswer]
  simp only [if_neg hnil, hdecoded]

theorem length_digest (cksum : Bytes) : (cksum.map hex2).flatten.length = 2 * cksum.length := by
  induction cksum with
  | nil => rfl
  | cons b cksum ih =>
      rw [List.map_cons, List.flatten_cons, List.length_append, ih, List.length_cons, Nat.mul_succ,
        Nat.add_comm]
      rfl

/-- What `solve.c` prints for a value. -/
theorem print_answer {input : Bytes} (hinput : input.length = 128) (i : ℕ) :
    ((store input 0 (b64encode (leBytes 4 i)).1).bind fun input => (stringAt 0 input 0).map some)
      = some (some (text (sextets (leBytes 4 i)))) := by
  have hne : leBytes 4 i ≠ [] := List.cons_ne_nil _ _
  have hlength := length_text (sextets (leBytes 4 i))
  rw [length_sextets, length_leBytes] at hlength
  have hroom : (text (sextets (leBytes 4 i)) ++ [0]).length ≤ input.length := by
    rw [List.length_append, List.length_singleton]
    omega
  have hstore := store_append [] hroom
  have hclean : (0 : UInt8) ∉ text (sextets (leBytes 4 i)) := by
    intro h
    have hin := inToken_text (sextets_lt _) 0 h
    cases hin
  have hstring := stringAt_append [] hclean
    (input.drop (text (sextets (leBytes 4 i)) ++ [0]).length)
  rw [List.nil_append, List.nil_append, List.length_nil] at hstore
  rw [b64encode_eq hne, hstore, List.append_assoc]
  show (stringAt 0 (text (sextets (leBytes 4 i)) ++ 0 :: _) 0).map some = _
  exact congrArg (Option.map some) hstring

/-- The loop of `solve.c` stops at the first value that solves. -/
theorem solveLoop_eq (hsha1 : ∀ s, (sha1 s).length = 20) {prefx : Bytes} (n i : ℕ)
    {tail cksum : Bytes} (hinput : (prefx ++ tail).length = 128) (hroom : 4 ≤ tail.length)
    (hcksum : cksum.length = 64) :
    solveLoop sha1 prefx.length difficulty n i (prefx ++ tail) cksum
      = some (((List.range' i n).find? fun i => Solves sha1 prefx (leBytes 4 i)).map
          fun i => text (sextets (leBytes 4 i))) := by
  induction n generalizing i tail cksum with
  | zero => rfl
  | succ n ih =>
      have hfour := length_leBytes 4 i
      have hstore := store_append prefx (show (leBytes 4 i).length ≤ tail.length by
        rw [hfour]; exact hroom)
      rw [hfour] at hstore
      have htake : (prefx ++ (leBytes 4 i ++ tail.drop 4)).take (prefx.length + 4)
          = prefx ++ leBytes 4 i := by
        rw [← List.append_assoc, List.take_left' (by rw [List.length_append, hfour])]
      have htwo : ∀ t ∈ (sha1 (prefx ++ leBytes 4 i)).map hex2, t.length = 2 := by
        intro t ht
        obtain ⟨b, -, rfl⟩ := List.mem_map.mp ht
        rfl
      have hdigits : ((sha1 (prefx ++ leBytes 4 i)).map hex2).length = 20 := by
        rw [List.length_map, hsha1]
      obtain ⟨rest, hdigest, hrest⟩ := exists_storeStrings (0 : UInt8) htwo []
        (show _ * 2 < cksum.length by rw [hdigits, hcksum]; omega)
      rw [List.nil_append, List.nil_append, List.length_nil] at hdigest
      have hlength : (prefx ++ (leBytes 4 i ++ tail.drop 4)).length = 128 := by
        rw [length_store hstore, hinput]
      have hwritten : (((sha1 (prefx ++ leBytes 4 i)).map hex2).flatten ++ rest).length = 64 := by
        rw [List.length_append, hrest, hdigits, hcksum, length_digest, hsha1]
      rw [solveLoop, hstore]
      show (storeStrings 0 2 ((sha1 (List.take _ _)).map hex2) 0 cksum).bind _ = _
      rw [htake, hdigest, List.range'_succ]
      by_cases hsolves : Solves sha1 prefx (leBytes 4 i)
      · rw [List.find?_cons_of_pos (by simpa using hsolves)]
        exact (if_pos ((zeros_iff (hsha1 _)).mpr hsolves)).trans (print_answer hlength i)
      · rw [List.find?_cons_of_neg (by simpa using hsolves)]
        apply (if_neg (mt (zeros_iff (hsha1 _)).mp hsolves)).trans
        exact ih (i + 1) hlength (by rw [List.length_append, hfour]; omega) hwritten

/-- What is found first is accepted, and nothing before it is. -/
theorem finds_find? (hsha1 : ∀ s, (sha1 s).length = 20) (hbuf : buf.length = 512)
    (hrand : rand < 2 ^ 31) {answers : ℕ → Bytes} {n : ℕ}
    (hanswers : ∀ i < n, answers i ≠ [] ∧ (answers i).length ≤ 300) :
    Finds sha1 buf rand answers n
      (((List.range n).find? fun i => Solves sha1 (hex rand) (answers i)).map
        fun i => text (sextets (answers i))) := by
  have hpow : ∀ i < n, ∀ rest, pow sha1 buf rand (text (sextets (answers i)) ++ ch '\n' :: rest)
      = if Solves sha1 (hex rand) (answers i) then some 0 else some (-1) :=
    fun i hi => pow_text hsha1 hbuf hrand (hanswers i hi).1 (hanswers i hi).2
  cases hfind : (List.range n).find? fun i => Solves sha1 (hex rand) (answers i) with
  | none =>
      intro j hj rest
      rw [List.find?_range_eq_none] at hfind
      rw [hpow j hj, if_neg (by simpa using hfind j hj)]
  | some i =>
      obtain ⟨hsolves, hi, hbefore⟩ := List.find?_range_eq_some.mp hfind
      have hi := List.mem_range.mp hi
      refine ⟨i, hi, rfl, fun rest => ?_, fun j hj rest => ?_⟩
      · rw [hpow i hi, if_pos (by simpa using hsolves)]
      · rw [hpow j (hj.trans hi), if_neg (by simpa using hbefore j hj)]

/-- `solve.c` finds the first value that the service accepts. -/
theorem solve_finds (hsha1 : ∀ s, (sha1 s).length = 20) (hbuf : buf.length = 512)
    (hrand : rand < 2 ^ 31) {input cksum : Bytes} (hinput : input.length = 128)
    (hcksum : cksum.length = 64) : ∃ line,
      solve sha1 input cksum (hex rand) difficulty = some line
        ∧ Finds sha1 buf rand (leBytes 4) 1073741824 line := by
  have hhex := length_hex hrand
  have hroom : (hex rand ++ [0]).length ≤ input.length := by
    rw [List.length_append, List.length_singleton]
    omega
  have hstore := store_append [] hroom
  rw [List.nil_append, List.nil_append, List.append_assoc] at hstore
  have hlength := length_store hstore
  have hleft : 4 ≤ (([0] : Bytes) ++ input.drop (hex rand ++ [0]).length).length := by
    simp only [List.length_append, List.length_singleton, List.length_drop]
    omega
  rw [solve, List.take_of_length_le (by omega)]
  generalize (1073741824 : ℕ) = n
  refine ⟨((List.range n).find? fun i => Solves sha1 (hex rand) (leBytes 4 i)).map
    fun i => text (sextets (leBytes 4 i)), ?_, ?_⟩
  · show (store input ([] : Bytes).length _).bind _ = _
    rw [hstore, List.range_eq_range']
    exact solveLoop_eq hsha1 _ 0 (hlength.trans hinput) hleft hcksum
  · apply finds_find? hsha1 hbuf hrand
    intro i hi
    refine ⟨List.cons_ne_nil _ _, ?_⟩
    rw [length_leBytes]
    omega

/-- A prefix for which the first value solves, with the digest of the two. -/
theorem solve_finds_first : ∃ line,
    solve (fun _ => [0, 0, 0, 67, 2, 116, 212, 245, 140, 54, 163, 29, 26, 99, 8, 112, 180, 122, 163,
        166]) (List.replicate 128 0) (List.replicate 64 0) (hex 6256445) difficulty = some line
      ∧ Finds (fun _ => [0, 0, 0, 67, 2, 116, 212, 245, 140, 54, 163, 29, 26, 99, 8, 112, 180, 122,
        163, 166]) (List.replicate 512 0) 6256445 (leBytes 4) 1073741824 line :=
  solve_finds (fun _ => rfl) List.length_replicate (by omega) List.length_replicate
    List.length_replicate

/-- The six characters that `pow.py` compares. -/
theorem take_digest {cksum : Bytes} (h : cksum.length = 20) :
    (cksum.flatMap hex2).take 6 = ascii "000000" ↔ cksum.take 3 = [0, 0, 0] := by
  obtain ⟨a, b, c, cksum, rfl, hbytes⟩ := exists_three h
  rw [hbytes]
  show hex2 a ++ (hex2 b ++ hex2 c) = [ch '0', ch '0'] ++ ([ch '0', ch '0'] ++ [ch '0', ch '0']) ↔ _
  constructor
  · intro h
    obtain ⟨ha, h⟩ := List.append_inj h rfl
    exact ⟨ha, List.append_inj h rfl⟩
  · rintro ⟨ha, hb, hc⟩
    rw [ha, hb, hc]

/-- The prefix stands in the greeting between the first two quotes. -/
theorem prefix_greeting (rand : ℕ) :
    (pieces (ch '\'') ((greeting rand).takeWhile (· ≠ ch '\n') ++ [ch '\n']))[1]?
      = some (hex rand) := by
  have hdigit : ∀ c ∈ hex rand, c ≠ ch '\'' ∧ c ≠ ch '\n' := by
    have hall : ∀ d : Fin 16, hexChar d ≠ ch '\'' ∧ hexChar d ≠ ch '\n' := by decide +kernel
    intro c hc
    obtain ⟨d, hd, rfl⟩ := mem_hex hc
    exact hall ⟨d, hd⟩
  have hquote : ch '\'' ∉ hex rand := fun h => (hdigit _ h).1 rfl
  have hsplit : ascii "Proof-of-Work Access Rate Control: Given a prefix P = '"
      = ascii "Proof-of-Work Access Rate Control: Given a prefix P = " ++ [ch '\''] := by
    decide +kernel
  have hend : ascii "'.\n" = [ch '\'', ch '.', ch '\n'] := by decide +kernel
  have hstart : (ascii "Proof-of-Work Access Rate Control: Given a prefix P = ").all
      (fun c => decide (c ≠ ch '\n')) = true := by decide +kernel
  have hfirst : ch '\'' ∉ ascii "Proof-of-Work Access Rate Control: Given a prefix P = " := by
    decide +kernel
  rw [greeting, hsplit, hend]
  generalize ascii "Proof-of-Work Access Rate Control: Given a prefix P = " = first at *
  have hline : ∀ rest : Bytes, (first ++ [ch '\''] ++ hex rand ++ [ch '\'', ch '.', ch '\n']
      ++ rest).takeWhile (· ≠ ch '\n') = first ++ ch '\'' :: (hex rand ++ ch '\'' :: [ch '.']) := by
    intro rest
    rw [List.append_assoc, List.append_assoc, List.append_assoc,
      List.takeWhile_append_of_pos (List.all_eq_true.mp hstart)]
    show first ++ ch '\'' :: (hex rand ++ (ch '\'' :: ch '.' :: ch '\n' :: rest)).takeWhile _ = _
    rw [List.takeWhile_append_of_pos fun c hc => decide_eq_true (hdigit c hc).2]
    rfl
  rw [List.append_assoc _ _ (ascii "Enter your string S: "), List.append_assoc, hline,
    List.append_assoc, List.cons_append, pieces_append_sep hfirst, List.append_assoc,
    List.cons_append, pieces_append_sep hquote]
  rfl

/-- `pow.py` answers a greeting with the first number that the service accepts, if there is one. -/
theorem solvePow_finds (hsha1 : ∀ s, (sha1 s).length = 20) (hbuf : buf.length = 512)
    (hrand : rand < 2 ^ 31) : ∃ line,
      solvePow sha1 (greeting rand) = some (line.getD [] ++ [ch '\n'])
        ∧ Finds sha1 buf rand dec 1000000000 line := by
  have hshort : ∀ i < 1000000000, (dec i).length ≤ 300 := by
    intro i hi
    have hnine : (dec i).length ≤ 9 := by
      rw [dec, List.length_map, Nat.length_toDigits_le_iff (by omega) (by omega)]
      exact hi
    omega
  have hcond : (fun i => decide (((sha1 (hex rand ++ dec i)).flatMap hex2).take 6 = ascii "000000"))
      = fun i => decide (Solves sha1 (hex rand) (dec i)) := by
    funext i
    exact decide_eq_decide.mpr (take_digest (hsha1 _))
  rw [solvePow, prefix_greeting]
  generalize (1000000000 : ℕ) = n at *
  refine ⟨((List.range n).find? fun i => Solves sha1 (hex rand) (dec i)).map
    fun i => text (sextets (dec i)), ?_, ?_⟩
  · show some (text (sextets (Option.getD (((List.range n).find? _).map dec) [])) ++ _) = _
    rw [hcond]
    cases (List.range n).find? fun i => Solves sha1 (hex rand) (dec i) <;> rfl
  · apply finds_find? hsha1 hbuf hrand
    intro i hi
    refine ⟨fun h => ?_, hshort i hi⟩
    exact Nat.toDigits_ne_nil (List.map_eq_nil_iff.mp h)

/-- A greeting for which the first number solves, with the digest of the two. -/
theorem solvePow_finds_first : ∃ line,
    solvePow (fun _ => [0, 0, 0, 61, 32, 29, 156, 163, 207, 141, 242, 127, 223, 119, 227, 106, 170,
        91, 40, 75]) (greeting 4545582) = some (line.getD [] ++ [ch '\n'])
      ∧ Finds (fun _ => [0, 0, 0, 61, 32, 29, 156, 163, 207, 141, 242, 127, 223, 119, 227, 106, 170,
        91, 40, 75]) (List.replicate 512 0) 4545582 dec 1000000000 line :=
  solvePow_finds (fun _ => rfl) List.length_replicate (by omega)

end clients

end ProofOfWork
