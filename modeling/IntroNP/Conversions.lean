/-
# Conversions of the C library

What `scanf`, `std::istream::operator>>` and `inet_pton` read from a text, as far as the
programs of this development use them.  A stream that has failed is `none`; a conversion that
leaves its variable indeterminate is `none` as a whole.

* `scanInt` : the conversion `%d`;
* `extractWord`, `extractUInt` : extraction into a `char` array and into an unsigned integer;
* `scanInt_append`, `extractUInt_append`, `extractWord_append` : a field that fits is read exactly;
* `fgets`, `strtol` : a line, and a number in the base that its prefix tells;
* `extractUInt_eq_some`, `exists_of_extractWord` : what stands where an extraction succeeds;
* `inetPton4`, `inetPton6` : internet addresses; `inetPton4` accepts exactly the dotted quads of
  decimal numbers up to 255 without leading zeros.
-/
import IntroNP.Bytes

/-! ## Numbers -/

/-- An optional sign: whether it is a minus, and the rest. -/
def takeSign : Bytes → Bool × Bytes
  | [] => (false, [])
  | b :: s => if b = ch '-' then (true, s) else if b = ch '+' then (false, s) else (false, b :: s)

/-- The conversion `%d` into an `unsigned`: the digits are read as a 64-bit `long`, which
saturates, and the `long` is cut to 32 bits. -/
def scanInt (s : Bytes) : Option (UInt32 × Bytes) :=
  let (neg, s) := takeSign (skipSpace s)
  let ds := s.takeWhile isDigit
  if ds = [] then none
  else
    let n : ℤ := if neg then max (-decVal ds) (-2 ^ 63) else min (decVal ds) (2 ^ 63 - 1)
    some (UInt32.ofNat (n % 2 ^ 32).toNat, s.drop ds.length)

/-- Extraction into a `char` array of `n` bytes: the C string it holds then, and the rest. -/
def extractWord (n : ℕ) (s : Bytes) : Option (Bytes × Bytes) :=
  (scanSet (n - 1) (fun b => !isSpace b) (skipSpace s)).map fun r => (cstr r.1, r.2)

/-- Extraction into an unsigned integer of `w` bits: the value stored and the stream.  A text
that is no number stores 0 and a number that is too large stores the greatest one, and in both
cases the stream fails; at the end of the stream nothing is stored. -/
def extractUInt (w : ℕ) (s : Bytes) : Option (ℕ × Option Bytes) :=
  match skipSpace s with
  | [] => none
  | b :: s =>
      let (neg, s) := takeSign (b :: s)
      let ds := s.takeWhile isDigit
      if ds = [] then some (0, none)
      else if 2 ^ w ≤ decVal ds then some (2 ^ w - 1, none)
      else some (if neg then (2 ^ w - decVal ds) % 2 ^ w else decVal ds, some (s.drop ds.length))

/-! ## Internet addresses -/

/-- A decimal number up to 255 without a leading zero. -/
def IsOctet (t : Bytes) : Prop :=
  t ≠ [] ∧ (∀ b ∈ t, isDigit b = true) ∧ (t.length = 1 ∨ t.head? ≠ some (ch '0')) ∧ decVal t ≤ 255

instance (t : Bytes) : Decidable (IsOctet t) := inferInstanceAs (Decidable (_ ∧ _ ∧ _ ∧ _))

/-- The octet a text stands for. -/
def octet (t : Bytes) : Option UInt8 :=
  if IsOctet t then some (UInt8.ofNat (decVal t)) else none

/-- `inet_pton` of `AF_INET`. -/
def inetPton4 (s : Bytes) : Option Bytes :=
  match s.splitOn (ch '.') with
  | [a, b, c, d] => do return [← octet a, ← octet b, ← octet c, ← octet d]
  | _ => none

/-- The value of a hexadecimal digit. -/
def hexDigit (b : UInt8) : Option ℕ :=
  if isDigit b then some (digitVal b)
  else if 97 ≤ b.toNat ∧ b.toNat ≤ 102 then some (b.toNat - 87)
  else if 65 ≤ b.toNat ∧ b.toNat ≤ 70 then some (b.toNat - 55)
  else none

/-- The number at the beginning of a text, in a base. -/
def digitsVal (base : ℕ) : ℕ → Bytes → ℕ
  | n, [] => n
  | n, b :: s =>
      match hexDigit b with
      | some d => if d < base then digitsVal base (base * n + d) s else n
      | none => n

/-- `strtol` in base 0: the base is told by the prefix, and the number is cut to a `long`. -/
def strtol (s : Bytes) : ℤ :=
  let (neg, s) := takeSign (skipSpace s)
  let n := match s with
    | [] => 0
    | a :: s =>
        if a ≠ ch '0' then digitsVal 10 0 (a :: s)
        else match s with
          | b :: c :: s =>
              if (b = ch 'x' ∨ b = ch 'X') ∧ (hexDigit c).isSome then digitsVal 16 0 (c :: s)
              else digitsVal 8 0 (b :: c :: s)
          | s => digitsVal 8 0 s
  if neg then max (-n) (-2 ^ 63) else min n (2 ^ 63 - 1)

/-- `fgets` into `n` bytes, of an input that is not at its end: the line, without the terminator. -/
def fgets (n : ℕ) (stdin : Bytes) : Bytes :=
  let s := stdin.take (n - 1)
  s.takeWhile (· ≠ ch '\n') ++ (s.dropWhile (· ≠ ch '\n')).take 1

theorem length_fgets_le (n : ℕ) (stdin : Bytes) : (fgets n stdin).length ≤ n - 1 := by
  have hsplit := congrArg List.length (List.takeWhile_append_dropWhile
    (p := fun b => decide (b ≠ ch '\n')) (l := stdin.take (n - 1)))
  have htake := List.length_take_le (n - 1) stdin
  have hone := List.length_take_le' 1 ((stdin.take (n - 1)).dropWhile (· ≠ ch '\n'))
  rw [List.length_append] at hsplit
  simp only [fgets, List.length_append]
  omega

theorem length_fgets_pos {n : ℕ} (hn : 1 < n) {stdin : Bytes} (h : stdin ≠ []) :
    0 < (fgets n stdin).length := by
  obtain ⟨b, stdin, rfl⟩ := List.exists_cons_of_ne_nil h
  rw [fgets, List.take_cons (by omega)]
  by_cases hb : b = ch '\n'
  · simp [hb]
  · simp [hb]

/-- A line that has room. -/
theorem fgets_line {n : ℕ} {line : Bytes} (hline : ch '\n' ∉ line) (hroom : line.length + 1 < n)
    (rest : Bytes) : fgets n (line ++ ch '\n' :: rest) = line ++ [ch '\n'] := by
  have hall : ∀ b ∈ line, decide (b ≠ ch '\n') = true := by
    intro b hb
    rw [decide_eq_true_eq]
    rintro rfl
    exact hline hb
  have htake : (line ++ ch '\n' :: rest).take (n - 1)
      = line ++ ch '\n' :: rest.take (n - 1 - line.length - 1) := by
    rw [List.take_append, List.take_of_length_le (by omega), List.take_cons (by omega)]
  rw [fgets, htake]
  simp only [List.takeWhile_append_of_pos hall, List.dropWhile_append_of_pos hall]
  simp

/-- What `inet_pton` of `AF_INET6` keeps in its loop. -/
structure V6 where
  /-- The bytes written so far. -/
  out : Bytes
  /-- Where `::` stood. -/
  colon : Option ℕ
  /-- The number of digits of the current group. -/
  seen : ℕ
  /-- The value of the current group. -/
  val : ℕ

/-- The loop of `inet_pton` of `AF_INET6`; `curtok` is the start of the current group. -/
def v6Loop (curtok : Bytes) (st : V6) : Bytes → Option V6
  | [] => some st
  | b :: s =>
      match hexDigit b with
      | some d =>
          if st.seen = 4 then none
          else v6Loop curtok { st with seen := st.seen + 1, val := 16 * st.val + d } s
      | none =>
          if b = ch ':' then
            if st.seen = 0 then
              if st.colon.isSome then none
              else v6Loop s { st with colon := some st.out.length } s
            else if s = [] ∨ 16 < st.out.length + 2 then none
            else v6Loop s { st with out := st.out ++ beBytes 2 st.val, seen := 0, val := 0 } s
          else if b = ch '.' ∧ st.out.length + 4 ≤ 16 then
            -- the rest of the text, from the start of the group, is a dotted quad
            (inetPton4 curtok).map fun quad => { st with out := st.out ++ quad, seen := 0 }
          else none

/-- The bytes of all groups. -/
def V6.groups (st : V6) : Bytes := if 0 < st.seen then st.out ++ beBytes 2 st.val else st.out

/-- The address: the groups, with zeros where `::` stood. -/
def V6.finish (st : V6) : Option Bytes :=
  match st.colon with
  | none => if st.groups.length = 16 then some st.groups else none
  | some k =>
      if st.groups.length < 16 then
        some (st.groups.take k ++ List.replicate (16 - st.groups.length) 0 ++ st.groups.drop k)
      else none

/-- `inet_pton` of `AF_INET6`. -/
def inetPton6 (s : Bytes) : Option Bytes :=
  let start : V6 := ⟨[], none, 0, 0⟩
  match s with
  | [] => none
  | b :: s =>
      if b = ch ':' then
        if s.head? = some (ch ':') then (v6Loop s start s).bind V6.finish else none
      else (v6Loop (b :: s) start (b :: s)).bind V6.finish

/-! ## Facts -/

/-- The longest prefix in a class, and what follows it. -/
theorem takeWhile_cut (p : UInt8 → Bool) (s : Bytes) :
    ∃ u, s.takeWhile p ++ u = s ∧ s.drop (s.takeWhile p).length = u ∧ ∀ b ∈ u.head?, p b = false := by
  have hsplit : s.takeWhile p ++ s.dropWhile p = s := List.takeWhile_append_dropWhile
  refine ⟨s.dropWhile p, hsplit, ?_, fun b hb => ?_⟩
  · have hdrop : (s.takeWhile p ++ s.dropWhile p).drop (s.takeWhile p).length = s.dropWhile p :=
      List.drop_left
    rwa [hsplit] at hdrop
  · have hhead := List.head?_dropWhile_not p s
    rw [Option.mem_def.mp hb] at hhead
    exact hhead

/-- A digit string is taken whole: there is no white space and no sign in front of it. -/
theorem take_digits {ds rest : Bytes} (hne : ds ≠ []) (hds : ∀ b ∈ ds, isDigit b = true)
    (hrest : ∀ b ∈ rest.head?, isDigit b = false) :
    skipSpace (ds ++ rest) = ds ++ rest ∧ takeSign (ds ++ rest) = (false, ds ++ rest) ∧
      (ds ++ rest).takeWhile isDigit = ds := by
  obtain ⟨d, ds', rfl⟩ := List.exists_cons_of_ne_nil hne
  have hd : 48 ≤ d.toNat ∧ d.toNat ≤ 57 := by simpa [isDigit] using hds d List.mem_cons_self
  refine ⟨?_, ?_, ?_⟩
  · apply skipSpace_eq_self
    intro b hb
    cases hb
    simp only [isSpace, decide_eq_false_iff_not]
    omega
  · have hminus : d ≠ ch '-' := by rintro rfl; exact absurd hd (by decide)
    have hplus : d ≠ ch '+' := by rintro rfl; exact absurd hd (by decide)
    rw [List.cons_append, takeSign, if_neg hminus, if_neg hplus]
  · have htail : rest.takeWhile isDigit = [] := by
      cases rest with
      | nil => rfl
      | cons c rest =>
          rw [List.takeWhile_cons_of_neg]
          simpa using hrest c
    rw [List.takeWhile_append_of_pos hds, htail, List.append_nil]

/-- A digit string that fits 32 bits is scanned exactly. -/
theorem scanInt_append {ds rest : Bytes} (hne : ds ≠ []) (hds : ∀ b ∈ ds, isDigit b = true)
    (hrest : ∀ b ∈ rest.head?, isDigit b = false) (hlt : decVal ds < 2 ^ 32) :
    scanInt (ds ++ rest) = some (UInt32.ofNat (decVal ds), rest) := by
  obtain ⟨hskip, hsign, htake⟩ := take_digits hne hds hrest
  simp only [scanInt, hskip, hsign, htake, if_neg hne, List.drop_left]
  congr 3
  have hmin : min (decVal ds : ℤ) (2 ^ 63 - 1) = decVal ds := by omega
  rw [if_neg (by nofun), hmin]
  omega

/-- What is extracted as a number: white space, a sign or none, and digits that fit the width. -/
structure NumberText (w : ℕ) (spaces sign ds : Bytes) : Prop where
  spaces_ok : ∀ b ∈ spaces, isSpace b = true
  sign_ok : sign = [] ∨ sign = [ch '-'] ∨ sign = [ch '+']
  digits_ne : ds ≠ []
  digits_ok : ∀ b ∈ ds, isDigit b = true
  fits : decVal ds < 2 ^ w

theorem takeSign_append {sign s : Bytes} (hsign : sign = [] ∨ sign = [ch '-'] ∨ sign = [ch '+'])
    (hs : takeSign s = (false, s)) : takeSign (sign ++ s) = (decide (sign = [ch '-']), s) := by
  rcases hsign with rfl | rfl | rfl
  · exact hs
  · rfl
  · rfl

theorem takeSign_eq (s : Bytes) : ∃ sign, (sign = [] ∨ sign = [ch '-'] ∨ sign = [ch '+']) ∧
    s = sign ++ (takeSign s).2 ∧ (takeSign s).1 = decide (sign = [ch '-']) := by
  cases s with
  | nil => exact ⟨[], Or.inl rfl, rfl, rfl⟩
  | cons b s =>
      rw [takeSign]
      by_cases hminus : b = ch '-'
      · rw [if_pos hminus, hminus]
        exact ⟨[ch '-'], Or.inr (Or.inl rfl), rfl, rfl⟩
      · by_cases hplus : b = ch '+'
        · rw [if_neg hminus, if_pos hplus, hplus]
          exact ⟨[ch '+'], Or.inr (Or.inr rfl), rfl, rfl⟩
        · rw [if_neg hminus, if_neg hplus]
          exact ⟨[], Or.inl rfl, rfl, rfl⟩

/-- A number is extracted up to the first byte behind its digits. -/
theorem extractUInt_number {w : ℕ} {spaces sign ds rest : Bytes}
    (h : NumberText w spaces sign ds) (hrest : ∀ b ∈ rest.head?, isDigit b = false) :
    extractUInt w (spaces ++ (sign ++ (ds ++ rest)))
      = some (if sign = [ch '-'] then (2 ^ w - decVal ds) % 2 ^ w else decVal ds, some rest) := by
  obtain ⟨hskip, hsign, htake⟩ := take_digits h.digits_ne h.digits_ok hrest
  have htaken := takeSign_append h.sign_ok hsign
  have hhead : skipSpace (sign ++ (ds ++ rest)) = sign ++ (ds ++ rest) := by
    rcases h.sign_ok with rfl | rfl | rfl
    · exact hskip
    · exact skipSpace_eq_self (by rintro b ⟨⟩; decide)
    · exact skipSpace_eq_self (by rintro b ⟨⟩; decide)
  have hspaces : skipSpace (spaces ++ (sign ++ (ds ++ rest))) = sign ++ (ds ++ rest) := by
    rw [skipSpace, List.dropWhile_append_of_pos h.spaces_ok]
    exact hhead
  obtain ⟨d, s, hcons⟩ : ∃ d s, sign ++ (ds ++ rest) = d :: s :=
    List.exists_cons_of_ne_nil (List.append_ne_nil_of_right_ne_nil _
      (List.append_ne_nil_of_left_ne_nil h.digits_ne rest))
  rw [extractUInt, hspaces]
  rw [hcons] at htaken ⊢
  simp only [htaken, htake, if_neg h.digits_ne, if_neg (not_le.mpr h.fits), List.drop_left,
    decide_eq_true_eq]

/-- Where an extraction succeeds there is a number. -/
theorem exists_number_of_extractUInt {w n : ℕ} {s rest : Bytes}
    (h : extractUInt w s = some (n, some rest)) :
    ∃ spaces sign ds, s = spaces ++ (sign ++ (ds ++ rest)) ∧ NumberText w spaces sign ds ∧
      n = (if sign = [ch '-'] then (2 ^ w - decVal ds) % 2 ^ w else decVal ds) ∧
      ∀ b ∈ rest.head?, isDigit b = false := by
  unfold extractUInt at h
  split at h
  · cases h
  · next b t hskip =>
      obtain ⟨sign, hsign, hcons, hneg⟩ := takeSign_eq (b :: t)
      generalize takeSign (b :: t) = signed at h hcons hneg
      obtain ⟨neg, v⟩ := signed
      obtain rfl : neg = decide (sign = [ch '-']) := hneg
      obtain ⟨u, hu, hdrop, hhead⟩ := takeWhile_cut isDigit v
      dsimp only at h
      by_cases hnil : v.takeWhile isDigit = []
      · rw [if_pos hnil] at h
        cases h
      by_cases hbig : 2 ^ w ≤ decVal (v.takeWhile isDigit)
      · rw [if_neg hnil, if_pos hbig] at h
        cases h
      rw [if_neg hnil, if_neg hbig, hdrop, Option.some.injEq, Prod.mk.injEq,
        Option.some.injEq] at h
      obtain ⟨hn, rfl⟩ := h
      refine ⟨s.takeWhile isSpace, sign, v.takeWhile isDigit, ?_, ?_, ?_, hhead⟩
      · calc s = s.takeWhile isSpace ++ skipSpace s := List.takeWhile_append_dropWhile.symm
          _ = s.takeWhile isSpace ++ (sign ++ (v.takeWhile isDigit ++ u)) := by rw [hskip, hcons, hu]
      · exact ⟨fun c hc => List.mem_takeWhile_imp hc, hsign, hnil,
          fun c hc => List.mem_takeWhile_imp hc, not_le.mp hbig⟩
      · rw [← hn]
        simp only [decide_eq_true_eq]

/-- A digit string that fits its width is extracted exactly. -/
theorem extractUInt_append {w : ℕ} {ds rest : Bytes} (hne : ds ≠ [])
    (hds : ∀ b ∈ ds, isDigit b = true) (hrest : ∀ b ∈ rest.head?, isDigit b = false)
    (hlt : decVal ds < 2 ^ w) :
    extractUInt w (ds ++ rest) = some (decVal ds, some rest) :=
  extractUInt_number ⟨List.forall_mem_nil _, Or.inl rfl, hne, hds, hlt⟩ hrest

/-- An extraction depends on what it consumes, which ends in a digit, and on the next byte. -/
theorem extractUInt_eq_some {w n : ℕ} {s rest : Bytes}
    (h : extractUInt w s = some (n, some rest)) :
    ∃ lead, s = lead ++ rest ∧ (∃ b ∈ lead.getLast?, isDigit b = true) ∧
      (∀ b ∈ rest.head?, isDigit b = false) ∧
      ∀ t, (∀ b ∈ t.head?, isDigit b = false) →
        extractUInt w (lead ++ t) = some (n, some t) := by
  obtain ⟨spaces, sign, ds, rfl, hnumber, rfl, hrest⟩ := exists_number_of_extractUInt h
  refine ⟨spaces ++ (sign ++ ds), by simp only [List.append_assoc], ?_, hrest, fun t ht => ?_⟩
  · obtain ⟨b, hb⟩ := Option.isSome_iff_exists.mp
      (List.getLast?_isSome.mpr hnumber.digits_ne)
    refine ⟨b, ?_, hnumber.digits_ok b (List.mem_of_getLast? hb)⟩
    rw [← List.append_assoc, List.getLast?_append_of_ne_nil _ hnumber.digits_ne]
    exact hb
  · simp only [List.append_assoc]
    exact extractUInt_number hnumber ht

/-- A word that fits the array is extracted exactly. -/
theorem extractWord_append {n : ℕ} {t rest : Bytes} (hne : t ≠ []) (hlen : t.length ≤ n - 1)
    (ht : ∀ b ∈ t, isSpace b = false ∧ b ≠ 0) (hrest : ∀ b ∈ rest.head?, isSpace b = true) :
    extractWord n (t ++ rest) = some (t, rest) := by
  have hskip : skipSpace (t ++ rest) = t ++ rest := by
    apply skipSpace_eq_self
    obtain ⟨b, t', rfl⟩ := List.exists_cons_of_ne_nil hne
    intro c hc
    cases hc
    exact (ht b List.mem_cons_self).1
  have hscan : scanSet (n - 1) (fun b => !isSpace b) (t ++ rest) = some (t, rest) :=
    scanSet_append hne hlen (fun b hb => by rw [(ht b hb).1]; rfl)
      (fun b hb => by rw [hrest b hb]; rfl)
  rw [extractWord, hskip, hscan, Option.map_some, cstr_eq_self fun h0 => (ht 0 h0).2 rfl]

/-- Behind white space there is nothing to skip, or the text goes on. -/
theorem skipSpace_append (s t : Bytes) :
    skipSpace (s ++ t) = if skipSpace s = [] then skipSpace t else skipSpace s ++ t := by
  by_cases h : skipSpace s = []
  · rw [if_pos h]
    simp only [skipSpace] at h ⊢
    rw [List.dropWhile_append, h]
    rfl
  · rw [if_neg h]
    simp only [skipSpace] at h ⊢
    rw [List.dropWhile_append, if_neg (by rwa [List.isEmpty_iff])]

/-- A word ends at a blank. -/
theorem extractWord_before_blank (n : ℕ) {s : Bytes} (h : skipSpace s ≠ []) (t : Bytes) :
    (extractWord n (s ++ ch ' ' :: t)).map Prod.fst = (extractWord n s).map Prod.fst := by
  have htake : (skipSpace s ++ ch ' ' :: t).takeWhile (fun b => !isSpace b)
      = (skipSpace s).takeWhile fun b => !isSpace b := by
    have hblank : (ch ' ' :: t).takeWhile (fun b => !isSpace b) = [] :=
      List.takeWhile_cons_of_neg (by decide)
    rw [List.takeWhile_append, hblank]
    split_ifs with hlen
    · rw [List.append_nil, (List.takeWhile_prefix _).eq_of_length hlen]
    · rfl
  rw [extractWord, extractWord, skipSpace_append, if_neg h]
  simp only [scanSet, htake]
  split_ifs <;> rfl

/-- What is extracted begins behind the white space; it is empty only in front of a NUL. -/
theorem exists_of_extractWord {n : ℕ} {s w r : Bytes} (h : extractWord n s = some (w, r)) :
    ∃ v, skipSpace s = w ++ v ∧ w.length ≤ n - 1 ∧ (∀ b ∈ w, isSpace b = false ∧ b ≠ 0) ∧
      (w = [] → v.head? = some 0) := by
  obtain ⟨⟨t, r'⟩, hscan, heq⟩ := Option.map_eq_some_iff.mp h
  cases heq
  simp only [scanSet] at hscan
  split_ifs at hscan with hne
  rw [Option.some.injEq, Prod.mk.injEq] at hscan
  obtain ⟨ht, -⟩ := hscan
  rw [ht] at hne
  have hprefix : t <+: skipSpace s := by
    rw [← ht]
    exact (List.take_prefix _ _).trans (List.takeWhile_prefix _)
  obtain ⟨u, hu⟩ := hprefix
  obtain ⟨v, hv, -, hhead⟩ := takeWhile_cut (· ≠ 0) t
  refine ⟨v ++ u, ?_, ?_, fun b hb => ⟨?_, ?_⟩, fun hnil => ?_⟩
  · rw [← hu, ← List.append_assoc]
    exact congrArg (· ++ u) hv.symm
  · refine (List.takeWhile_prefix _).length_le.trans ?_
    rw [← ht]
    exact List.length_take_le _ _
  · have hmem := (List.takeWhile_prefix _).subset hb
    rw [← ht] at hmem
    have hword := List.mem_takeWhile_imp (List.mem_of_mem_take hmem)
    simpa using hword
  · simpa using List.mem_takeWhile_imp hb
  · have hvt : v = t := by
      rw [← hv]
      show v = cstr t ++ v
      rw [hnil, List.nil_append]
    rw [hvt]
    obtain ⟨c, t', rfl⟩ := List.exists_cons_of_ne_nil hne
    have hc := hhead c (by rw [hvt]; rfl)
    simp only [ne_eq, decide_not, Bool.not_eq_false', decide_eq_true_eq] at hc
    rw [hc]
    rfl

/-- A blank in front of a field is skipped. -/
theorem skipSpace_blank (s : Bytes) : skipSpace (ch ' ' :: s) = skipSpace s := by
  rw [skipSpace, List.dropWhile_cons_of_pos (by decide), skipSpace]

theorem extractWord_blank (n : ℕ) (s : Bytes) :
    extractWord n (ch ' ' :: s) = extractWord n s := by
  rw [extractWord, skipSpace_blank, extractWord]

theorem extractUInt_blank (w : ℕ) (s : Bytes) :
    extractUInt w (ch ' ' :: s) = extractUInt w s := by
  rw [extractUInt, skipSpace_blank, extractUInt]

/-- `inet_pton` of four texts without dots. -/
theorem inetPton4_join {a b c d : Bytes} (ha : ch '.' ∉ a) (hb : ch '.' ∉ b) (hc : ch '.' ∉ c)
    (hd : ch '.' ∉ d) :
    inetPton4 (a ++ ch '.' :: (b ++ ch '.' :: (c ++ ch '.' :: d)))
      = do return [← octet a, ← octet b, ← octet c, ← octet d] := by
  have hjoin : a ++ ch '.' :: (b ++ ch '.' :: (c ++ ch '.' :: d))
      = [ch '.'].intercalate [a, b, c, d] := by
    simp [List.intercalate, List.intersperse]
  have hsplit : ([ch '.'].intercalate [a, b, c, d]).splitOn (ch '.') = [a, b, c, d] :=
    List.splitOn_intercalate (ch '.') (by simp [ha, hb, hc, hd]) (by simp)
  rw [inetPton4, hjoin, hsplit]

/-- An IPv4 address has four bytes. -/
theorem length_inetPton4 {s r : Bytes} (h : inetPton4 s = some r) : r.length = 4 := by
  unfold inetPton4 at h
  split at h
  · simp only [Option.bind_eq_bind, Option.bind_eq_some_iff, Option.pure_def,
      Option.some.injEq] at h
    obtain ⟨_, _, _, _, _, _, _, _, rfl⟩ := h
    rfl
  · cases h

/-- An IPv6 address has sixteen bytes. -/
theorem length_finish {st : V6} {r : Bytes} (h : st.finish = some r) : r.length = 16 := by
  unfold V6.finish at h
  split at h
  · split_ifs at h with hlen
    cases h
    exact hlen
  · split_ifs at h with hlen
    cases h
    simp only [List.length_append, List.length_take, List.length_replicate, List.length_drop]
    omega

theorem length_inetPton6 {s r : Bytes} (h : inetPton6 s = some r) : r.length = 16 := by
  unfold inetPton6 at h
  dsimp only at h
  split at h
  · cases h
  · split_ifs at h
    · obtain ⟨st, -, hst⟩ := Option.bind_eq_some_iff.mp h
      exact length_finish hst
    · obtain ⟨st, -, hst⟩ := Option.bind_eq_some_iff.mp h
      exact length_finish hst
