/-
# Two buffers of mircd

`handle_client_input` of `Homework/1/mircd` reads up to `MAX_LINE` bytes into a zeroed buffer of
`MAX_LINE` bytes and cuts the buffer with `strtok_r`.  Here the loop works on the block of memory:
`strtok_r` writes terminators into it, and `strlen` and the `strdup` of `parse` scan a token again.
`users` writes its rows, one after another, to an array whose size it computes from the widths of
the columns.

* `tokenLoop`, `tokenize` : the loop, which tells whether all accesses are inside the buffer;
* `tokenLoop_eq` : it refines the cut of `MircdInput`, which looks at the bytes that are left;
* `inside_lines_iff`, `terminated_buffer_iff` : what the accesses need is a NUL in the buffer, and
  a full buffer has only those it has received;
* `tokenize_inside_iff` : the reads for which the loop stays inside;
* `usersSize`, `usersRows`, `users_eq` : the array and the rows of `users`;
* `users_rows_too_long` : the array is too short for every row.
-/
import IntroNP.Blocks
import IntroNP.MircdInput

namespace Mircd

open Block Machine

/-- The loop of `handle_client_input` over the block `buf`: the tokens, and whether all accesses
have been inside of it.  The fuel bounds the number of calls of `strtok_r`. -/
def tokenLoop : ℕ → Bytes → ℕ → Option (List Bytes × Bool)
  | 0, _, _ => none
  | fuel + 1, buf, str =>
      match strtok 0 isEol buf str with
      | none => some ([], false)
      | some none => some ([], true)
      | some (some t) =>
          -- `strlen`, and `strdup` in `parse`
          match stringAt 0 t.block t.start with
          | none => some ([], false)
          | some token => (tokenLoop fuel t.block t.save).map fun r => (token :: r.1, r.2)

/-- The loop over what has been read. -/
def tokenize (received : Bytes) : Option (List Bytes × Bool) :=
  tokenLoop (MAX_LINE + 1) (buffer received) 0

/-! ## The cut of the bytes that are left -/

variable {s skipped word rest : Bytes} {b : UInt8}

theorem strtokR_skip (hskipped : ∀ c ∈ skipped, isEol c = true) (s : Bytes) :
    strtokR (skipped ++ s) = strtokR s := by
  rw [strtokR, strtokR, List.dropWhile_append_of_pos hskipped]

theorem strtokR_text (hword : ∀ c ∈ word, isText c = true) : strtokR word = none := by
  have hkeep : word.dropWhile isEol = word := by
    cases word with
    | nil => rfl
    | cons c word =>
        rw [List.dropWhile_cons_of_neg]
        rw [isEol_of_isText (hword c List.mem_cons_self)]
        exact Bool.false_ne_true
  rw [strtokR]
  simp only [hkeep, List.dropWhile_eq_nil_iff.mpr hword]

theorem strtokR_nul (rest : Bytes) : strtokR (0 :: rest) = some none := rfl

theorem strtokR_token (hword : ∀ c ∈ word, isText c = true) (hne : word ≠ [])
    (hb : isText b = false) (rest : Bytes) :
    strtokR (word ++ b :: rest)
      = some (some (word, if b = 0 then b :: rest else rest)) := by
  obtain ⟨c, u, rfl⟩ := List.exists_cons_of_ne_nil hne
  have hc := isEol_of_isText (hword c List.mem_cons_self)
  have hkeep : (c :: u ++ b :: rest).dropWhile isEol = c :: u ++ b :: rest := by
    rw [List.cons_append, List.dropWhile_cons_of_neg (by simp [hc])]
  have htoken : (c :: u ++ b :: rest).takeWhile isText = c :: u :=
    takeWhile_append_stop hword (by simpa using hb)
  have hrest : (c :: u ++ b :: rest).dropWhile isText = b :: rest := by
    rw [List.dropWhile_append_of_pos hword, List.dropWhile_cons_of_neg (by simp [hb])]
  rw [strtokR]
  simp only [hkeep, htoken, hrest, if_neg hne]
  by_cases hend : b = 0
  · rw [if_pos hend, if_pos hend]
  · rw [if_neg hend, if_neg hend]

/-! ## The loop over the block -/

/-- The loop over a block gives what the cut of the bytes behind its position gives: the
terminators that `strtok_r` writes are all in front of the position. -/
theorem tokenLoop_eq (pre s : Bytes) {fuel : ℕ} (hfuel : s.length < fuel) :
    tokenLoop fuel (pre ++ s) pre.length = some (lines fuel s) := by
  induction fuel generalizing pre s with
  | zero => omega
  | succ fuel ih =>
      obtain ⟨skipped, t, rfl, hskipped, hcases⟩ := exists_scan 0 isEol s
      rw [tokenLoop, lines, strtokR_skip hskipped]
      rcases hcases with hword | ⟨rest, rfl⟩ | ⟨word, b, rest, rfl, hne, hword, hb⟩
      · rw [strtok_outside hskipped hword, strtokR_text hword]
      · rw [strtok_null rfl hskipped, strtokR_nul]
      · rw [strtok_token hskipped hword hne hb, strtokR_token hword hne hb]
        have hnul : 0 ∉ word := by
          intro h0
          have htext := hword 0 h0
          exact absurd htext (by decide)
        have hstring : stringAt 0 (pre ++ (skipped ++ (word ++ 0 :: rest)))
            (pre.length + skipped.length) = some word := by
          have h := stringAt_append (pre ++ skipped) hnul rest
          rw [List.length_append, List.append_assoc] at h
          exact h
        have hpos : 0 < word.length := List.length_pos_of_ne_nil hne
        simp only [List.length_append, List.length_cons] at hfuel
        simp only [hstring]
        by_cases hend : b = 0
        · have hloop := ih (pre ++ skipped ++ word) (0 :: rest) (by
            rw [List.length_cons]
            omega)
          simp only [List.append_assoc, List.length_append] at hloop
          rw [if_pos hend, if_pos hend, hend, Nat.add_zero, Nat.add_assoc, hloop]
          rfl
        · have hloop := ih (pre ++ skipped ++ word ++ [0]) rest (by omega)
          simp only [List.append_assoc, List.length_append, List.singleton_append,
            List.length_singleton] at hloop
          rw [if_neg hend, if_neg hend, Nat.add_assoc, Nat.add_assoc, hloop]
          rfl

/-- The cut stays inside as long as there is a NUL. -/
theorem inside_lines_iff (s : Bytes) {fuel : ℕ} (hfuel : s.length < fuel) :
    (lines fuel s).2 = true ↔ 0 ∈ s := by
  induction fuel generalizing s with
  | zero => omega
  | succ fuel ih =>
      obtain ⟨skipped, t, rfl, hskipped, hcases⟩ := exists_scan 0 isEol s
      have hskip : 0 ∉ skipped := fun h0 => absurd (hskipped 0 h0) (by decide)
      rw [lines, strtokR_skip hskipped, List.mem_append, or_iff_right hskip]
      rcases hcases with hword | ⟨rest, rfl⟩ | ⟨word, b, rest, rfl, hne, hword, hb⟩
      · rw [strtokR_text hword]
        constructor
        · intro h
          cases h
        · intro h0
          exact absurd (hword 0 h0) (by decide)
      · rw [strtokR_nul]
        exact ⟨fun _ => List.mem_cons_self, fun _ => rfl⟩
      · have hnul : 0 ∉ word := fun h0 => absurd (hword 0 h0) (by decide)
        have hpos : 0 < word.length := List.length_pos_of_ne_nil hne
        simp only [List.length_append, List.length_cons] at hfuel
        rw [strtokR_token hword hne hb, List.mem_append, or_iff_right hnul]
        show (lines fuel (if b = 0 then b :: rest else rest)).2 = true ↔ 0 ∈ b :: rest
        by_cases hend : b = 0
        · rw [if_pos hend]
          apply ih
          rw [List.length_cons]
          omega
        · rw [if_neg hend, ih rest (by omega), List.mem_cons, or_iff_right (Ne.symm hend)]

/-- The buffer has a NUL when it is not full, or when one has been received. -/
theorem terminated_buffer_iff {received : Bytes} (hlen : received.length ≤ MAX_LINE) :
    0 ∈ buffer received ↔ received.length < MAX_LINE ∨ 0 ∈ received := by
  rw [buffer, List.mem_append, List.mem_replicate]
  constructor
  · rintro (h0 | ⟨hroom, -⟩)
    · exact Or.inr h0
    · exact Or.inl (by omega)
  · rintro (hroom | h0)
    · exact Or.inr ⟨by omega, rfl⟩
    · exact Or.inl h0

theorem tokenize_eq {received : Bytes} (hlen : received.length ≤ MAX_LINE) :
    tokenize received = some (bufferLines received) := by
  have hbuffer : (buffer received).length < MAX_LINE + 1 := by
    rw [buffer, List.length_append, List.length_replicate]
    omega
  exact tokenLoop_eq [] (buffer received) hbuffer

/-- For every read, the loop of `handle_client_input` ends; it stays inside the buffer, which then
has a NUL, if and only if the read has left a place of the buffer free or has received a NUL
itself. -/
theorem tokenize_inside_iff (received : Bytes) (hlen : received.length ≤ MAX_LINE) :
    ∃ tokens inside, tokenize received = some (tokens, inside) ∧
      (inside = true ↔ received.length < MAX_LINE ∨ 0 ∈ received) ∧
      ((∃ i < MAX_LINE, (buffer received)[i]? = some 0) ↔
        received.length < MAX_LINE ∨ 0 ∈ received) := by
  have hbuffer : (buffer received).length = MAX_LINE := by
    rw [buffer, List.length_append, List.length_replicate]
    omega
  refine ⟨(bufferLines received).1, (bufferLines received).2, tokenize_eq hlen, ?_, ?_⟩
  · rw [bufferLines, inside_lines_iff _ (by omega), terminated_buffer_iff hlen]
  · rw [← terminated_buffer_iff hlen, List.mem_iff_getElem?]
    constructor
    · rintro ⟨i, -, hi⟩
      exact ⟨i, hi⟩
    · rintro ⟨i, hi⟩
      obtain ⟨hlt, -⟩ := List.getElem?_eq_some_iff.mp hi
      exact ⟨i, hbuffer ▸ hlt, hi⟩

theorem tokenize_inside_iff_nick : ∃ tokens inside,
    tokenize (ascii "NICK a\r\n") = some (tokens, inside) ∧
      (inside = true ↔ (ascii "NICK a\r\n").length < MAX_LINE ∨ 0 ∈ ascii "NICK a\r\n") ∧
      ((∃ i < MAX_LINE, (buffer (ascii "NICK a\r\n"))[i]? = some 0) ↔
        (ascii "NICK a\r\n").length < MAX_LINE ∨ 0 ∈ ascii "NICK a\r\n") :=
  tokenize_inside_iff (ascii "NICK a\r\n") (by decide)

/-- A read that fills the buffer with letters. -/
theorem full_buffer_outside : ∃ received : Bytes, 1 ≤ received.length ∧
    received.length ≤ MAX_LINE ∧ tokenize received = some ([], false) ∧
    ¬ ∃ i < MAX_LINE, (buffer received)[i]? = some 0 := by
  have hlen : (List.replicate MAX_LINE (ch 'a')).length = MAX_LINE := List.length_replicate
  have hnul : 0 ∉ buffer (List.replicate MAX_LINE (ch 'a')) := by
    rw [terminated_buffer_iff hlen.le, hlen, List.mem_replicate]
    rintro (h | ⟨-, h⟩)
    · exact absurd h (lt_irrefl _)
    · exact absurd h (by decide)
  refine ⟨List.replicate MAX_LINE (ch 'a'), ?_, hlen.le, ?_, ?_⟩
  · rw [hlen, MAX_LINE]
    omega
  · have hbuffer : buffer (List.replicate MAX_LINE (ch 'a')) = List.replicate MAX_LINE (ch 'a') := by
      rw [buffer, hlen, Nat.sub_self, List.replicate_zero, List.append_nil]
    rw [tokenize_eq hlen.le, bufferLines, hbuffer, lines, strtokR_text]
    rintro c hc
    rw [List.eq_of_mem_replicate hc]
    decide
  · rintro ⟨i, -, hi⟩
    exact hnul (List.mem_of_getElem? hi)

/-! ## The rows of `USERS` -/

/-- `size`, which counts 11 characters for a host. -/
def usersSize (clients : List Client) : ℕ := usersWidth clients + 1 + 8 + 1 + 11 + 1

/-- The strings that `users` writes to its array, one after another. -/
def usersRows (clients : List Client) : List Bytes :=
  usersRow (usersWidth clients) (ascii "UserID") (ascii "Terminal") (ascii "Host") ::
    clients.map fun cli => usersRow (usersWidth clients) cli.nickname (ascii "-") cli.host

/-- The messages with these rows. -/
def usersCmds : List Bytes → List CmdMsg
  | [] => []
  | header :: rows => .ofRPL .USERSSTART [header] :: rows.map fun row => .ofRPL .USERS [row]

/-- `users` sends its rows. -/
theorem users_eq (connfd : Fd) (argv : List Bytes) : users connfd argv = (do
    let clients := Table.values (← get).db.clients
    sendcmds connfd (usersCmds (usersRows clients)) []) := by
  simp only [users, usersRows, usersCmds, List.map_map]
  rfl

/-- The columns have 8 and 21 characters at least, with blanks in front of them. -/
theorem le_length_usersRow (mxname : ℕ) (name term host : Bytes) :
    mxname + 1 + 8 + 1 + 21 ≤ (usersRow mxname name term host).length := by
  have hblank : (ascii " ").length = 1 := rfl
  rw [usersRow, List.length_append, List.length_append, List.length_append, List.length_append,
    length_padRight, length_padRight, length_padRight, hblank]
  omega

/-- Whoever is connected, the row of titles does not fit into the array, and no row fits: each
lacks 10 bytes at least. -/
theorem users_rows_too_long (db : Database) :
    (¬ ∀ row ∈ usersRows (Table.values db.clients),
      row.length + 1 ≤ usersSize (Table.values db.clients)) ∧
    ∀ row ∈ usersRows (Table.values db.clients),
      usersSize (Table.values db.clients) + 10 ≤ row.length + 1 := by
  generalize Table.values db.clients = clients
  have hlong : ∀ row ∈ usersRows clients, usersSize clients + 10 ≤ row.length + 1 := by
    intro row hrow
    rw [usersRows, List.mem_cons, List.mem_map] at hrow
    rw [usersSize]
    rcases hrow with rfl | ⟨cli, -, rfl⟩
    · have hlen := le_length_usersRow (usersWidth clients) (ascii "UserID") (ascii "Terminal")
        (ascii "Host")
      omega
    · have hlen := le_length_usersRow (usersWidth clients) cli.nickname (ascii "-") cli.host
      omega
  refine ⟨fun hfits => ?_, hlong⟩
  have hheader : usersRow (usersWidth clients) (ascii "UserID") (ascii "Terminal") (ascii "Host")
      ∈ usersRows clients := List.mem_cons_self
  have hle := hfits _ hheader
  have hge := hlong _ hheader
  omega

/-- One client, registered from the address of the source's comment. -/
theorem users_rows_one : ∃ past db, Run system past db ∧
    (∀ cli ∈ Table.values db.clients, cli.nickname = ascii "nella" ∧
      cli.host = ascii "123.123.123.123") ∧
    ∃ row ∈ usersRows (Table.values db.clients),
      ¬ row.length + 1 ≤ usersSize (Table.values db.clients) := by
  obtain ⟨past, db, hrun, htest⟩ := exists_run_of_replay system
    [.clientAdd 4 (ascii "123.123.123.123:4711") (ascii "123.123.123.123"),
      .call 4 [ascii "NICK", ascii "nella"]]
    (fun r => (Table.values r.2.clients).all (fun cli => decide (cli.nickname = ascii "nella") &&
        decide (cli.host = ascii "123.123.123.123")) &&
      (usersRows (Table.values r.2.clients)).any fun row =>
        !decide (row.length + 1 ≤ usersSize (Table.values r.2.clients))) (by decide +kernel)
  simp only [Bool.and_eq_true, List.all_eq_true, List.any_eq_true, decide_eq_true_eq,
    Bool.not_eq_true', decide_eq_false_iff_not] at htest
  exact ⟨past, db, hrun, htest.1, htest.2⟩

end Mircd
