/-
# The message grammar of RFC 1459

A message of a client is a command word, middle parameters behind blanks, perhaps a trailing
parameter behind blanks and a colon, and an end of line.  A middle parameter may hold a colon
everywhere but in front; `parse` of `Homework/1/mircd` ends a word at any colon.

* `Param`, `Trailing`, `Message` : the grammar;
* `Message.text`, `Message.argv` : a message as it is written, and what it says;
* `parse_text_iff` : when `parse` finds what a message says.
-/
import IntroNP.MircdInput

namespace Mircd

/-! ## The grammar -/

/-- A middle parameter, behind one blank and perhaps more. -/
structure Param where
  /-- The number of further blanks. -/
  blanks : ℕ
  middle : Bytes
  nonempty : middle ≠ []
  word : ∀ b ∈ middle, isText b = true ∧ b ≠ ch ' '
  first : middle.head? ≠ some (ch ':')

/-- A trailing parameter, behind one blank and perhaps more. -/
structure Trailing where
  /-- The number of further blanks. -/
  blanks : ℕ
  trailing : Bytes
  line : ∀ b ∈ trailing, isText b = true

/-- A message without a prefix. -/
structure Message where
  command : Bytes
  nonempty : command ≠ []
  word : ∀ b ∈ command, isText b = true ∧ b ≠ ch ' ' ∧ b ≠ ch ':'
  params : List Param
  trailing : Option Trailing
  eol : Bytes
  crlf : ∀ b ∈ eol, isEol b = true

/-- The blanks in front of a parameter. -/
def blank (n : ℕ) : Bytes := List.replicate (n + 1) (ch ' ')

/-- A parameter as it is written. -/
def Param.text (p : Param) : Bytes := blank p.blanks ++ p.middle

/-- A trailing parameter as it is written. -/
def Trailing.text (t : Trailing) : Bytes := blank t.blanks ++ ch ':' :: t.trailing

/-- What follows the command, up to the end of the line. -/
def paramsText (params : List Param) (trailing : Option Trailing) : Bytes :=
  params.flatMap Param.text ++ (trailing.map Trailing.text).getD []

/-- What follows the command, as parameters. -/
def paramsArgv (params : List Param) (trailing : Option Trailing) : List Bytes :=
  params.map Param.middle ++ (trailing.map Trailing.trailing).toList

/-- The message as it is written. -/
def Message.text (m : Message) : Bytes := m.command ++ paramsText m.params m.trailing ++ m.eol

/-- The command and the parameters of the message. -/
def Message.argv (m : Message) : List Bytes := m.command :: paramsArgv m.params m.trailing

/-! ## What parse does -/

/-- A word goes on up to a blank or a colon. -/
theorem parseWords_word {t : Bytes} (ht : ∀ b ∈ t, b ≠ ch ' ' ∧ b ≠ ch ':') (word s : Bytes) :
    parseWords word (t ++ s) = parseWords (word ++ t) s := by
  induction t generalizing word with
  | nil => rw [List.nil_append, List.append_nil]
  | cons b t ih =>
      obtain ⟨hblank, hcolon⟩ := ht b List.mem_cons_self
      rw [List.cons_append, parseWords, if_neg hcolon, if_neg hblank,
        ih (fun c hc => ht c (List.mem_cons_of_mem _ hc)), List.append_assoc, List.singleton_append]

/-- A blank ends a word. -/
theorem parseWords_blank {word : Bytes} (hne : word ≠ []) (s : Bytes) :
    parseWords word (ch ' ' :: s) = word :: parseWords [] s := by
  rw [parseWords, if_neg (by decide), if_pos rfl, if_neg hne, List.singleton_append]

/-- A colon ends a word and the search. -/
theorem parseWords_colon {word : Bytes} (hne : word ≠ []) (s : Bytes) :
    parseWords word (ch ':' :: s) = [word, s] := by
  rw [parseWords, if_pos rfl, if_neg hne, List.singleton_append]

/-- Further blanks play no part. -/
theorem parseWords_blanks {word : Bytes} (hne : word ≠ []) (n : ℕ) (s : Bytes) :
    parseWords word (blank n ++ s) = word :: parseWords [] s := by
  have hmore : parseWords [] (List.replicate n (ch ' ') ++ s) = parseWords [] s := by
    induction n with
    | zero => rfl
    | succ n ih =>
        rw [List.replicate_succ, List.cons_append, parseWords, if_neg (by decide), if_pos rfl,
          if_pos rfl, List.nil_append, ih]
  rw [blank, List.replicate_succ, List.cons_append, parseWords_blank hne, hmore]

/-- The parameters behind a word: they are found exactly when no middle one holds a colon. -/
theorem parseWords_params {word : Bytes} (hne : word ≠ []) (params : List Param)
    (trailing : Option Trailing) :
    parseWords word (paramsText params trailing) = word :: paramsArgv params trailing ↔
      ∀ p ∈ params, ch ':' ∉ p.middle := by
  induction params generalizing word with
  | nil =>
      refine iff_of_true ?_ (List.forall_mem_nil _)
      cases trailing with
      | none => exact if_neg hne
      | some t =>
          show parseWords word (blank t.blanks ++ ch ':' :: t.trailing) = [word, t.trailing]
          rw [parseWords_blanks hne, parseWords, if_pos rfl, if_pos rfl, List.nil_append]
  | cons p params ih =>
      have htext : paramsText (p :: params) trailing
          = blank p.blanks ++ (p.middle ++ paramsText params trailing) := by
        rw [paramsText, paramsText, List.flatMap_cons, Param.text, List.append_assoc,
          List.append_assoc]
      have hargv : paramsArgv (p :: params) trailing
          = p.middle :: paramsArgv params trailing := rfl
      rw [htext, hargv, parseWords_blanks hne, List.cons.injEq, List.forall_mem_cons,
        and_iff_right rfl]
      by_cases hcolon : ch ':' ∈ p.middle
      · -- the word that is found ends at the first colon
        obtain ⟨u, v, hsplit, hu⟩ := List.eq_append_cons_of_mem hcolon
        have hune : u ≠ [] := by
          rintro rfl
          exact p.first (by rw [hsplit]; rfl)
        have huword : ∀ b ∈ u, b ≠ ch ' ' ∧ b ≠ ch ':' := by
          intro b hb
          refine ⟨(p.word b ?_).2, fun h => hu (h ▸ hb)⟩
          rw [hsplit]
          exact List.mem_append_left _ hb
        have hfound : parseWords [] (p.middle ++ paramsText params trailing)
            = [u, v ++ paramsText params trailing] := by
          rw [hsplit, List.append_assoc, parseWords_word huword, List.nil_append,
            List.cons_append, parseWords_colon hune]
        rw [hfound]
        refine iff_of_false ?_ fun h => h.1 hcolon
        intro heq
        have hshort := congrArg List.length (List.cons.inj heq).1
        rw [hsplit, List.length_append, List.length_cons] at hshort
        omega
      · have hword : ∀ b ∈ p.middle, b ≠ ch ' ' ∧ b ≠ ch ':' := by
          intro b hb
          exact ⟨(p.word b hb).2, fun h => hcolon (h ▸ hb)⟩
        rw [parseWords_word hword, List.nil_append, ih p.nonempty, and_iff_right hcolon]

/-! ## The end of the line -/

/-- Nothing but the end of the line is cut off. -/
theorem rdropWhile_eol {s eol : Bytes} (hs : ∀ b ∈ s, isEol b = false)
    (heol : ∀ b ∈ eol, isEol b = true) : (s ++ eol).rdropWhile isEol = s := by
  have hdrop : (eol.reverse ++ s.reverse).dropWhile isEol = s.reverse := by
    rw [List.dropWhile_append_of_pos fun b hb => heol b (List.mem_reverse.mp hb)]
    cases hrev : s.reverse with
    | nil => rfl
    | cons b r =>
        have hb : b ∈ s := by
          rw [← List.mem_reverse, hrev]
          exact List.mem_cons_self
        rw [List.dropWhile_cons_of_neg (by rw [hs b hb]; exact Bool.false_ne_true)]
  rw [List.rdropWhile, List.reverse_append, hdrop, List.reverse_reverse]

/-- What follows the command has no end of line. -/
theorem isEol_paramsText {params : List Param} {trailing : Option Trailing} {b : UInt8}
    (hb : b ∈ paramsText params trailing) : isEol b = false := by
  have hblank : ∀ n, b ∈ blank n → isEol b = false := by
    intro n hn
    rw [List.eq_of_mem_replicate hn]
    decide
  rw [paramsText, List.mem_append] at hb
  cases hb with
  | inl hb =>
      obtain ⟨p, -, hp⟩ := List.mem_flatMap.mp hb
      cases List.mem_append.mp hp with
      | inl hn => exact hblank _ hn
      | inr hm => exact isEol_of_isText (p.word b hm).1
  | inr hb =>
      cases trailing with
      | none => cases hb
      | some t =>
          cases List.mem_append.mp hb with
          | inl hn => exact hblank _ hn
          | inr ht =>
              cases List.mem_cons.mp ht with
              | inl hcolon => rw [hcolon]; decide
              | inr ht => exact isEol_of_isText (t.line b ht)

/-- `parse` finds the command and the parameters of a message if and only if no middle parameter
holds a colon. -/
theorem parse_text_iff (m : Message) :
    parse m.text = m.argv ↔ ∀ p ∈ m.params, ch ':' ∉ p.middle := by
  have hline : ∀ b ∈ m.command ++ paramsText m.params m.trailing, isEol b = false := by
    intro b hb
    cases List.mem_append.mp hb with
    | inl hb => exact isEol_of_isText (m.word b hb).1
    | inr hb => exact isEol_paramsText hb
  rw [parse, Message.text, rdropWhile_eol hline m.crlf,
    parseWords_word fun b hb => (m.word b hb).2, List.nil_append, Message.argv]
  exact parseWords_params m.nonempty m.params m.trailing

/-- `JOIN #a:b`. -/
def joinColon : Message where
  command := ascii "JOIN"
  nonempty := by decide
  word := by simp [ascii, ch, isText, isEol]
  params := [⟨0, ascii "#a:b", by decide, by simp [ascii, ch, isText, isEol], by decide⟩]
  trailing := none
  eol := ascii "\r\n"
  crlf := by simp [ascii, ch, isEol]

theorem parse_joinColon : joinColon.text = ascii "JOIN #a:b\r\n" ∧
    joinColon.argv = [ascii "JOIN", ascii "#a:b"] ∧
    parse joinColon.text = [ascii "JOIN", ascii "#a", ascii "b"] ∧
    parse joinColon.text ≠ joinColon.argv := by decide +kernel

end Mircd
