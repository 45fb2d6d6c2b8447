/-
# The server of dnsd

The header of a message with its question and its records (header.cpp of `Homework/2/dnsd`), and
the two functions `query` of the server (server.cpp).  The one that is given a header is a
program that changes the header and may throw half way; the other one catches what is thrown.

* `Header.parse`, `Header.dump` : the wire form of a message;
* `Config.select` : the zone of a question, the one with the longest name;
* `queryHeader`, `query` : the two functions;
* `Zone.reply` : the header that a question of a zone is answered with, in one expression;
* `reply_answer_of_get`, `reply_additional_of_get` : its answers, and the addresses with them;
* `query_eq` : `query` answers with it.
-/
import IntroNP.DnsZone
import Mathlib.Data.List.Induction

namespace Dnsd

/-! ## Messages -/

/-- `Header`. -/
structure Header where
  ID : UInt16
  RD : Bool
  TC : Bool
  AA : Bool
  Opcode : BitVec 4
  QR : Bool
  RCODE : BitVec 4
  Z : BitVec 3
  RA : Bool
  QDCOUNT : UInt16
  ANCOUNT : UInt16
  NSCOUNT : UInt16
  ARCOUNT : UInt16
  question : List Question
  answer : List Record
  authority : List Record
  additional : List Record
  deriving DecidableEq

/-- `data2uint16`. -/
def data2uint16 : Bytes → Option (UInt16 × Bytes)
  | a :: b :: s => some (UInt16.ofNat (ofBE [a, b]), s)
  | _ => none

/-- The loop of `Header::parse`; `v2type` and `v2clas` of a number keep it. -/
def parseQuestions : ℕ → Bytes → Option (List Question)
  | 0, _ => some []
  | n + 1, s => do
      let (domain, s) ← data2dn s
      let (type, s) ← data2uint16 s
      let (clas, s) ← data2uint16 s
      let qs ← parseQuestions n s
      return ⟨domain, ⟨type⟩, ⟨clas⟩⟩ :: qs

/-- `Header::parse` of a string, which has a NUL at its end.  A read past that is `none`. -/
def Header.parse (qs : Bytes) : Option Header :=
  match qs ++ [0] with
  | i₁ :: i₂ :: f₁ :: f₂ :: s => do
      let (QDCOUNT, s) ← data2uint16 s
      let (ANCOUNT, s) ← data2uint16 s
      let (NSCOUNT, s) ← data2uint16 s
      let (ARCOUNT, s) ← data2uint16 s
      let question ← parseQuestions QDCOUNT.toNat s
      return {
        ID := UInt16.ofNat (ofBE [i₁, i₂])
        RD := f₁.toNat % 2 = 1
        TC := f₁.toNat / 2 % 2 = 1
        AA := f₁.toNat / 4 % 2 = 1
        Opcode := BitVec.ofNat 4 (f₁.toNat / 8)
        QR := f₁.toNat / 128 % 2 = 1
        RCODE := BitVec.ofNat 4 f₂.toNat
        Z := BitVec.ofNat 3 (f₂.toNat / 16)
        RA := f₂.toNat / 128 % 2 = 1
        QDCOUNT := QDCOUNT
        ANCOUNT := ANCOUNT
        NSCOUNT := NSCOUNT
        ARCOUNT := ARCOUNT
        question := question
        answer := []
        authority := []
        additional := [] }
  | _ => none

/-- The two bytes of the flags. -/
def Header.flags (h : Header) : Bytes := [
  UInt8.ofNat (h.RD.toNat + 2 * h.TC.toNat + 4 * h.AA.toNat + 8 * h.Opcode.toNat + 128 * h.QR.toNat),
  UInt8.ofNat (h.RCODE.toNat + 16 * h.Z.toNat + 128 * h.RA.toNat)]

/-- What `Header::dump` writes into the header. -/
def Header.close (h : Header) : Header :=
  { h with
    QR := true
    Z := 0
    QDCOUNT := UInt16.ofNat h.question.length
    ANCOUNT := UInt16.ofNat h.answer.length
    NSCOUNT := UInt16.ofNat h.authority.length
    ARCOUNT := UInt16.ofNat h.additional.length }

/-- The message that `Header::dump` returns, from the header it has written. -/
def Header.data (h : Header) : Bytes :=
  u16 h.ID ++ h.flags ++ u16 h.QDCOUNT ++ u16 h.ANCOUNT ++ u16 h.NSCOUNT ++ u16 h.ARCOUNT ++
    (h.question.map Question.dump).flatten ++ (h.answer.map Record.dump).flatten ++
    (h.authority.map Record.dump).flatten ++ (h.additional.map Record.dump).flatten

/-- `Header::dump`. -/
def Header.dump (h : Header) : Bytes × Header := (h.close.data, h.close)

/-! ## Queries -/

/-- The loop of `query` over the suffixes of a name, the longest first. -/
def Config.selectLoop (config : Config) : ℕ → DN → Option Zone
  | 0, _ => none
  | n + 1, dn =>
      if dn = [] then none
      else match config.zones.lookup dn with
        | some zone => some zone
        | none => config.selectLoop n dn.dropLast

/-- The zone in which `query` looks a name up. -/
def Config.select (config : Config) (domain : DN) : Option Zone :=
  config.selectLoop domain.length domain

/-- The body of `query` for a question `q` and the zone it belongs to. -/
def Zone.fill (zone : Zone) (q : Question) : EStateM Exn Header Unit := do
  let rrs ← MonadExcept.ofExcept (zone.get q)
  rrs.forM fun rr => modify fun header => { header with
    answer := header.answer ++ [rr]
    additional := header.additional ++ zone.getIP rr.datadn }
  if q.type ≠ TYPE.NS then do
    let ns ← MonadExcept.ofExcept (zone.getApex TYPE.NS CLAS.IN)
    modify fun header => { header with authority := header.authority ++ ns }
  else
    pure ()

/-- Its handler of `NAME_ERROR`. -/
def Zone.fail (zone : Zone) : EStateM Exn Header Unit := do
  modify fun header => { header with RCODE := 3 }
  let soa ← MonadExcept.ofExcept (zone.getApex TYPE.SOA CLAS.IN)
  modify fun header => { header with authority := soa }

/-- `Server::query` of a header. -/
def queryHeader (config : Config) : EStateM Exn Header Bytes := do
  let header ← get
  if header.QDCOUNT ≠ 1 then
    throw .notImplemented
  else match header.question with
    | [] => throw .undefined
    | q :: _ =>
        match config.select q.domain with
        | none => throw .forward
        | some zone => do
            modify fun header => { header with AA := true, RD := true, RA := false, RCODE := 0 }
            tryCatch (zone.fill q) fun e => if e = .nameError then zone.fail else throw e
            modifyGet Header.dump

/-- What a query leads to. -/
inductive Reply
  /-- The server answers with the data; the header is the one it was made from. -/
  | answer (header : Header) (data : Bytes)
  /-- The server sends the query on. -/
  | forward
  deriving DecidableEq

/-- `header.dump()`, as a reply. -/
def Header.send (header : Header) : Reply := .answer header.dump.2 header.dump.1

/-- The handlers of `Server::query` of a string, applied to what the other `query` has done. -/
def caught : EStateM.Result Exn Header Bytes → Option Reply
  | .ok data header => some (.answer header data)
  | .error .forward _ => some .forward
  | .error .formatError header => some { header with RCODE := 1 }.send
  | .error .notImplemented header => some { header with RCODE := 4 }.send
  | .error .undefined _ => none
  | .error _ header => some { header with RCODE := 2 }.send

/-- `Server::query` of a string. -/
def query (config : Config) (qs : Bytes) : Option Reply := do
  let header ← Header.parse qs
  caught (queryHeader config header)

/-! ## The header of a reply -/

/-- The header with which a question of a zone is answered, from the header of the query. -/
def Zone.reply (z : Zone) (q : Question) (h : Header) : Header :=
  let h := { h with AA := true, RD := true, RA := false, RCODE := 0 }
  let soa := (z.rrs.lookup (z.domain, TYPE.SOA, CLAS.IN)).getD []
  match z.get q with
  | .ok rrs =>
      let h := { h with answer := rrs, additional := rrs.flatMap fun rr => z.getIP rr.datadn }
      if q.type = TYPE.NS then h
      else match z.rrs.lookup (z.domain, TYPE.NS, CLAS.IN) with
        | some ns => { h with authority := ns }
        | none => { h with RCODE := 3, authority := soa }
  | .error .nameError => { h with RCODE := 3, authority := soa }
  | .error .formatError => { h with RCODE := 1 }
  | .error .notImplemented => { h with RCODE := 4 }
  | .error _ => { h with RCODE := 2 }

/-- The answer section of a reply is what the lookup has found, whatever happens afterwards. -/
theorem reply_answer_of_get (z : Zone) (q : Question) {h : Header} (hanswer : h.answer = []) :
    (z.reply q h).answer = (z.get q).toOption.getD [] := by
  cases hget : z.get q with
  | error e => cases e <;> simp [Zone.reply, hget, hanswer, Except.toOption]
  | ok rrs =>
      by_cases htype : q.type = TYPE.NS
      · simp [Zone.reply, hget, htype, Except.toOption]
      · cases hns : z.rrs.lookup (z.domain, TYPE.NS, CLAS.IN) <;>
          simp [Zone.reply, hget, htype, hns, Except.toOption]

/-- The additional section has the addresses of its targets. -/
theorem reply_additional_of_get (z : Zone) (q : Question) {h : Header}
    (hadditional : h.additional = []) :
    (z.reply q h).additional
      = ((z.get q).toOption.getD []).flatMap fun rr => z.getIP rr.datadn := by
  cases hget : z.get q with
  | error e => cases e <;> simp [Zone.reply, hget, hadditional, Except.toOption]
  | ok rrs =>
      by_cases htype : q.type = TYPE.NS
      · simp [Zone.reply, hget, htype, Except.toOption]
      · cases hns : z.rrs.lookup (z.domain, TYPE.NS, CLAS.IN) <;>
          simp [Zone.reply, hget, htype, hns, Except.toOption]

/-- `parse` clears the three vectors and reads as many questions as it counts. -/
theorem length_parseQuestions {n : ℕ} {s : Bytes} {qs : List Question}
    (h : parseQuestions n s = some qs) : qs.length = n := by
  induction n generalizing s qs with
  | zero =>
      cases h
      rfl
  | succ n ih =>
      simp only [parseQuestions, Option.bind_eq_bind, Option.bind_eq_some_iff, Option.pure_def,
        Option.some.injEq, Prod.exists] at h
      obtain ⟨_, _, -, _, _, -, _, _, -, qs, hqs, rfl⟩ := h
      rw [List.length_cons, ih hqs]

theorem parse_eq_some {qs : Bytes} {h : Header} (hparse : Header.parse qs = some h) :
    h.question.length = h.QDCOUNT.toNat ∧ h.answer = [] ∧ h.authority = [] ∧ h.additional = [] := by
  unfold Header.parse at hparse
  split at hparse
  · simp only [Option.bind_eq_bind, Option.bind_eq_some_iff, Option.pure_def, Option.some.injEq,
      Prod.exists] at hparse
    obtain ⟨_, _, -, _, _, -, _, _, -, _, _, -, _, hquestion, rfl⟩ := hparse
    exact ⟨length_parseQuestions hquestion, rfl, rfl, rfl⟩
  · cases hparse

/-- A query with one question counts one. -/
theorem qdcount_eq_one {qs : Bytes} {h : Header} {q : Question} (hparse : Header.parse qs = some h)
    (hquestion : h.question = [q]) : h.QDCOUNT = 1 := by
  apply UInt16.toNat_inj.mp
  rw [← (parse_eq_some hparse).1, hquestion]
  rfl

/-- The zone of a name is one of the configuration, and the name lies in it. -/
theorem Config.selectLoop_eq_some {config : Config} {n : ℕ} {dn : DN} {z : Zone}
    (h : config.selectLoop n dn = some z) :
    config.zones.lookup z.domain = some z ∧ within dn z.domain := by
  induction n generalizing dn with
  | zero => cases h
  | succ n ih =>
      unfold Config.selectLoop at h
      split_ifs at h with hdn
      split at h
      · next z' hlook =>
          cases h
          rw [config.under dn z hlook]
          exact ⟨hlook, List.prefix_refl dn⟩
      · obtain ⟨hmem, hwithin⟩ := ih h
        exact ⟨hmem, List.IsPrefix.trans hwithin (List.dropLast_prefix dn)⟩

theorem Config.select_eq_some {config : Config} {dn : DN} {z : Zone}
    (h : config.select dn = some z) :
    config.zones.lookup z.domain = some z ∧ within dn z.domain :=
  Config.selectLoop_eq_some h

/-- The zone of a name is the one with the longest name. -/
theorem Config.select_append {config : Config} {base s : DN} {z : Zone} (hbase : base ≠ [])
    (hlook : config.zones.lookup base = some z)
    (hlonger : ∀ t, t ≠ [] → t <+: s → config.zones.lookup (base ++ t) = none) :
    config.select (base ++ s) = some z := by
  rw [Config.select]
  induction s using List.reverseRec with
  | nil =>
      obtain ⟨label, labels, rfl⟩ := List.exists_cons_of_ne_nil hbase
      rw [List.append_nil, List.length_cons, Config.selectLoop, if_neg hbase, hlook]
  | append_singleton s label ih =>
      have hne : base ++ (s ++ [label]) ≠ [] := List.append_ne_nil_of_left_ne_nil hbase _
      have hlen : (base ++ (s ++ [label])).length = (base ++ s).length + 1 := by
        simp only [List.length_append, List.length_singleton]
        omega
      have hdrop : (base ++ (s ++ [label])).dropLast = base ++ s := by
        rw [← List.append_assoc, List.dropLast_concat]
      rw [hlen, Config.selectLoop, if_neg hne,
        hlonger (s ++ [label]) (List.concat_ne_nil label s) (List.prefix_refl _), hdrop]
      exact ih fun t ht hts => hlonger t ht (hts.trans (List.prefix_append s [label]))

/-- What a lookup in a zone throws, for a name that lies in the zone. -/
theorem Zone.get_error {z : Zone} {q : Question} {e : Exn} (hq : within q.domain z.domain)
    (h : z.get q = .error e) : e = .formatError ∨ e = .notImplemented ∨ e = .nameError := by
  unfold Zone.get at h
  rw [if_pos hq] at h
  split at h
  · next e' he =>
      cases h
      exact Or.inl (niplike_error he)
  · cases h
  · by_cases htype : enumContains TYPE.entries q.type
    · rw [if_pos htype] at h
      split at h
      · cases h
      · cases h
        exact Or.inr (Or.inr rfl)
    · rw [if_neg htype] at h
      cases h
      exact Or.inr (Or.inl rfl)

/-- The loop of `query` over the records it has found. -/
theorem foldl_fill (z : Zone) (rrs : List Record) (h : Header) :
    rrs.foldl (fun header rr => { header with
        answer := header.answer ++ [rr]
        additional := header.additional ++ z.getIP rr.datadn }) h
      = { h with
          answer := h.answer ++ rrs
          additional := h.additional ++ rrs.flatMap fun rr => z.getIP rr.datadn } := by
  induction rrs generalizing h with
  | nil => simp
  | cons rr rrs ih => simp [ih]

/-- The record SOA of a zone is found. -/
theorem Zone.getApex_soa (z : Zone) :
    z.getApex TYPE.SOA CLAS.IN
      = .ok ((z.rrs.lookup (z.domain, TYPE.SOA, CLAS.IN)).getD []) := by
  obtain ⟨rrs, hrrs⟩ := Table.mem_iff_lookup.mp z.soa
  rw [Zone.getApex, hrrs, Option.getD_some]

/-- The handler always returns. -/
theorem ends_fail (z : Zone) (h : Header) {Q : Unit → Header → Prop} {E : Exn → Header → Prop} :
    Ends z.fail h Q E ↔ Q () { h with
      RCODE := 3
      authority := (z.rrs.lookup (z.domain, TYPE.SOA, CLAS.IN)).getD [] } := by
  simp only [Zone.fail, ends_bind, ends_modify, ends_ofExcept, Zone.getApex_soa]

/-- How the body of `query` ends: when the zone has no record NS it throws after it has filled
the answer and the additional section. -/
theorem ends_fill (z : Zone) (q : Question) (h : Header) {Q : Unit → Header → Prop}
    {E : Exn → Header → Prop} :
    Ends (z.fill q) h Q E ↔ match z.get q with
      | .error e => E e h
      | .ok rrs =>
          let h' := { h with
            answer := h.answer ++ rrs
            additional := h.additional ++ rrs.flatMap fun rr => z.getIP rr.datadn }
          if q.type = TYPE.NS then Q () h'
          else match z.rrs.lookup (z.domain, TYPE.NS, CLAS.IN) with
            | some ns => Q () { h' with authority := h.authority ++ ns }
            | none => E .nameError h' := by
  simp only [Zone.fill, ends_bind, ends_ofExcept]
  cases z.get q with
  | error e => exact Iff.rfl
  | ok rrs =>
      simp only [ends_forM_modify, foldl_fill, ends_ite, ends_pure, ends_bind, ends_ofExcept,
        ends_modify, Zone.getApex]
      by_cases htype : q.type = TYPE.NS
      · simp [htype]
      · cases z.rrs.lookup (z.domain, TYPE.NS, CLAS.IN) <;> simp [htype]

/-- A query with one question of a zone is answered, with the header `Zone.reply`. -/
theorem query_eq {config : Config} {qs : Bytes} {h : Header} {q : Question} {z : Zone}
    (hparse : Header.parse qs = some h) (hquestion : h.question = [q])
    (hselect : config.select q.domain = some z) :
    query config qs = some (z.reply q h).send := by
  obtain ⟨-, hanswer, hauthority, hadditional⟩ := parse_eq_some hparse
  obtain ⟨-, hwithin⟩ := Config.select_eq_some hselect
  have hone := qdcount_eq_one hparse hquestion
  rw [query, hparse]
  show caught (queryHeader config h) = _
  apply result_of_ends (fun r => caught r = _)
  simp only [queryHeader, ends_bind, ends_get, ends_ite, hone, hquestion, hselect, ends_modify,
    ends_tryCatch, ends_fill, ends_fail, ends_throw, ends_modifyGet, ne_eq, not_true,
    false_implies, not_false_eq_true, true_implies, true_and]
  cases hget : z.get q with
  | error e =>
      rcases Zone.get_error hwithin hget with rfl | rfl | rfl
      · simp [caught, Zone.reply, hget, hone, hquestion]
      · simp [caught, Zone.reply, hget, hone, hquestion]
      · simp [caught, Zone.reply, hget, hone, hquestion, Header.send]
  | ok rrs =>
      by_cases htype : q.type = TYPE.NS
      · simp [caught, Zone.reply, hget, hone, hquestion, hanswer, hadditional, Header.send, htype]
      · cases hns : z.rrs.lookup (z.domain, TYPE.NS, CLAS.IN) with
        | none =>
            simp [caught, Zone.reply, hget, hone, hquestion, hanswer, hadditional, Header.send,
              htype, hns]
        | some ns =>
            simp [caught, Zone.reply, hget, hone, hquestion, hanswer, hauthority, hadditional,
              Header.send, htype, hns]

/-- A query for which there is no zone is sent on. -/
theorem query_forward {config : Config} {qs : Bytes} {h : Header} {q : Question}
    (hparse : Header.parse qs = some h) (hquestion : h.question = [q])
    (hselect : config.select q.domain = none) : query config qs = some .forward := by
  have hone := qdcount_eq_one hparse hquestion
  rw [query, hparse]
  show caught (queryHeader config h) = _
  apply result_of_ends (fun r => caught r = _)
  simp only [queryHeader, ends_bind, ends_get, ends_ite, hone, hquestion, hselect, ends_throw,
    ne_eq, not_true, false_implies, not_false_eq_true, true_implies, true_and, caught]

/-! ## A query -/

/-- A query for the address of `w.a.`. -/
def askBare : Bytes := [7, 7, 1, 0, 0, 1, 0, 0, 0, 0, 0, 0] ++
  (Question.mk (s2dn (ascii "w.a.")) TYPE.A CLAS.IN).dump

/-- What the server reads from it. -/
def askedBare : Header := (Header.parse askBare).get (by decide +kernel)

theorem parse_askBare : Header.parse askBare = some askedBare := (Option.some_get _).symm

theorem question_askBare :
    askedBare.question = [⟨s2dn (ascii "w.a."), TYPE.A, CLAS.IN⟩] := by
  decide +kernel

theorem select_bare : bareConfig.select (s2dn (ascii "w.a.")) = some bare := by
  have happend : s2dn (ascii "w.a.") = s2dn (ascii "a.") ++ [ascii "w"] := by decide +kernel
  rw [happend]
  apply Config.select_append (by decide +kernel) (Option.some_get _).symm
  intro t ht htw
  obtain rfl : t = [ascii "w"] := by
    obtain ⟨label, labels, rfl⟩ := List.exists_cons_of_ne_nil ht
    obtain ⟨rfl, hnil⟩ := List.cons_prefix_cons.mp htw
    rw [List.prefix_nil.mp hnil]
  exact AList.lookup_eq_none.mpr (by decide +kernel)

end Dnsd
