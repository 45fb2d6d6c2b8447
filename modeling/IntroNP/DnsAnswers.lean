/-
# Answers and their question

The records of an answer section against the question: the records that the zone holds under the
key of the question match it, the synthesised record of the nip service has type A and class IN
whatever is asked for.

* `NipShape` : the names for which a record is synthesised;
* `get_matches_iff` : when all that the lookup finds matches the question;
* `answers_match_iff` : when all the answers have the name, the type and the class of the question.
-/
import IntroNP.DnsNip
import IntroNP.DnsServer

namespace Dnsd

/-- Four octets, a label of at most 61 bytes and the name of the zone. -/
def NipShape (base name : DN) : Prop :=
  ∃ a b c d e, name = base ++ [a, b, c, d, e].reverse ∧ e.length ≤ 61 ∧
    ∀ t ∈ [a, b, c, d], NipOctet t

/-- A record is synthesised for the names of that shape. -/
theorem nipShape_iff {base name : DN} (hname : within name base) :
    NipShape base name ↔ ∃ rr, niplike name base = .ok [rr] := by
  obtain ⟨s, rfl⟩ := hname
  obtain ⟨sub, rfl⟩ : ∃ sub : List Bytes, s = sub.reverse := ⟨s.reverse, s.reverse_reverse.symm⟩
  constructor
  · rintro ⟨a, b, c, d, e, hsub, hlen, hoctets⟩
    obtain rfl := List.reverse_injective (List.append_cancel_left hsub)
    have hrdata := (rdata_quad fun t ht => (hoctets t ht).2.2.1).mpr
      ⟨fun t ht => (hoctets t ht).2, rfl⟩
    have hnew := Record.new_of_rdata (base ++ [a, b, c, d, e].reverse) CLAS.IN 1 hrdata
    exact ⟨_, niplike_eq_ok.mpr ⟨a, b, c, d, e, rfl, hlen, hoctets, hnew⟩⟩
  · rintro ⟨rr, hnip⟩
    obtain ⟨a, b, c, d, e, rfl, hlen, hoctets, -⟩ := niplike_eq_ok.mp hnip
    exact ⟨a, b, c, d, e, rfl, hlen, hoctets⟩

theorem Question.key_injective : Function.Injective Question.key := by
  rintro ⟨d, t, c⟩ ⟨d', t', c'⟩ h
  cases h
  rfl

/-- What is found matches the question, unless it has been synthesised for another one. -/
theorem get_matches_iff {z : Zone} {q : Question} (hq : within q.domain z.domain) :
    (∀ r ∈ (z.get q).toOption.getD [], r.toQuestion = q) ↔
      (q.type = TYPE.A ∧ q.clas = CLAS.IN) ∨ ¬ NipShape z.domain q.domain := by
  by_cases hshape : NipShape z.domain q.domain
  · obtain ⟨rr, hnip⟩ := (nipShape_iff hq).mp hshape
    have hget := Zone.get_of_nip hq hnip
    have hrr : rr.toQuestion = ⟨q.domain, TYPE.A, CLAS.IN⟩ := by
      rcases niplike_ok hnip with hnil | ⟨rr', data, hone, hnew⟩
      · cases hnil
      · cases hone
        exact (Record.new_eq_ok hnew).1
    have hall : (∀ r ∈ (z.get q).toOption.getD [], r.toQuestion = q) ↔ rr.toQuestion = q := by
      rw [hget]
      exact List.forall_mem_singleton
    rw [hall, hrr, or_iff_left (not_not.mpr hshape)]
    constructor
    · intro heq
      rw [← heq]
      exact ⟨rfl, rfl⟩
    · rintro ⟨htype, hclas⟩
      rw [← htype, ← hclas]
  · refine iff_of_true (fun r hr => ?_) (Or.inr hshape)
    cases hget : z.get q with
    | error e =>
        rw [hget] at hr
        cases hr
    | ok rrs =>
        rw [hget] at hr
        rcases (Zone.get_eq_ok hget).2 with hnip | ⟨-, hlook⟩
        · rcases niplike_ok hnip with rfl | ⟨rr, -, rfl, -⟩
          · cases hr
          · exact absurd ((nipShape_iff hq).mpr ⟨rr, hnip⟩) hshape
        · exact Question.key_injective ((z.keyed _ _ hlook).2 r hr).1

/-- All the records of an answer section have the name, the type and the class of the question, if
and only if the address of the name is asked for or no address is synthesised for it. -/
theorem answers_match_iff {config : Config} {qs : Bytes} {h : Header} {q : Question} {z : Zone}
    (hparse : Header.parse qs = some h) (hquestion : h.question = [q])
    (hselect : config.select q.domain = some z) :
    (∃ header data, query config qs = some (.answer header data) ∧
      ∀ r ∈ header.answer, r.toQuestion = q) ↔
      (q.type = TYPE.A ∧ q.clas = CLAS.IN) ∨ ¬ NipShape z.domain q.domain := by
  have hanswer : (z.reply q h).close.answer = (z.get q).toOption.getD [] :=
    reply_answer_of_get z q (parse_eq_some hparse).2.1
  rw [query_eq hparse hquestion hselect, ← get_matches_iff (Config.select_eq_some hselect).2,
    ← hanswer]
  constructor
  · rintro ⟨header, data, heq, hall⟩
    cases heq
    exact hall
  · exact fun hall => ⟨_, _, rfl, hall⟩

theorem answers_match_bare :
    (∃ header data, query bareConfig askBare = some (.answer header data) ∧
      ∀ r ∈ header.answer, r.toQuestion = ⟨s2dn (ascii "w.a."), TYPE.A, CLAS.IN⟩) ↔
      (TYPE.A = TYPE.A ∧ CLAS.IN = CLAS.IN) ∨ ¬ NipShape bare.domain (s2dn (ascii "w.a.")) :=
  answers_match_iff parse_askBare question_askBare select_bare

/-- A query for the IPv6 address of `1.2.3.4.w.a.`. -/
def askNip : Bytes := [7, 7, 1, 0, 0, 1, 0, 0, 0, 0, 0, 0] ++
  (Question.mk (s2dn (ascii "1.2.3.4.w.a.")) TYPE.AAAA CLAS.IN).dump

/-- It is answered with an IPv4 address. -/
theorem answers_mismatch : ∃ h header data r,
    Header.parse askNip = some h ∧
    h.question = [⟨s2dn (ascii "1.2.3.4.w.a."), TYPE.AAAA, CLAS.IN⟩] ∧
    query bareConfig askNip = some (.answer header data) ∧
    r ∈ header.answer ∧ r.type = TYPE.A ∧ r.type ≠ TYPE.AAAA := by
  have hanswer : ((query bareConfig askNip).map fun
      | .answer header _ => header.answer.map fun r => r.type
      | .forward => []) = some [TYPE.A] := by
    decide +kernel
  obtain ⟨reply, hreply, htypes⟩ := Option.map_eq_some_iff.mp hanswer
  cases reply with
  | forward => cases htypes
  | answer header data =>
      have hmem : TYPE.A ∈ header.answer.map fun r => r.type := by
        rw [show (header.answer.map fun r => r.type) = [TYPE.A] from htypes]
        exact List.mem_cons_self
      obtain ⟨r, hr, htype⟩ := List.mem_map.mp hmem
      have hparse : Header.parse askNip = some ((Header.parse askNip).get (by decide +kernel)) :=
        (Option.some_get _).symm
      refine ⟨_, header, data, r, hparse, by decide +kernel, hreply, hr, htype, ?_⟩
      rw [htype]
      decide

end Dnsd
