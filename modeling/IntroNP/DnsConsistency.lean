/-
# Consistency of the replies of dnsd

A reply is consistent when its RCODE says whether there are records in it.  The function that
fills the header looks up the records NS of the zone only after it has appended the answers, and
the handler of the exception leaves these in the header.

* `Consistent` : the property;
* `Zone.has_iff` : when the lookup of a question finds a record;
* `reply_consistent_iff` : the queries whose reply is consistent.
-/
import IntroNP.DnsServer

namespace Dnsd

/-- The RCODE is 0 if the lookup finds a record, and a reply with another RCODE has no records in
its answer section and in its additional section. -/
def Consistent (z : Zone) (q : Question) (header : Header) : Prop :=
  ((∃ rrs, z.get q = .ok rrs ∧ rrs ≠ []) → header.RCODE = 0) ∧
    (header.RCODE ≠ 0 → header.answer = [] ∧ header.additional = [])

/-- There is a record for the question: an address that is written in the name, or else records
under its name, type and class, of a type that the server knows. -/
def Zone.Has (z : Zone) (q : Question) : Prop :=
  (∃ rr, niplike q.domain z.domain = .ok [rr]) ∨
    (niplike q.domain z.domain = .ok [] ∧ enumContains TYPE.entries q.type ∧ q.key ∈ z.rrs)

/-- The lookup of a question finds a record when there is one. -/
theorem Zone.has_iff {z : Zone} {q : Question} (hq : within q.domain z.domain) :
    z.Has q ↔ ∃ rrs, z.get q = .ok rrs := by
  constructor
  · rintro (⟨rr, hnip⟩ | ⟨hnip, htype, hkey⟩)
    · exact ⟨[rr], Zone.get_of_nip hq hnip⟩
    · obtain ⟨rrs, hrrs⟩ := Table.mem_iff_lookup.mp hkey
      exact ⟨rrs, by rw [Zone.get_of_key hq hnip htype, hrrs]⟩
  · rintro ⟨rrs, hget⟩
    obtain ⟨hne, hnip | ⟨hnip, hlook⟩⟩ := Zone.get_eq_ok hget
    · rcases niplike_ok hnip with rfl | ⟨rr, data, rfl, -⟩
      · exact absurd rfl hne
      · exact Or.inl ⟨rr, hnip⟩
    · refine Or.inr ⟨hnip, ?_, Table.mem_of_lookup hlook⟩
      by_contra htype
      rw [Zone.get_of_unknown hq hnip htype] at hget
      cases hget

/-- The header of a reply is consistent when the question is about NS, or the zone has records NS,
or the lookup finds nothing. -/
theorem consistent_reply {z : Zone} {q : Question} {h : Header} (hq : within q.domain z.domain)
    (hanswer : h.answer = []) (hadditional : h.additional = []) :
    Consistent z q (z.reply q h) ↔
      q.type = TYPE.NS ∨ (z.domain, TYPE.NS, CLAS.IN) ∈ z.rrs ∨ ¬ z.Has q := by
  rw [Zone.has_iff hq, ← AList.lookup_isSome]
  cases hget : z.get q with
  | error e =>
      -- no record has been appended when the lookup throws
      have hempty : (z.reply q h).answer = [] ∧ (z.reply q h).additional = [] := by
        rw [reply_answer_of_get z q hanswer, reply_additional_of_get z q hadditional, hget]
        exact ⟨rfl, rfl⟩
      have hcons : Consistent z q (z.reply q h) := by
        refine ⟨?_, fun _ => hempty⟩
        rintro ⟨rrs, hrrs, -⟩
        rw [hget] at hrrs
        cases hrrs
      simp [hcons]
  | ok rrs =>
      have hne := (Zone.get_eq_ok hget).1
      by_cases htype : q.type = TYPE.NS
      · have hcons : Consistent z q (z.reply q h) := by simp [Consistent, Zone.reply, hget, htype]
        simp [hcons, htype]
      · cases hns : z.rrs.lookup (z.domain, TYPE.NS, CLAS.IN) with
        | some ns =>
            have hcons : Consistent z q (z.reply q h) := by
              simp [Consistent, Zone.reply, hget, htype, hns]
            simp [hcons]
        | none =>
            -- the second lookup throws, and the records of the first one stay
            have hbad : ¬ Consistent z q (z.reply q h) := by
              simp [Consistent, Zone.reply, hget, htype, hns, hne]
            simp [hbad, htype]

/-- A query with one question of a zone has a consistent reply when the question is about NS, or
the zone has records NS, or there is no record for the question. -/
theorem reply_consistent_iff {config : Config} {qs : Bytes} {h : Header} {q : Question} {z : Zone}
    (hparse : Header.parse qs = some h) (hquestion : h.question = [q])
    (hselect : config.select q.domain = some z) :
    (∃ header data, query config qs = some (.answer header data) ∧ Consistent z q header) ↔
      q.type = TYPE.NS ∨ (z.domain, TYPE.NS, CLAS.IN) ∈ z.rrs ∨ ¬ z.Has q := by
  obtain ⟨-, hanswer, -, hadditional⟩ := parse_eq_some hparse
  obtain ⟨-, hwithin⟩ := Config.select_eq_some hselect
  rw [← consistent_reply hwithin hanswer hadditional, query_eq hparse hquestion hselect]
  constructor
  · rintro ⟨header, data, hsend, hcons⟩
    cases hsend
    exact hcons
  · intro hcons
    exact ⟨_, _, rfl, hcons⟩

/-- A zone without records NS, asked for an address. -/
theorem reply_consistent_iff_bare :
    (∃ header data, query bareConfig askBare = some (.answer header data) ∧
        Consistent bare ⟨s2dn (ascii "w.a."), TYPE.A, CLAS.IN⟩ header) ↔
      TYPE.A = TYPE.NS ∨ (bare.domain, TYPE.NS, CLAS.IN) ∈ bare.rrs ∨
        ¬ bare.Has ⟨s2dn (ascii "w.a."), TYPE.A, CLAS.IN⟩ :=
  reply_consistent_iff parse_askBare question_askBare select_bare

/-- Its reply says that the name does not exist, and gives the address. -/
theorem inconsistent_reply : ∃ header data,
    query bareConfig askBare = some (.answer header data) ∧ header.RCODE = 3 ∧
      header.answer.map Record.rdata = [[1, 2, 3, 4]] ∧
      ¬ Consistent bare ⟨s2dn (ascii "w.a."), TYPE.A, CLAS.IN⟩ header := by
  have hreply := query_eq parse_askBare question_askBare select_bare
  have hrcode : (bare.reply ⟨s2dn (ascii "w.a."), TYPE.A, CLAS.IN⟩ askedBare).dump.2.RCODE = 3 := by
    decide +kernel
  have hanswer : (bare.reply ⟨s2dn (ascii "w.a."), TYPE.A, CLAS.IN⟩ askedBare).dump.2.answer.map
      Record.rdata = [[1, 2, 3, 4]] := by
    decide +kernel
  refine ⟨_, _, hreply, hrcode, hanswer, ?_⟩
  rintro ⟨-, hempty⟩
  have hnil := (hempty (by rw [hrcode]; decide)).1
  rw [hnil] at hanswer
  cases hanswer

end Dnsd
