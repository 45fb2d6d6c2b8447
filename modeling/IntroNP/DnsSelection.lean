/-
# The zone of a name

`Server::query` of dnsd shortens a name label by label until the configuration has a zone for it.
Names are stored with the top-level label first, so that a suffix of a name is a prefix of its
list of labels and the loop takes labels off the end of the list.

* `Config.Longest` : the zone of the longest configured suffix of a name;
* `Config.select_eq_some_iff`, `Config.select_eq_none_iff` : the loop finds it;
* `lookup_load` : a configured domain has the zone of the first line that names it;
* `selection` : the zone that a query is answered from.
-/
import IntroNP.DnsServer

namespace Dnsd

/-! ## The longest suffix -/

/-- A zone of the configuration whose domain is the longest configured suffix of a name. -/
structure Config.Longest (config : Config) (dn : DN) (z : Zone) : Prop where
  found : config.zones.lookup z.domain = some z
  suffix : within dn z.domain
  longest : ∀ base ∈ config.zones, within dn base → base.length ≤ z.domain.length

theorem Config.Longest.mem {config : Config} {dn : DN} {z : Zone} (h : config.Longest dn z) :
    z.domain ∈ config.zones :=
  Table.mem_of_lookup h.found

/-- One turn of the loop. -/
theorem Config.select_concat (config : Config) (dn : DN) (label : Bytes) :
    config.select (dn ++ [label]) = (config.zones.lookup (dn ++ [label])).or (config.select dn) := by
  have hne : dn ++ [label] ≠ [] := List.concat_ne_nil label dn
  rw [Config.select, List.length_append, List.length_singleton, Config.selectLoop, if_neg hne,
    List.dropLast_concat]
  cases config.zones.lookup (dn ++ [label]) <;> rfl

/-- A suffix of a name is the name or a suffix of the name without its first label. -/
theorem within_concat {dn base : DN} {label : Bytes} :
    within (dn ++ [label]) base ↔ base = dn ++ [label] ∨ within dn base :=
  List.prefix_concat_iff

/-- A name that is not configured has the zone of the next shorter one. -/
theorem Config.longest_concat {config : Config} {dn : DN} {label : Bytes} {z : Zone}
    (hnone : config.zones.lookup (dn ++ [label]) = none) :
    config.Longest (dn ++ [label]) z ↔ config.Longest dn z := by
  have hshorter : ∀ base ∈ config.zones, within (dn ++ [label]) base → within dn base := by
    intro base hbase hwithin
    rcases within_concat.mp hwithin with rfl | hwithin
    · exact absurd hbase (AList.lookup_eq_none.mp hnone)
    · exact hwithin
  constructor
  · intro h
    exact ⟨h.found, hshorter _ h.mem h.suffix, fun base hbase hwithin =>
      h.longest base hbase (within_concat.mpr (Or.inr hwithin))⟩
  · intro h
    exact ⟨h.found, within_concat.mpr (Or.inr h.suffix), fun base hbase hwithin =>
      h.longest base hbase (hshorter base hbase hwithin)⟩

/-- The loop finds the zone of the longest configured suffix, unless that is the root. -/
theorem Config.select_eq_some_iff {config : Config} {dn : DN} {z : Zone} :
    config.select dn = some z ↔ z.domain ≠ [] ∧ config.Longest dn z := by
  induction dn using List.reverseRec with
  | nil =>
      constructor
      · intro h
        cases h
      · rintro ⟨hne, h⟩
        -- only the root is a suffix of the root
        exact absurd (List.prefix_nil.mp h.suffix) hne
  | append_singleton dn label ih =>
      rw [config.select_concat]
      cases hlook : config.zones.lookup (dn ++ [label]) with
      | none => rw [Option.none_or, ih, Config.longest_concat hlook]
      | some z' =>
          have hdomain : z'.domain = dn ++ [label] := config.under _ _ hlook
          have hmem : dn ++ [label] ∈ config.zones := Table.mem_of_lookup hlook
          rw [Option.some_or, Option.some.injEq]
          constructor
          · rintro rfl
            rw [← hdomain] at hlook ⊢
            refine ⟨?_, hlook, List.prefix_refl _, fun base _ hwithin => hwithin.length_le⟩
            rw [hdomain]
            exact List.concat_ne_nil label dn
          · rintro ⟨-, h⟩
            -- the whole name is configured, so the longest suffix is not shorter
            have hlen := h.longest _ hmem (List.prefix_refl _)
            have heq : z.domain = dn ++ [label] := h.suffix.eq_of_length_le hlen
            have hfound := h.found
            rw [heq, hlook] at hfound
            exact Option.some.inj hfound

/-- The loop finds nothing when no suffix but the root is configured. -/
theorem Config.select_eq_none_iff {config : Config} {dn : DN} :
    config.select dn = none ↔ ¬ ∃ base ∈ config.zones, base ≠ [] ∧ within dn base := by
  induction dn using List.reverseRec with
  | nil =>
      refine iff_of_true rfl ?_
      rintro ⟨base, -, hne, hwithin⟩
      exact hne (List.prefix_nil.mp hwithin)
  | append_singleton dn label ih =>
      have hconcat : dn ++ [label] ≠ [] := List.concat_ne_nil label dn
      rw [config.select_concat, Option.or_eq_none_iff, ih, AList.lookup_eq_none]
      simp only [within_concat, not_exists, not_and, not_or]
      constructor
      · rintro ⟨hnone, hshorter⟩ base hbase hne
        refine ⟨?_, hshorter base hbase hne⟩
        rintro rfl
        exact hnone hbase
      · intro h
        exact ⟨fun hmem => (h _ hmem hconcat).1 rfl, fun base hbase hne => (h base hbase hne).2⟩

/-! ## The lines of a configuration -/

/-- The entries of a configuration file, in its order. -/
def Config.lines (text : Bytes) : Option (List (Bytes × Bytes)) := do
  let (_, s) ← scanSet 19 (fun b => !isSpace b) (skipSpace text)
  scanEntries (s.length + 1) s

/-- The first line for a domain. -/
def firstLine (entries : List (Bytes × Bytes)) (dn : DN) : Option (Bytes × Bytes) :=
  entries.find? fun e => s2dn e.1 = dn

/-- `try_emplace` keeps a zone that is there, so that the first line for a domain counts. -/
theorem lookup_addZones {files : Bytes → Bytes} {entries : List (Bytes × Bytes)}
    {zones zones' : Table DN Zone} (h : entries.foldlM (Config.addZone files) zones = some zones')
    (dn : DN) : zones'.lookup dn
      = (zones.lookup dn).or ((firstLine entries dn).bind fun e => Zone.load dn (files e.2)) := by
  induction entries generalizing zones with
  | nil =>
      cases h
      exact (Option.or_none).symm
  | cons e entries ih =>
      rw [List.foldlM_cons] at h
      obtain ⟨zones₁, hadd, hrest⟩ := Option.bind_eq_some_iff.mp h
      rw [ih hrest, firstLine, firstLine, List.find?_cons]
      dsimp only [Config.addZone] at hadd
      by_cases hdn : s2dn e.1 = dn
      · subst hdn
        rw [decide_eq_true rfl, Option.bind_some]
        split_ifs at hadd with hmem
        · cases hadd
          obtain ⟨z, hz⟩ := Table.mem_iff_lookup.mp hmem
          rw [hz, Option.some_or, Option.some_or]
        · obtain ⟨z, hz, rfl⟩ := Option.map_eq_some_iff.mp hadd
          rw [AList.lookup_insert, AList.lookup_eq_none.mpr hmem, Option.some_or, Option.none_or, hz]
      · rw [decide_eq_false hdn]
        split_ifs at hadd with hmem
        · cases hadd
          rfl
        · obtain ⟨z, hz, rfl⟩ := Option.map_eq_some_iff.mp hadd
          rw [AList.lookup_insert_ne (Ne.symm hdn)]

/-- Under a domain the configuration has the zone of the first line for it. -/
theorem lookup_load {files : Bytes → Bytes} {text : Bytes} {config : Config}
    (h : Config.load files text = some config) : ∃ entries, Config.lines text = some entries ∧
      ∀ dn, config.zones.lookup dn
        = (firstLine entries dn).bind fun e => Zone.load dn (files e.2) := by
  unfold Config.load at h
  obtain ⟨⟨_, s⟩, hip, h⟩ := Option.bind_eq_some_iff.mp h
  obtain ⟨entries, hentries, h⟩ := Option.bind_eq_some_iff.mp h
  refine ⟨entries, ?_, fun dn => ?_⟩
  · rw [Config.lines, hip]
    exact hentries
  · split at h
    · next zones hzones =>
        cases h
        show zones.lookup dn = _
        rw [lookup_addZones hzones, AList.lookup_empty, Option.none_or]
    · cases h

/-! ## The zone of a query -/

/-- What `query` throws for one question: FORWARD when it has found no zone, and two of the
exceptions of the lookup when it has found one. -/
theorem ends_queryHeader (config : Config) {h : Header} {q : Question} (hone : h.QDCOUNT = 1)
    (hquestion : h.question = [q]) :
    Ends (queryHeader config) h (fun _ _ => ∃ z, config.select q.domain = some z)
      (fun e _ => (e = .forward ∧ config.select q.domain = none) ∨
        ((e = .formatError ∨ e = .notImplemented) ∧ ∃ z, config.select q.domain = some z)) := by
  cases hselect : config.select q.domain with
  | none =>
      simp only [queryHeader, ends_bind, ends_get, ends_ite, hone, hquestion, hselect, ends_throw,
        ne_eq, not_true, false_implies, not_false_eq_true, true_implies, true_or, and_self]
  | some z =>
      obtain ⟨-, hwithin⟩ := Config.select_eq_some hselect
      simp only [queryHeader, ends_bind, ends_get, ends_ite, hone, hquestion, hselect,
        ends_modify, ends_tryCatch, ends_fill, ends_fail, ends_throw, ends_modifyGet, ne_eq,
        not_true, false_implies, not_false_eq_true, true_implies, true_and]
      cases hget : z.get q with
      | error e =>
          rcases Zone.get_error hwithin hget with rfl | rfl | rfl <;> simp
      | ok rrs =>
          cases z.rrs.lookup (z.domain, TYPE.NS, CLAS.IN) <;> simp

/-- `query` throws FORWARD when it has found no zone, and never SERVER_FAILURE. -/
theorem queryHeader_error (config : Config) {h : Header} {q : Question} (hone : h.QDCOUNT = 1)
    (hquestion : h.question = [q]) :
    ((∃ h', queryHeader config h = .error .forward h') ↔ config.select q.domain = none) ∧
      ∀ h', queryHeader config h ≠ .error .serverFailure h' := by
  have hends := ends_queryHeader config hone hquestion
  constructor
  · constructor
    · rintro ⟨h', hforward⟩
      rcases hends.of_error hforward with ⟨-, hnone⟩ | ⟨he | he, -⟩
      · exact hnone
      · cases he
      · cases he
    · intro hnone
      cases hresult : queryHeader config h with
      | ok data h' =>
          obtain ⟨z, hz⟩ := hends.of_ok hresult
          rw [hnone] at hz
          cases hz
      | error e h' =>
          rcases hends.of_error hresult with ⟨rfl, -⟩ | ⟨-, z, hz⟩
          · exact ⟨h', rfl⟩
          · rw [hnone] at hz
            cases hz
  · intro h' hfailure
    rcases hends.of_error hfailure with ⟨he, -⟩ | ⟨he | he, -⟩ <;> cases he

/-- A query with one question is answered from the zone of the longest configured suffix of its
name, which is loaded by the first line of the configuration file for its domain.  It is sent on
when no configured domain is a suffix of the name, and the lookup is never asked for a name
outside of its zone. -/
theorem selection (config : Config) (hroot : [] ∉ config.zones) {qs : Bytes} {h : Header}
    {q : Question} (hparse : Header.parse qs = some h) (hquestion : h.question = [q]) :
    (∀ z, config.select q.domain = some z ↔ config.Longest q.domain z) ∧
      (∀ z, config.Longest q.domain z → query config qs = some (z.reply q h).send) ∧
      ((∃ z, config.Longest q.domain z) ↔ ∃ base ∈ config.zones, within q.domain base) ∧
      ((∃ h', queryHeader config h = .error .forward h') ↔
        ¬ ∃ base ∈ config.zones, within q.domain base) ∧
      (∀ z, config.select q.domain = some z →
        within q.domain z.domain ∧ z.get q ≠ .error .serverFailure) ∧
      (∀ h', queryHeader config h ≠ .error .serverFailure h') ∧
      ∀ files text, Config.load files text = some config → ∀ z, config.select q.domain = some z →
        ∃ entries e, Config.lines text = some entries ∧
          firstLine entries z.domain = some e ∧ Zone.load z.domain (files e.2) = some z := by
  have hne : ∀ base ∈ config.zones, base ≠ [] := by
    rintro base hbase rfl
    exact hroot hbase
  have hselect : ∀ z, config.select q.domain = some z ↔ config.Longest q.domain z := by
    intro z
    rw [Config.select_eq_some_iff, and_iff_right_iff_imp]
    intro h
    exact hne _ h.mem
  have hnone : config.select q.domain = none ↔ ¬ ∃ base ∈ config.zones, within q.domain base := by
    rw [Config.select_eq_none_iff, not_iff_not]
    constructor
    · rintro ⟨base, hbase, -, hwithin⟩
      exact ⟨base, hbase, hwithin⟩
    · rintro ⟨base, hbase, hwithin⟩
      exact ⟨base, hbase, hne base hbase, hwithin⟩
  obtain ⟨hforward, hfailure⟩ :=
    queryHeader_error config (qdcount_eq_one hparse hquestion) hquestion
  refine ⟨hselect, ?_, ?_, hforward.trans hnone, ?_, hfailure, ?_⟩
  · intro z hz
    exact query_eq hparse hquestion ((hselect z).mpr hz)
  · rw [← not_iff_not, ← hnone, Option.eq_none_iff_forall_ne_some, not_exists]
    exact forall_congr' fun z => not_congr (hselect z).symm
  · intro z hz
    have hwithin := (Config.select_eq_some hz).2
    refine ⟨hwithin, fun hget => ?_⟩
    rcases Zone.get_error hwithin hget with he | he | he <;> cases he
  · intro files text hload z hz
    obtain ⟨entries, hentries, hlook⟩ := lookup_load hload
    have hfound := (Config.select_eq_some hz).1
    rw [hlook] at hfound
    obtain ⟨e, he, hz⟩ := Option.bind_eq_some_iff.mp hfound
    exact ⟨entries, e, hentries, he, hz⟩

/-- A query about a name below the zone. -/
theorem selection_bare : query bareConfig askBare
    = some (bare.reply ⟨s2dn (ascii "w.a."), TYPE.A, CLAS.IN⟩ askedBare).send := by
  obtain ⟨hselect, hquery, -⟩ :=
    selection bareConfig (by decide +kernel) parse_askBare question_askBare
  exact hquery bare ((hselect bare).mp select_bare)

end Dnsd
