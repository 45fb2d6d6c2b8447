/-
# Finite tables

The C++ maps of the servers as Mathlib's association lists with distinct keys.  The order of an
unordered map is unspecified; a table lists its newest key first and keeps a key's place when
its value changes.

* `Table.emplace` : C++'s `emplace`, which does nothing when the key is there;
* `Table.modify` : a change of the value under a key, in place;
* `mem_iff_lookup` : the keys of a table;
* `lookup_emplace`, `lookup_modify`, `lookup_erase'` : what a table holds afterwards;
* `map_values`, `values_insert`, `countP_erase` : the values it holds;
* `length_insert`, `length_erase`, `length_modify` : how many they are;
* `mem_getD_nil` : what is in the list under a key, of a table of lists.
-/
import Mathlib.Data.List.AList

/-- A table from `α` to `β`. -/
abbrev Table (α β : Type*) := AList (fun _ : α => β)

namespace Table

variable {α β : Type*} [DecidableEq α]

/-- `emplace`: an existing key keeps its value. -/
def emplace (k : α) (b : β) (t : Table α β) : Table α β :=
  if k ∈ t then t else t.insert k b

/-- The value under the key, if there is one, replaced by its image. -/
def modify (k : α) (f : β → β) (t : Table α β) : Table α β where
  entries := t.entries.map fun e => if e.1 = k then ⟨e.1, f e.2⟩ else e
  nodupKeys := by
    have hkeys : (t.entries.map fun e => if e.1 = k then ⟨e.1, f e.2⟩ else e).keys = t.keys := by
      rw [List.keys, List.map_map, AList.keys, List.keys]
      refine List.map_congr_left fun e _ => ?_
      by_cases he : e.1 = k <;> simp [he]
    rw [List.NodupKeys, hkeys]
    exact t.keys_nodup

/-- The values of the table, in its order. -/
def values (t : Table α β) : List β := t.entries.map Sigma.snd

/-- The keys of a table are those under which there is a value. -/
theorem mem_iff_lookup {k : α} {t : Table α β} : k ∈ t ↔ ∃ b, t.lookup k = some b := by
  rw [← AList.lookup_isSome, Option.isSome_iff_exists]

theorem mem_of_lookup {k : α} {b : β} {t : Table α β} (h : t.lookup k = some b) : k ∈ t :=
  mem_iff_lookup.mpr ⟨b, h⟩

theorem lookup_emplace (k k' : α) (b : β) (t : Table α β) :
    (emplace k b t).lookup k' = if k' = k ∧ k ∉ t then some b else t.lookup k' := by
  rw [emplace]
  by_cases hk : k ∈ t
  · simp [hk]
  · by_cases hk' : k' = k
    · subst hk'
      rw [if_neg hk, AList.lookup_insert, if_pos ⟨rfl, hk⟩]
    · rw [if_neg hk, AList.lookup_insert_ne hk', if_neg (fun h => hk' h.1)]

theorem lookup_modify (k k' : α) (f : β → β) (t : Table α β) :
    (modify k f t).lookup k' = if k' = k then (t.lookup k').map f else t.lookup k' := by
  obtain ⟨l, hl⟩ := t
  show List.dlookup k' (l.map fun e => if e.1 = k then ⟨e.1, f e.2⟩ else e)
    = if k' = k then (List.dlookup k' l).map f else List.dlookup k' l
  clear hl
  induction l with
  | nil => simp
  | cons e l ih =>
      obtain ⟨a, b⟩ := e
      have hhead : ∀ (c : β) (r : List (Sigma fun _ : α => β)),
          List.dlookup k' (⟨a, c⟩ :: r) = if k' = a then some c else List.dlookup k' r := by
        intro c r
        by_cases hk : k' = a
        · subst hk
          rw [if_pos rfl]
          exact List.dlookup_cons_eq (β := fun _ : α => β) r k' c
        · rw [if_neg hk]
          exact List.dlookup_cons_ne (β := fun _ : α => β) r ⟨a, c⟩ hk
      rw [List.map_cons, hhead b l]
      by_cases hak : a = k
      · rw [if_pos hak, hhead (f b), ih]
        by_cases hk : k' = a
        · simp [hk, hak]
        · rw [if_neg hk, if_neg hk]
      · rw [if_neg hak, hhead b, ih]
        by_cases hk : k' = a
        · simp [hk, hak]
        · rw [if_neg hk, if_neg hk]

@[simp] theorem mem_modify {k k' : α} {f : β → β} {t : Table α β} :
    k' ∈ modify k f t ↔ k' ∈ t := by
  rw [← AList.lookup_isSome, ← AList.lookup_isSome, lookup_modify]
  by_cases hk : k' = k <;> simp [hk]

theorem lookup_erase' (k k' : α) (t : Table α β) :
    (AList.erase k t).lookup k' = if k' = k then none else t.lookup k' := by
  by_cases hk : k' = k
  · subst hk
    rw [if_pos rfl, AList.lookup_erase]
  · rw [if_neg hk, AList.lookup_erase_ne hk]

/-- The entries of a table are its keys with the values found under them. -/
theorem mem_entries_iff {k : α} {b : β} {t : Table α β} :
    (⟨k, b⟩ : Sigma fun _ : α => β) ∈ t.entries ↔ t.lookup k = some b :=
  AList.mem_lookup_iff.symm

/-- What is computed from the values of a table, computed from its keys. -/
theorem map_values {γ : Type*} {t : Table α β} {g : β → γ} {h : α → γ}
    (heq : ∀ k b, t.lookup k = some b → g b = h k) : (values t).map g = t.keys.map h := by
  rw [values, AList.keys, List.keys, List.map_map, List.map_map]
  exact List.map_congr_left fun e he => heq e.1 e.2 (mem_entries_iff.mp he)

/-- The values of a table, with one under a new key. -/
theorem values_insert {k : α} {t : Table α β} (h : k ∉ t) (b : β) :
    values (t.insert k b) = b :: values t := by
  rw [values, AList.entries_insert_of_notMem h, List.map_cons]
  rfl

/-- The values of a table, counted before and after one of them is erased. -/
theorem countP_erase (p : β → Bool) {k : α} {b : β} {t : Table α β} (h : t.lookup k = some b) :
    (values t).countP p = (values (t.erase k)).countP p + if p b then 1 else 0 := by
  have hmem : k ∈ t.entries.keys := mem_of_lookup h
  obtain ⟨b', l₁, l₂, hnot, hl, herase⟩ := List.exists_of_kerase hmem
  have hb : b' = b := by
    have hlookup : (⟨k, b'⟩ : Sigma fun _ : α => β) ∈ t.entries := by
      rw [hl]
      exact List.mem_append_right _ List.mem_cons_self
    rw [mem_entries_iff, h] at hlookup
    exact (Option.some.inj hlookup).symm
  have hvalues : values t = l₁.map Sigma.snd ++ b :: l₂.map Sigma.snd := by
    rw [values, hl, List.map_append, List.map_cons, hb]
  have hrest : values (t.erase k) = l₁.map Sigma.snd ++ l₂.map Sigma.snd := by
    show (List.kerase k t.entries).map Sigma.snd = _
    rw [herase, List.map_append]
  rw [hvalues, hrest, List.countP_append, List.countP_append, List.countP_cons]
  omega

theorem length_insert {k : α} {t : Table α β} (h : k ∉ t) (b : β) :
    (t.insert k b).entries.length = t.entries.length + 1 := by
  rw [AList.entries_insert_of_notMem h, List.length_cons]

theorem length_erase {k : α} {b : β} {t : Table α β} (h : t.lookup k = some b) :
    (t.erase k).entries.length + 1 = t.entries.length := by
  have hcount := countP_erase (fun _ => true) h
  simp only [List.countP_true, values, List.length_map, if_true] at hcount
  omega

theorem length_modify (k : α) (f : β → β) (t : Table α β) :
    (modify k f t).entries.length = t.entries.length :=
  List.length_map _

/-- The list under a key is empty when there is none. -/
theorem mem_getD_nil {γ : Type*} {o : Option (List γ)} {c : γ} :
    c ∈ o.getD [] ↔ ∃ cs, o = some cs ∧ c ∈ cs := by
  cases o with
  | none => simp
  | some cs => simp

end Table
