/-
# What a transfer of Lab 8 delivers

The consequences of `SafeInv` for the data.

* `transfer_safe` : what the server holds when it leaves its receive loop, and what
  `save_to_file` makes of it;
* `run_recorded_of_recvbit` : every packet marked in `recvbit` has been recorded before;
* `acknowledgement_safe` : a packet is erased or skipped by the client only after the server
  has recorded it.
-/
import IntroNP.RobustUdpRuns

namespace RobustUdp

open Machine

/-! ## The data -/

/-- When the server leaves its receive loop, `data_map` holds exactly the chunks 1 to
`lastSeq`, and the first `comp_size` bytes of what `save_to_file` assembles, whatever its
buffer held before, are the client's data; after the save they are what it has assembled. -/
theorem transfer_safe {compData : Bytes} (hfit : Fits compData)
    {past : List (Moment State Event Unit)} {s : State} (hrun : Run (system compData) past s) :
    (s.server.phase = .saving →
      s.server.compSize = compData.length ∧
      (∀ k, s.server.dataMap[k]?
        = if 1 ≤ k ∧ k ≤ lastSeq compData then some (packet compData k).data else none) ∧
      ∀ buf : Bytes, buf.length = saveBufferSize s.server.compSize →
        (saveToFile buf s.server.dataMap).take s.server.compSize = compData) ∧
    (s.server.phase = .fin →
      ∃ b, s.server.saved = some b ∧ b.take compData.length = compData) := by
  have h := run_safeInv hfit hrun
  refine ⟨fun hsaving => ?_, fun hfin => (h.finished hfin).2⟩
  have hrec := h.recording (by rw [hsaving]; decide)
  obtain ⟨hcomp, hall⟩ := received_all_of_not_continues hrec (h.stopped hsaving)
  refine ⟨hcomp, fun k => ?_, fun buf hbuf => take_saveToFile hfit hrec (h.stopped hsaving) hbuf⟩
  have hiff : (1 ≤ k ∧ s.server.recvbit k = true) ↔ (1 ≤ k ∧ k ≤ lastSeq compData) :=
    and_congr_right fun _ => ⟨hrec.inRange k, hall k⟩
  rw [hrec.stored]
  simp only [hiff]

/-- A transfer of two chunks that have arrived in the reverse order, with the size behind them. -/
theorem transfer_safe_two : ∃ past s, Run (system twoChunks) past s ∧ arrivals past = [0, 1, 2] ∧
    s.server.phase = .saving ∧ s.server.compSize = dataSize + 1 ∧
    (∀ k, s.server.dataMap[k]?
      = if 1 ≤ k ∧ k ≤ 2 then some (packet twoChunks k).data else none) ∧
    ∀ buf : Bytes, buf.length = saveBufferSize s.server.compSize →
      (saveToFile buf s.server.dataMap).take s.server.compSize = twoChunks := by
  obtain ⟨past, s, s', hrun, harrived, -, hexit, -, -, hphase⟩ :=
    exists_early_exit fits_twoChunks order_twoChunks
  obtain ⟨hcomp, hmap, hsaved⟩ := (transfer_safe fits_twoChunks (run_next hrun hexit)).1 hphase
  rw [lastSeq_twoChunks] at hmap
  rw [length_twoChunks] at hcomp
  exact ⟨_, s', run_next hrun hexit, harrived, hphase, hcomp, hmap, hsaved⟩

/-! ## Acknowledgements -/

/-- The server has recorded packet `k`: the announced size for packet 0, the chunk's bytes in
`data_map` for the others. -/
def Recorded (compData : Bytes) (s : State) (k : ℕ) : Prop :=
  if k = 0 then s.server.compSize = compData.length
  else s.server.dataMap[k]? = some (packet compData k).data

/-- The step erases the entry of the client's map. -/
def Erases (s s' : State) (k : ℕ) : Prop := k ∈ s.client.keys ∧ k ∉ s'.client.keys

/-- The send round is about to skip the entry because its bit is set. -/
def Skips (s : State) (k : ℕ) : Prop :=
  ∃ data todo, s.client.pc = .sending ((k, data) :: todo) ∧ s.client.donebit k = true

/-- Up to the save, a marked packet is recorded. -/
theorem recorded_of_recvbit {compData : Bytes} {s : State} (hrec : Recording compData s.server)
    {k : ℕ} (hk : s.server.recvbit k = true) : Recorded compData s k := by
  rw [Recorded]
  split_ifs with hk0
  · subst hk0
    rw [hrec.announced, if_pos hk]
  · rw [hrec.stored, if_pos ⟨Nat.one_le_iff_ne_zero.mpr hk0, hk⟩]

/-- In every run, a packet marked in `recvbit` has been recorded in some state of the run: now
if the save is still to come, else before it. -/
theorem run_recorded_of_recvbit {compData : Bytes} (hfit : Fits compData)
    {past : List (Moment State Event Unit)} {s : State} (hrun : Run (system compData) past s) :
    ∀ k, s.server.recvbit k = true → ∃ t ∈ states past s, Recorded compData t k := by
  refine hrun.history_invariant (C := fun _ _ => True)
    (I := fun past s => ∀ k, s.server.recvbit k = true → ∃ t ∈ states past s, Recorded compData t k)
    ?_ ?_ (fun _ _ => trivial)
  · intro k hk
    have h := safeInv_initial compData
    exact ⟨_, mem_states_self _ _, recorded_of_recvbit (h.recording nofun) hk⟩
  · intro past s a s' o hrun ih _ hnext k hk
    rw [system_next] at hnext
    have h' := safeInv_next hfit (run_safeInv hfit hrun) hnext
    by_cases hfin : s'.server.phase = .fin
    · rw [(server_of_fin hnext hfin).1] at hk
      obtain ⟨t, ht, hrec⟩ := ih k hk
      exact ⟨t, mem_states_next ht, hrec⟩
    · exact ⟨s', mem_states_self _ _, recorded_of_recvbit (h'.recording hfin) hk⟩

/-- A step that erases an entry takes place at the end of a round, and the entry's bit is set
in the reply the client kept. -/
theorem donebit_of_erases {s s' : State} {a : Event} (hs : next s a = some s') {k : ℕ}
    (herase : Erases s s' k) : s.client.donebit k = true := by
  obtain ⟨hin, hout⟩ := herase
  cases a with
  | clientVisit =>
      simp only [next, Client.visit, Option.map_eq_some_iff] at hs
      obtain ⟨r, hr, rfl⟩ := hs
      split at hr
      · cases hr
        exact absurd hin hout
      · cases hr
        exact absurd hin hout
      · cases hr
  | clientRecv res =>
      simp only [next, Client.readResp, Option.ite_none_right_eq_some,
        Option.map_eq_some_iff] at hs
      obtain ⟨-, cl, hcl, rfl⟩ := hs
      split at hcl
      · cases hcl
        exact absurd hin hout
      · cases hcl
  | clientTimeout =>
      simp only [next, Client.eraseDone, Option.map_eq_some_iff] at hs
      obtain ⟨cl, hcl, rfl⟩ := hs
      split at hcl
      · cases hcl
        by_contra hdone
        obtain ⟨e, he, rfl⟩ := List.mem_map.mp hin
        exact hout (List.mem_map.mpr ⟨e, List.mem_filter.mpr ⟨he, by simpa using hdone⟩, rfl⟩)
      · cases hcl
  | serverRecv p timer =>
      simp only [next, Option.ite_none_right_eq_some] at hs
      obtain ⟨-, hs⟩ := hs
      split at hs
      · cases hs
        exact absurd hin hout
      · cases hs
      · cases hs
        exact absurd hin hout
  | serverSave buf =>
      simp only [next, Option.ite_none_right_eq_some, Option.some.injEq] at hs
      obtain ⟨-, rfl⟩ := hs
      exact absurd hin hout

/-- In every run, a chunk is erased by the client, or skipped in a send round, only when the
server has recorded it before; and when the client has terminated, through either exit, the
server has recorded every packet of the transfer. -/
theorem acknowledgement_safe {compData : Bytes} (hfit : Fits compData)
    {past : List (Moment State Event Unit)} {s : State} (hrun : Run (system compData) past s) :
    (∀ a s', next s a = some s' → ∀ k, Erases s s' k ∨ Skips s k →
      ∃ t ∈ states past s, Recorded compData t k) ∧
    (s.client.terminated → ∀ k ≤ lastSeq compData,
      ∃ t ∈ states past s, Recorded compData t k) := by
  have h := run_safeInv hfit hrun
  have hrecorded := run_recorded_of_recvbit hfit hrun
  constructor
  · intro a s' hs k hk
    have hdone : s.client.donebit k = true := by
      rcases hk with herase | ⟨data, todo, -, hdone⟩
      · exact donebit_of_erases hs herase
      · exact hdone
    exact hrecorded k (h.seen k hdone)
  · intro hterm k hk
    refine hrecorded k ?_
    rcases hterm with hexit | hexit
    · exact (h.finished (h.exitFin hexit)).1 k hk
    · rcases h.erased k hk with hkey | hbit
      · rw [Client.keys, h.exitEmpty hexit] at hkey
        cases hkey
      · exact hbit

/-- Both chunks have arrived in the reverse order when the client erases them and terminates. -/
theorem acknowledgement_safe_two : ∃ past s s', Run (system twoChunks) past s ∧
    arrivals past = [0, 1, 2] ∧ next s .clientTimeout = some s' ∧
    (∀ k ≤ 2, Erases s s' k ∧ ∃ t ∈ states past s, Recorded twoChunks t k) ∧
    s'.client.terminated ∧
    ∀ k ≤ 2, ∃ t ∈ states (⟨s, .clientTimeout, ()⟩ :: past) s', Recorded twoChunks t k := by
  obtain ⟨past, s, s', hrun, harrived, hfull, hexit, hempty, hpc, -⟩ :=
    exists_early_exit fits_twoChunks order_twoChunks
  have herase : ∀ k ≤ 2, Erases s s' k := by
    intro k hk
    rw [Erases, Client.keys, Client.keys, hfull, hempty]
    have hmem : (k, entry twoChunks k) ∈ initialMap twoChunks :=
      mem_initialMap.mpr ⟨hk.trans_eq lastSeq_twoChunks.symm, rfl⟩
    exact ⟨List.mem_map.mpr ⟨_, hmem, rfl⟩, List.not_mem_nil⟩
  refine ⟨past, s, s', hrun, harrived, hexit, fun k hk => ⟨herase k hk, ?_⟩, Or.inr hpc,
    fun k hk => ?_⟩
  · exact (acknowledgement_safe fits_twoChunks hrun).1 _ s' hexit k (Or.inl (herase k hk))
  · refine (acknowledgement_safe fits_twoChunks (run_next hrun hexit)).2 (Or.inr hpc) k ?_
    rw [lastSeq_twoChunks]
    exact hk

end RobustUdp
