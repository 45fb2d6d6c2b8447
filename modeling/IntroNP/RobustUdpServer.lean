/-
# The receive loop of Lab 8

What the server knows after any number of packets of one honest transfer, whatever their order
and however often each arrives.  The invariant `Recording` says that `recvbit` is exactly the
set of packets received, that `data_map` holds exactly the payloads of those of them that are
chunks, and that `recv_size` counts `DATA_SIZE` bytes for each entry of `data_map`.

* `recording_iterate` : every iteration on a packet of the transfer keeps it;
* `received_all_of_not_continues` : the loop test fails only when every packet is in;
* `missing_of_continues` : while it holds, a packet is missing;
* `take_saveToFile` : what the save then assembles is the client's data.
-/
import IntroNP.RobustUdp

namespace RobustUdp

theorem dataSize_eq : dataSize = 1168 := rfl

theorem dataSize_pos : 0 < dataSize := by rw [dataSize_eq]; omega

theorem uint32Max_eq : uint32Max = 4294967295 := rfl

/-! ## The packets of one transfer -/

/-- The number of chunks of the transfer. -/
def lastSeq (compData : Bytes) : ℕ := numChunks dataSize compData.length

/-- What the client sends under a sequence number. -/
def entry (compData : Bytes) (k : ℕ) : DataT :=
  if k = 0 then zeroData compData.length else chunkData compData (k - 1)

/-- The packet with a sequence number. -/
def packet (compData : Bytes) (k : ℕ) : Hdr := wrapSend k (entry compData k)

/-- A transfer the protocol is meant for: some data, and a bit for every packet. -/
structure Fits (compData : Bytes) : Prop where
  /-- There is data. -/
  pos : 1 ≤ compData.length
  /-- It needs fewer than `DATA_SIZE * 8` chunks. -/
  few : lastSeq compData < dataSize * 8

/-- The client's map before the first round holds the entries 0 to `lastSeq`. -/
theorem mem_initialMap {compData : Bytes} {e : ℕ × DataT} :
    e ∈ initialMap compData ↔ e.1 ≤ lastSeq compData ∧ e.2 = entry compData e.1 := by
  obtain ⟨k, d⟩ := e
  simp only [initialMap, chunkIndices_eq dataSize_pos, List.mem_cons, Prod.mk.injEq,
    List.mem_map, List.mem_range]
  constructor
  · rintro (⟨rfl, rfl⟩ | ⟨i, hi, rfl, rfl⟩)
    · exact ⟨Nat.zero_le _, rfl⟩
    · exact ⟨hi, by simp [entry]⟩
  · rintro ⟨hk, rfl⟩
    cases k with
    | zero => exact Or.inl ⟨rfl, rfl⟩
    | succ i => exact Or.inr ⟨i, hk, rfl, by simp [entry]⟩

section

variable {compData : Bytes} (hfit : Fits compData)
include hfit

/-- The size of the data is far from the end of 32 bits. -/
theorem length_lt : compData.length < uint32Max := by
  have hlen := le_numChunks_mul dataSize_pos compData.length
  have hfew := hfit.few
  rw [lastSeq] at hfew
  rw [dataSize_eq] at hlen hfew
  rw [uint32Max_eq]
  omega

/-- Packet 0 announces the size of the data. -/
theorem announced_packet_zero :
    ofLE ((packet compData 0).data.1.take 8) % 2 ^ 32 = compData.length := by
  have hlt := length_lt hfit
  rw [uint32Max_eq] at hlt
  have htake : (packet compData 0).data.1.take 8 = leBytes 8 compData.length := by
    simp only [packet, entry, wrapSend, zeroData, pad, if_true, List.append_assoc]
    rw [List.take_left' (length_leBytes 8 _)]
  rw [htake, ofLE_leBytes]
  omega

end

/-! ## What one packet does -/

@[simp] theorem updateKeep_compSize (sv : Server) : sv.updateKeep.compSize = sv.compSize := by
  unfold Server.updateKeep; dsimp only; split <;> rfl

@[simp] theorem updateKeep_recvSize (sv : Server) : sv.updateKeep.recvSize = sv.recvSize := by
  unfold Server.updateKeep; dsimp only; split <;> rfl

@[simp] theorem updateKeep_dataMap (sv : Server) : sv.updateKeep.dataMap = sv.dataMap := by
  unfold Server.updateKeep; dsimp only; split <;> rfl

@[simp] theorem updateKeep_sendHdr (sv : Server) : sv.updateKeep.sendHdr = sv.sendHdr := by
  unfold Server.updateKeep; dsimp only; split <;> rfl

@[simp] theorem updateKeep_phase (sv : Server) : sv.updateKeep.phase = sv.phase := by
  unfold Server.updateKeep; dsimp only; split <;> rfl

@[simp] theorem updateKeep_saved (sv : Server) : sv.updateKeep.saved = sv.saved := by
  unfold Server.updateKeep; dsimp only; split <;> rfl

@[simp] theorem updateKeep_continues (sv : Server) : sv.updateKeep.continues ↔ sv.continues := by
  simp only [Server.continues, updateKeep_compSize, updateKeep_recvSize]

@[simp] theorem record_phase (sv : Server) (p : Hdr) : (sv.record p).phase = sv.phase := by
  unfold Server.record; dsimp only; split_ifs <;> rfl

@[simp] theorem record_saved (sv : Server) (p : Hdr) : (sv.record p).saved = sv.saved := by
  unfold Server.record; dsimp only; split_ifs <;> rfl

@[simp] theorem record_sendHdr (sv : Server) (p : Hdr) :
    (sv.record p).sendHdr = { sv.sendHdr with data := sv.sendHdr.data.set p.dataSeq } := by
  unfold Server.record; dsimp only; split_ifs <;> rfl

/-- A received packet sets its own bit and no other. -/
theorem record_recvbit (sv : Server) {p : Hdr} (hp : p.dataSeq < dataSize * 8) (j : ℕ) :
    (sv.record p).recvbit j = (decide (j = p.dataSeq) || sv.recvbit j) := by
  simp only [Server.recvbit, record_sendHdr, Hdr.bit, Payload.set]
  exact getBit_setBit (by rw [sv.sendHdr.data.2]; omega) j

theorem record_compSize (sv : Server) (p : Hdr) :
    (sv.record p).compSize
      = if p.dataSeq = 0 then ofLE (p.data.1.take 8) % 2 ^ 32 else sv.compSize := by
  unfold Server.record; dsimp only; split_ifs <;> rfl

theorem record_dataMap (sv : Server) (p : Hdr) :
    (sv.record p).dataMap
      = if p.dataSeq = 0 ∨ p.dataSeq ∈ sv.dataMap then sv.dataMap
        else sv.dataMap.insert p.dataSeq p.data := by
  unfold Server.record; dsimp only; split_ifs <;> simp_all

theorem record_recvSize (sv : Server) (p : Hdr) :
    (sv.record p).recvSize
      = if p.dataSeq = 0 ∨ p.dataSeq ∈ sv.dataMap then sv.recvSize
        else (sv.recvSize + dataSize) % 2 ^ 32 := by
  unfold Server.record; dsimp only; split_ifs <;> simp_all

/-! ## The invariant of the receive loop -/

/-- What the server has recorded of an honest transfer, up to the save. -/
structure Recording (compData : Bytes) (sv : Server) : Prop where
  /-- Only packets of the transfer are marked. -/
  inRange : ∀ k, sv.recvbit k = true → k ≤ lastSeq compData
  /-- The size is known exactly when packet 0 is in. -/
  announced : sv.compSize = if sv.recvbit 0 then compData.length else uint32Max
  /-- `data_map` holds exactly the chunks that are marked. -/
  stored : ∀ k, sv.dataMap[k]?
    = if 1 ≤ k ∧ sv.recvbit k = true then some (packet compData k).data else none
  /-- `recv_size` counts whole payloads. -/
  counted : sv.recvSize = dataSize * sv.dataMap.size

/-- The keys of `data_map` are numbers of chunks. -/
theorem Recording.mem_dataMap {compData : Bytes} {sv : Server} (h : Recording compData sv)
    (k : ℕ) : k ∈ sv.dataMap ↔ 1 ≤ k ∧ sv.recvbit k = true := by
  rw [Std.TreeMap.mem_iff_isSome_getElem?, h.stored]
  split <;> simp_all

/-- The keys of `data_map`, as a set. -/
theorem Recording.keys_subset {compData : Bytes} {sv : Server} (h : Recording compData sv) :
    sv.dataMap.keys.toFinset ⊆ Finset.Icc 1 (lastSeq compData) := by
  intro k hk
  rw [List.mem_toFinset, Std.TreeMap.mem_keys, h.mem_dataMap] at hk
  exact Finset.mem_Icc.mpr ⟨hk.1, h.inRange k hk.2⟩

theorem card_keys (m : Std.TreeMap ℕ Payload) : m.keys.toFinset.card = m.size := by
  have hnodup : m.keys.Nodup := by
    refine Std.TreeMap.distinct_keys.imp ?_
    intro a b hab heq
    exact hab (by rw [heq]; exact Std.ReflCmp.compare_self)
  rw [List.toFinset_card_of_nodup hnodup, Std.TreeMap.length_keys]

/-- There are never more entries than chunks. -/
theorem Recording.size_le {compData : Bytes} {sv : Server} (h : Recording compData sv) :
    sv.dataMap.size ≤ lastSeq compData := by
  have hcard := Finset.card_le_card h.keys_subset
  rw [card_keys, Nat.card_Icc] at hcard
  omega

/-- The server has recorded nothing at the start. -/
theorem recording_initial (compData : Bytes) : Recording compData Server.initial := by
  have hbit : ∀ k, Server.initial.recvbit k = false := fun k =>
    getBit_replicate_zero dataSize k
  constructor
  · intro k hk
    rw [hbit] at hk
    cases hk
  · rw [hbit]; rfl
  · intro k
    rw [hbit]
    simp [Server.initial]
  · rfl

/-- Recording a packet of the transfer keeps the record exact. -/
theorem recording_record {compData : Bytes} (hfit : Fits compData) {sv : Server}
    (h : Recording compData sv) {k : ℕ} (hk : k ≤ lastSeq compData) :
    Recording compData (sv.record (packet compData k)) := by
  have hseq : (packet compData k).dataSeq = k := rfl
  have hfew := hfit.few
  have hbit := record_recvbit sv (p := packet compData k) (by rw [hseq]; omega)
  rw [hseq] at hbit
  have hsize := h.size_le
  have hstep : (sv.recvSize + dataSize) % 2 ^ 32 = dataSize * (sv.dataMap.size + 1) := by
    rw [h.counted, dataSize_eq] at *
    omega
  constructor
  · intro j hj
    rw [hbit, Bool.or_eq_true, decide_eq_true_eq] at hj
    rcases hj with rfl | hj
    · exact hk
    · exact h.inRange j hj
  · rw [record_compSize, hbit, hseq]
    by_cases hk0 : k = 0
    · subst hk0
      rw [if_pos rfl, announced_packet_zero hfit]
      simp
    · rw [if_neg hk0, h.announced]
      simp [Ne.symm hk0]
  · intro j
    rw [record_dataMap, hbit, hseq]
    by_cases hold : k = 0 ∨ k ∈ sv.dataMap
    · rw [if_pos hold, h.stored]
      rcases hold with rfl | hold
      · rcases Nat.eq_zero_or_pos j with rfl | hj
        · simp
        · simp [Nat.pos_iff_ne_zero.mp hj]
      · obtain ⟨hk1, hkbit⟩ := (h.mem_dataMap k).mp hold
        by_cases hjk : j = k
        · subst hjk
          simp [hkbit]
        · simp [hjk]
    · rw [if_neg hold, Std.TreeMap.getElem?_insert, h.stored]
      by_cases hjk : j = k
      · subst hjk
        have hj1 : 1 ≤ j := by omega
        simp [hj1]
      · simp [hjk, Ne.symm hjk]
  · rw [record_recvSize, record_dataMap, hseq]
    by_cases hold : k = 0 ∨ k ∈ sv.dataMap
    · rw [if_pos hold, if_pos hold, h.counted]
    · have hnew : sv.dataMap.contains k = false := by
        rw [← Bool.not_eq_true, Std.TreeMap.contains_iff_mem]
        exact fun hmem => hold (Or.inr hmem)
      rw [if_neg hold, if_neg hold, hstep, Std.TreeMap.size_insert, hnew]
      simp

/-! ## The loop test -/

/-- When the loop test fails, every packet of the transfer is in. -/
theorem received_all_of_not_continues {compData : Bytes} {sv : Server}
    (h : Recording compData sv) (hstop : ¬ sv.continues) :
    sv.compSize = compData.length ∧ ∀ k ≤ lastSeq compData, sv.recvbit k = true := by
  obtain ⟨hknown, hdone⟩ := not_or.mp hstop
  have hzero : sv.recvbit 0 = true := by
    by_contra hne
    exact hknown (by rw [h.announced, if_neg hne])
  have hcomp : sv.compSize = compData.length := by rw [h.announced, if_pos hzero]
  have hfull : lastSeq compData ≤ sv.dataMap.size := by
    by_contra hlt
    have hmul := (lt_numChunks_iff dataSize_pos compData.length sv.dataMap.size).mp (by
      rw [← lastSeq]; omega)
    rw [hcomp, h.counted, Nat.mul_comm] at hdone
    exact hdone hmul
  have hkeys : sv.dataMap.keys.toFinset = Finset.Icc 1 (lastSeq compData) := by
    refine Finset.eq_of_subset_of_card_le h.keys_subset ?_
    rw [card_keys, Nat.card_Icc]
    omega
  refine ⟨hcomp, fun k hk => ?_⟩
  rcases Nat.eq_zero_or_pos k with rfl | hpos
  · exact hzero
  · have hmem : k ∈ sv.dataMap.keys.toFinset := by
      rw [hkeys]
      exact Finset.mem_Icc.mpr ⟨hpos, hk⟩
    rw [List.mem_toFinset, Std.TreeMap.mem_keys, h.mem_dataMap] at hmem
    exact hmem.2

/-- While the loop goes on, some packet of the transfer is missing. -/
theorem missing_of_continues {compData : Bytes} (hfit : Fits compData) {sv : Server}
    (h : Recording compData sv) (hgo : sv.continues) :
    ∃ k ≤ lastSeq compData, sv.recvbit k = false := by
  by_contra hnone
  push Not at hnone
  have hall : ∀ k ≤ lastSeq compData, sv.recvbit k = true := by
    intro k hk
    simpa using hnone k hk
  have hcomp : sv.compSize = compData.length := by
    rw [h.announced, if_pos (hall 0 (Nat.zero_le _))]
  have hkeys : sv.dataMap.keys.toFinset = Finset.Icc 1 (lastSeq compData) := by
    refine Finset.Subset.antisymm h.keys_subset ?_
    intro k hk
    obtain ⟨hk1, hkN⟩ := Finset.mem_Icc.mp hk
    rw [List.mem_toFinset, Std.TreeMap.mem_keys, h.mem_dataMap]
    exact ⟨hk1, hall k hkN⟩
  have hsize : sv.dataMap.size = lastSeq compData := by
    rw [← card_keys, hkeys, Nat.card_Icc]
    omega
  have hlen := le_numChunks_mul dataSize_pos compData.length
  have hlt := length_lt hfit
  rcases hgo with hunknown | hsmall
  · omega
  · rw [hcomp, h.counted, hsize, Nat.mul_comm, lastSeq] at hsmall
    omega

/-! ## One iteration -/

@[simp] theorem iterate_compSize (sv : Server) (p : Hdr) (timer : Bool) :
    (sv.iterate p timer).1.compSize = (sv.record p).compSize := by
  unfold Server.iterate; dsimp only; split_ifs <;> simp

@[simp] theorem iterate_recvSize (sv : Server) (p : Hdr) (timer : Bool) :
    (sv.iterate p timer).1.recvSize = (sv.record p).recvSize := by
  unfold Server.iterate; dsimp only; split_ifs <;> simp

@[simp] theorem iterate_dataMap (sv : Server) (p : Hdr) (timer : Bool) :
    (sv.iterate p timer).1.dataMap = (sv.record p).dataMap := by
  unfold Server.iterate; dsimp only; split_ifs <;> simp

@[simp] theorem iterate_sendHdr (sv : Server) (p : Hdr) (timer : Bool) :
    (sv.iterate p timer).1.sendHdr = (sv.record p).sendHdr := by
  unfold Server.iterate; dsimp only; split_ifs <;> simp

@[simp] theorem iterate_continues (sv : Server) (p : Hdr) (timer : Bool) :
    (sv.iterate p timer).1.continues ↔ (sv.record p).continues := by
  simp only [Server.continues, iterate_compSize, iterate_recvSize]

/-- The server leaves the loop in the iteration after which the loop test fails. -/
theorem iterate_phase (sv : Server) (p : Hdr) (timer : Bool) :
    (sv.iterate p timer).1.phase = if (sv.record p).continues then sv.phase else .saving := by
  unfold Server.iterate
  simp only [updateKeep_continues]
  split_ifs <;> simp

/-- What an iteration sends: the reply three times, with the bits as they are after the packet,
if the timer has run out. -/
theorem iterate_out (sv : Server) (p : Hdr) (timer : Bool) :
    (sv.iterate p timer).2 = if timer then doReponse (sv.record p).sendHdr else [] := by
  unfold Server.iterate
  simp only [updateKeep_sendHdr]
  split_ifs <;> rfl

/-- A reply is sent only when the timer has run out. -/
theorem mem_iterate_out {sv : Server} {p r : Hdr} {timer : Bool}
    (h : r ∈ (sv.iterate p timer).2) : timer = true ∧ r = (sv.record p).sendHdr := by
  rw [iterate_out] at h
  cases timer with
  | false => simp at h
  | true => exact ⟨rfl, List.eq_of_mem_replicate h⟩

/-- The record only depends on four variables of the server. -/
theorem Recording.congr {compData : Bytes} {sv sv' : Server} (h : Recording compData sv)
    (hcomp : sv'.compSize = sv.compSize) (hrecv : sv'.recvSize = sv.recvSize)
    (hmap : sv'.dataMap = sv.dataMap) (hhdr : sv'.sendHdr = sv.sendHdr) :
    Recording compData sv' := by
  have hbit : sv'.recvbit = sv.recvbit := by
    unfold Server.recvbit
    rw [hhdr]
  constructor
  · rw [hbit]; exact h.inRange
  · rw [hbit, hcomp]; exact h.announced
  · rw [hbit, hmap]; exact h.stored
  · rw [hrecv, hmap]; exact h.counted

/-- Every iteration on a packet of the transfer keeps the record exact. -/
theorem recording_iterate {compData : Bytes} (hfit : Fits compData) {sv : Server}
    (h : Recording compData sv) {k : ℕ} (hk : k ≤ lastSeq compData) (timer : Bool) :
    Recording compData (sv.iterate (packet compData k) timer).1 :=
  (recording_record hfit h hk).congr (iterate_compSize _ _ _) (iterate_recvSize _ _ _)
    (iterate_dataMap _ _ _) (iterate_sendHdr _ _ _)

/-- The bits of an iteration: the packet's own and the old ones. -/
theorem iterate_recvbit {compData : Bytes} (hfit : Fits compData) (sv : Server) {k : ℕ}
    (hk : k ≤ lastSeq compData) (timer : Bool) (j : ℕ) :
    (sv.iterate (packet compData k) timer).1.recvbit j = (decide (j = k) || sv.recvbit j) := by
  have hfew := hfit.few
  have hseq : (packet compData k).dataSeq = k := rfl
  rw [Server.recvbit, iterate_sendHdr, ← Server.recvbit, record_recvbit sv (by rw [hseq]; omega),
    hseq]

/-! ## The save -/

/-- The buffer of `save_to_file` has room for exactly the chunks. -/
theorem saveBufferSize_eq_numChunks {size : ℕ} (hpos : 1 ≤ size) (hlt : size < 2 ^ 32) :
    saveBufferSize size = numChunks dataSize size * dataSize := by
  have hmod : (size + 2 ^ 32 - 1) % 2 ^ 32 = size - 1 := by omega
  have hround : 1 + (size - 1) / 1168 = (size + 1168 - 1) / 1168 := by omega
  rw [saveBufferSize, hmod, numChunks, dataSize_eq, hround]

/-- The chunks of the client's data fill the buffer. -/
theorem saveBufferSize_eq {compData : Bytes} (hfit : Fits compData) :
    saveBufferSize compData.length = lastSeq compData * dataSize := by
  have hlt := length_lt hfit
  rw [uint32Max_eq] at hlt
  exact saveBufferSize_eq_numChunks hfit.pos (by omega)

theorem length_padded (compData : Bytes) :
    (pad (lastSeq compData * dataSize) compData).length = lastSeq compData * dataSize :=
  length_pad (le_numChunks_mul dataSize_pos _)

/-- A payload stored under a chunk's number agrees with the padded data where it is copied. -/
theorem agrees_packet {compData : Bytes} {k : ℕ} (hk1 : 1 ≤ k) (hk : k ≤ lastSeq compData) :
    Agrees (pad (lastSeq compData * dataSize) compData)
      ((k - 1) * dataSize, (packet compData k).data.1) := by
  obtain ⟨i, rfl⟩ : ∃ i, k = i + 1 := ⟨k - 1, by omega⟩
  have hlen := (packet compData (i + 1)).data.2
  have hmul : (i + 1) * dataSize ≤ lastSeq compData * dataSize := Nat.mul_le_mul_right _ hk
  have hpayload : (packet compData (i + 1)).data.1
      = ((pad (lastSeq compData * dataSize) compData).drop (i * dataSize)).take dataSize := by
    rw [← pad_chunk hk]
    simp [packet, wrapSend, entry, chunkData]
  rw [Nat.add_mul, Nat.one_mul] at hmul
  constructor
  · rw [length_padded]
    dsimp only
    rw [hlen, Nat.add_sub_cancel]
    exact hmul
  · dsimp only
    rw [hlen, Nat.add_sub_cancel, ← hpayload]

/-- What `save_to_file` assembles from a complete map is the padded data, whatever the buffer
held before. -/
theorem saveToFile_eq {compData : Bytes} {sv : Server} (h : Recording compData sv)
    (hall : ∀ k ≤ lastSeq compData, sv.recvbit k = true) {buf : Bytes}
    (hbuf : buf.length = lastSeq compData * dataSize) :
    saveToFile buf sv.dataMap = pad (lastSeq compData * dataSize) compData := by
  apply writeAll_eq (by rw [hbuf, length_padded])
  · intro w hw
    simp only [saveWrites, List.mem_map, List.mem_filter] at hw
    obtain ⟨⟨k, d⟩, ⟨hget, -⟩, rfl⟩ := hw
    rw [Std.TreeMap.mem_toList_iff_getElem?_eq_some, h.stored] at hget
    split at hget
    · rename_i hk
      cases hget
      exact agrees_packet hk.1 (h.inRange k hk.2)
    · cases hget
  · intro p hp
    rw [length_padded] at hp
    have hi : p / dataSize < lastSeq compData := Nat.div_lt_of_lt_mul (by rwa [Nat.mul_comm])
    refine ⟨(p / dataSize * dataSize, (packet compData (p / dataSize + 1)).data.1), ?_, ?_⟩
    · simp only [saveWrites, List.mem_map, List.mem_filter]
      refine ⟨(p / dataSize + 1, (packet compData (p / dataSize + 1)).data), ⟨?_, by simp⟩, ?_⟩
      · rw [Std.TreeMap.mem_toList_iff_getElem?_eq_some, h.stored,
          if_pos ⟨Nat.le_add_left 1 _, hall _ hi⟩]
      · rw [Nat.add_sub_cancel]
    · have hdiv := Nat.div_add_mod p dataSize
      have hmod := Nat.mod_lt p dataSize_pos
      rw [Nat.mul_comm] at hdiv
      constructor
      · dsimp only
        omega
      · dsimp only
        rw [(packet compData (p / dataSize + 1)).data.2]
        omega

/-- The first `comp_size` bytes of what `save_to_file` assembles are the client's data. -/
theorem take_saveToFile {compData : Bytes} (hfit : Fits compData) {sv : Server}
    (h : Recording compData sv) (hstop : ¬ sv.continues) {buf : Bytes}
    (hbuf : buf.length = saveBufferSize sv.compSize) :
    (saveToFile buf sv.dataMap).take sv.compSize = compData := by
  obtain ⟨hcomp, hall⟩ := received_all_of_not_continues h hstop
  rw [hcomp, saveBufferSize_eq hfit] at hbuf
  rw [saveToFile_eq h hall hbuf, hcomp, pad, List.take_left]

end RobustUdp
