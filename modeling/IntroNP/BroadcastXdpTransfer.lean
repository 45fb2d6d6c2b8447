/-
# What a transfer of Lab 10 delivers

The runs in which no station mistakes its own packets.  The server counts whole payloads, and it
leaves its loop when their sum reaches the size; the client ends when it has read a packet with the
last number, or when everything has been erased.

* `Server.Records` : what the server has is the client's;
* `continues_iff` : the loop goes on exactly as long as a packet is missing;
* `TransferInv`, `transferInv_next` : the invariant, and that these steps keep it;
* `transfer_delivers` : the client does not end before the server has left its loop, and then the
  server finds the files of the client.
-/
import IntroNP.FileTransfers

namespace BroadcastXdp

variable {data : Bytes} {sv sv' : Server} {f : Frame} {effect : Effect}

/-! ## The packets of a transfer -/

/-- The number of the last packet. -/
def lastSeq (data : Bytes) : ℕ := numChunks dataSize data.length

/-- The payload of a chunk. -/
def payload (data : Bytes) (i : ℕ) : Payload :=
  ⟨pad dataSize (chunk dataSize data i), length_pad (length_chunk_le dataSize data i)⟩

theorem length_lt (hfew : lastSeq data < dataSize * 8) : data.length < uint32Max := by
  have hlen := le_numChunks_mul dataSize_pos data.length
  rw [lastSeq] at hfew
  rw [dataSize_eq] at hlen hfew
  rw [uint32Max_eq]
  omega

/-- The numbers of the client's entries. -/
theorem exists_mem_initialMap {k : ℕ} : (∃ e ∈ initialMap data, e.1 = k) ↔ k ≤ lastSeq data := by
  rw [← List.mem_map, FileTransfers.map_fst_broadcastXdp,
    FileTransfers.mem_sequenceNumbers dataSize_pos, lastSeq]

/-- Behind the first one, the client's packets carry the chunks. -/
theorem data_wrap {e : ℕ × DataT} (he : e ∈ initialMap data) (hpos : e.1 ≠ 0) :
    (wrap e).data = payload data (e.1 - 1) := by
  rcases List.mem_cons.mp he with rfl | he
  · exact absurd rfl hpos
  · obtain ⟨i, -, rfl⟩ := List.mem_map.mp he
    rfl

/-- Packet 0 carries the size. -/
theorem origSize_wrap (hfew : lastSeq data < dataSize * 8) {e : ℕ × DataT}
    (he : e ∈ initialMap data) (hzero : e.1 = 0) : origSize (wrap e) = data.length := by
  have hentry : e = (0, zeroData data.length) := Prod.ext hzero (snd_of_mem_initialMap he hzero)
  have hlt := length_lt hfew
  rw [uint32Max_eq] at hlt
  rw [origSize, hentry, take_wrap_zeroData, ofLE_leBytes]
  omega

/-! ## What the server has -/

/-- What the server has of a transfer. -/
structure Server.Records (data : Bytes) (sv : Server) : Prop where
  /-- The size is not known, or it is that of the data. -/
  size : sv.origSize = uint32Max ∨ sv.origSize = data.length
  /-- The table holds chunks of the data. -/
  chunks : ∀ k d, sv.dataMap.lookup k = some d →
    1 ≤ k ∧ k ≤ lastSeq data ∧ d = payload data (k - 1)
  /-- `recv_size` counts whole payloads. -/
  counted : sv.recvSize = dataSize * sv.dataMap.entries.length

/-- The keys of the table are numbers of chunks. -/
theorem Server.Records.keys_subset (h : sv.Records data) :
    sv.dataMap.keys.toFinset ⊆ Finset.Icc 1 (lastSeq data) := by
  intro k hk
  obtain ⟨d, hd⟩ := Table.mem_iff_lookup.mp (AList.mem_keys.mpr (List.mem_toFinset.mp hk))
  obtain ⟨hpos, hle, -⟩ := h.chunks k d hd
  exact Finset.mem_Icc.mpr ⟨hpos, hle⟩

theorem card_keys (t : Table ℕ Payload) : t.keys.toFinset.card = t.entries.length := by
  rw [List.toFinset_card_of_nodup t.keys_nodup, AList.keys, List.keys, List.length_map]

theorem Server.Records.length_le (h : sv.Records data) :
    sv.dataMap.entries.length ≤ lastSeq data := by
  have hcard := Finset.card_le_card h.keys_subset
  rw [card_keys, Nat.card_Icc] at hcard
  omega

/-- The loop goes on exactly as long as a packet is missing. -/
theorem continues_iff (hfew : lastSeq data < dataSize * 8) (h : sv.Records data) :
    sv.continues ↔ ∃ k ≤ lastSeq data, ¬ sv.Stored k := by
  have hlt := length_lt hfew
  constructor
  · rintro (hunknown | hless)
    · exact ⟨0, Nat.zero_le _, fun hstored => absurd hunknown hstored⟩
    · by_cases hunknown : sv.origSize = uint32Max
      · exact ⟨0, Nat.zero_le _, fun hstored => absurd hunknown hstored⟩
      -- there are fewer entries than chunks, so a chunk is in none of them
      rw [h.size.resolve_left hunknown, h.counted, Nat.mul_comm,
        ← lt_numChunks_iff dataSize_pos] at hless
      have hcard : sv.dataMap.keys.toFinset.card < (Finset.Icc 1 (lastSeq data)).card := by
        rw [card_keys, Nat.card_Icc, Nat.add_sub_cancel]
        exact hless
      obtain ⟨k, hk, hmissing⟩ := Finset.exists_mem_notMem_of_card_lt_card hcard
      obtain ⟨hpos, hle⟩ := Finset.mem_Icc.mp hk
      refine ⟨k, hle, fun hstored => hmissing ?_⟩
      rw [Server.Stored, if_neg (by omega)] at hstored
      exact List.mem_toFinset.mpr (AList.mem_keys.mp hstored)
  · rintro ⟨k, hle, hmissing⟩
    rw [Server.Stored] at hmissing
    by_cases hunknown : sv.origSize = uint32Max
    · exact Or.inl hunknown
    rw [Server.continues, h.size.resolve_left hunknown, h.counted, Nat.mul_comm,
      ← lt_numChunks_iff dataSize_pos]
    right
    split_ifs at hmissing with hzero
    · exact absurd hunknown hmissing
    -- the keys are among the other numbers
    have hsub : sv.dataMap.keys.toFinset ⊆ (Finset.Icc 1 (lastSeq data)).erase k := by
      refine Finset.subset_erase.mpr ⟨h.keys_subset, fun hk => hmissing ?_⟩
      exact AList.mem_keys.mpr (List.mem_toFinset.mp hk)
    have hcard := Finset.card_le_card hsub
    rw [card_keys, Finset.card_erase_of_mem (Finset.mem_Icc.mpr ⟨by omega, hle⟩),
      Nat.card_Icc, Nat.add_sub_cancel] at hcard
    show sv.dataMap.entries.length < lastSeq data
    omega

/-- The packets that the server can mark, of those on the air. -/
theorem FrameOk.markable (hf : FrameOk data sv f) (hroom : f.pkt.sessSeq < 8 * dataSize) :
    f.pkt.sessSeq = 0 ∨ ∃ e ∈ initialMap data, f.pkt = wrap e := by
  unfold FrameOk at hf
  split at hf
  · exact Or.inr hf
  · refine hf.1.imp_right fun hmax => ?_
    rw [hmax, uint32Max_eq, dataSize_eq] at hroom
    omega

/-- The server records a packet that it does not mistake. -/
theorem records_record (hfew : lastSeq data < dataSize * 8) (h : sv.Records data)
    (hf : FrameOk data sv f) (hown : f.sender = .server → sv.origSize ≠ uint32Max)
    (hrecord : sv.record f = some (sv', effect)) : sv'.Records data := by
  obtain ⟨hroom, hrec⟩ := recorded_of_record hrecord
  cases hrec with
  | size hseq hunknown =>
      refine ⟨Or.inr ?_, h.chunks, h.counted⟩
      have hclient : f.sender = .client := by
        cases hsender : f.sender with
        | client => rfl
        | server => exact absurd hunknown (hown hsender)
      rw [FrameOk, hclient] at hf
      obtain ⟨e, he, hpkt⟩ := hf
      rw [hpkt] at hseq ⊢
      exact origSize_wrap hfew he hseq
  | known => exact ⟨h.size, h.chunks, h.counted⟩
  | old => exact ⟨h.size, h.chunks, h.counted⟩
  | chunk hseq hnew =>
      obtain ⟨e, he, hpkt⟩ := (hf.markable hroom).resolve_left hseq
      have hkey : f.pkt.sessSeq = e.1 := by rw [hpkt]; rfl
      have hle := exists_mem_initialMap.mp ⟨e, he, rfl⟩
      refine ⟨h.size, fun k d hd => ?_, ?_⟩
      · by_cases hk : k = f.pkt.sessSeq
        · subst hk
          rw [AList.lookup_insert, Option.some.injEq] at hd
          rw [hkey] at hseq ⊢
          refine ⟨by omega, hle, ?_⟩
          rw [← hd, hpkt]
          exact data_wrap he hseq
        · rw [AList.lookup_insert_ne hk] at hd
          exact h.chunks k d hd
      · have hlength := h.length_le
        show (sv.recvSize + dataSize) % 2 ^ 32 = _
        rw [Table.length_insert hnew, h.counted]
        rw [dataSize_eq] at hfew ⊢
        omega

/-! ## The invariant -/

/-- The client has left its loop, by either exit. -/
def Client.terminated (cl : Client) : Prop := cl.pc = .exitFin ∨ cl.pc = .exitEmpty

instance (cl : Client) : Decidable cl.terminated :=
  match h : cl.pc with
  | .exitFin => .isTrue (Or.inl h)
  | .exitEmpty => .isTrue (Or.inr h)
  | .reading => .isFalse (by rintro (hterm | hterm) <;> rw [h] at hterm <;> cases hterm)
  | .sending _ => .isFalse (by rintro (hterm | hterm) <;> rw [h] at hterm <;> cases hterm)

/-- What holds of a transfer in which no station mistakes its own packets. -/
structure TransferInv (data : Bytes) (s : State) : Prop where
  /-- The roles of the packets. -/
  roles : RoleInv data s
  /-- What the server has is the client's. -/
  records : s.server.Records data
  /-- The server is in its loop as long as the loop goes on. -/
  looping : s.server.phase = .receiving ↔ s.server.continues
  /-- Before its end it does not send the last number. -/
  plain : s.server.phase = .receiving → s.server.sendPkt.sessSeq = 0
  /-- Nor is such a packet of it on the air. -/
  fins : ∀ g ∈ s.air, g.sender = .server → g.pkt.sessSeq = uint32Max → s.server.phase = .fin
  /-- What the client does not hold is stored. -/
  held : ∀ k ≤ lastSeq data, (∃ e ∈ s.client.dataMap, e.1 = k) ∨ s.server.Stored k
  /-- The client does not end before the server has everything. -/
  exits : s.client.terminated → s.server.phase = .fin

section steps

variable {s s' : State}

theorem transferInv_clientVisit (h : TransferInv data s) (hroles : RoleInv data s')
    (hnext : next s .clientVisit = some (s', effect)) : TransferInv data s' := by
  obtain ⟨⟨cl, out⟩, hvisit, heq⟩ := Option.map_eq_some_iff.mp hnext
  cases heq
  have hspec : cl.dataMap = s.client.dataMap ∧ ¬ cl.terminated := by
    unfold Client.visit at hvisit
    split at hvisit <;> cases hvisit
    · exact ⟨rfl, by rintro (⟨⟨⟩⟩ | ⟨⟨⟩⟩)⟩
    · exact ⟨rfl, by rintro (⟨⟨⟩⟩ | ⟨⟨⟩⟩)⟩
  refine ⟨hroles, h.records, h.looping, h.plain, ?_, ?_, fun hterm => absurd hterm hspec.2⟩
  · intro g hg hsender
    rcases List.mem_append.mp hg with hg | hg
    · exact h.fins g hg hsender
    · obtain ⟨p, -, rfl⟩ := List.mem_map.mp hg
      cases hsender
  · show ∀ k ≤ lastSeq data, (∃ e ∈ cl.dataMap, e.1 = k) ∨ s.server.Stored k
    rw [hspec.1]
    exact h.held

/-- A client that reads the last number has read it from the server. -/
theorem transferInv_clientRecv (hfew : lastSeq data < dataSize * 8) (h : TransferInv data s)
    (hroles : RoleInv data s') {i : ℕ} (hnext : next s (.clientRecv i) = some (s', effect)) :
    TransferInv data s' := by
  obtain ⟨f, hf, hnext⟩ := Option.bind_eq_some_iff.mp hnext
  obtain ⟨cl, hread, heq⟩ := Option.bind_eq_some_iff.mp hnext
  cases heq
  have hair := List.mem_of_getElem? hf
  unfold Client.readResp at hread
  split at hread
  · by_cases hvalid : checksum f.pkt = f.pkt.checksum
    · rw [if_pos hvalid] at hread
      cases hread
      refine ⟨hroles, h.records, h.looping, h.plain, h.fins, h.held, fun hterm => ?_⟩
      have hmax : f.pkt.sessSeq = uint32Max := by
        by_contra hne
        dsimp only [Client.terminated] at hterm
        rw [if_neg hne] at hterm
        rcases hterm with hterm | hterm <;> cases hterm
      refine h.fins f hair ?_ hmax
      cases hsender : f.sender with
      | server => rfl
      | client =>
          have hframe := h.roles.air f hair
          rw [FrameOk, hsender] at hframe
          obtain ⟨e, he, hpkt⟩ := hframe
          have hle := exists_mem_initialMap.mp ⟨e, he, rfl⟩
          have hkey : f.pkt.sessSeq = e.1 := by rw [hpkt]; rfl
          rw [← hkey, hmax, uint32Max_eq] at hle
          rw [dataSize_eq] at hfew
          omega
    · rw [if_neg hvalid] at hread
      cases hread
      exact h
  · cases hread

/-- A client that has erased everything has erased what is stored. -/
theorem transferInv_clientTimeout (hfew : lastSeq data < dataSize * 8) (h : TransferInv data s)
    (hroles : RoleInv data s') (hown : ∀ f, s.client.sRes = some f → f.sender = .server)
    (hnext : next s .clientTimeout = some (s', effect)) : TransferInv data s' := by
  obtain ⟨-, keys, heffect, hstored⟩ := roleInv_clientTimeout h.roles hown hnext
  obtain ⟨⟨cl, keys'⟩, herase, heq⟩ := Option.map_eq_some_iff.mp hnext
  cases heq
  cases heffect
  unfold Client.eraseDone at herase
  split at herase
  · cases herase
    have hheld : ∀ k ≤ lastSeq data,
        (∃ e ∈ s.client.dataMap.filter (fun e => !s.client.donebit e.1), e.1 = k) ∨
          s.server.Stored k := by
      intro k hk
      rcases h.held k hk with ⟨e, he, rfl⟩ | hk
      · cases hdone : s.client.donebit e.1 with
        | false => exact Or.inl ⟨e, List.mem_filter.mpr ⟨he, by rw [hdone]; rfl⟩, rfl⟩
        | true => exact Or.inr (hstored _
            (List.mem_map.mpr ⟨e, List.mem_filter.mpr ⟨he, hdone⟩, rfl⟩))
      · exact Or.inr hk
    refine ⟨hroles, h.records, h.looping, h.plain, h.fins, hheld, fun hterm => ?_⟩
    have hempty : s.client.dataMap.filter (fun e => !s.client.donebit e.1) = [] := by
      by_contra hne
      dsimp only [Client.terminated] at hterm
      rw [if_neg (by rwa [List.isEmpty_iff])] at hterm
      rcases hterm with hterm | hterm <;> cases hterm
    -- then nothing is missing, and the server is not in its loop
    have hstop : ¬ s.server.continues := by
      rw [continues_iff hfew h.records]
      rintro ⟨k, hk, hmissing⟩
      rcases hheld k hk with ⟨e, he, -⟩ | hk
      · rw [hempty] at he
        cases he
      · exact hmissing hk
    cases hphase : s.server.phase with
    | receiving => exact absurd (h.looping.mp hphase) hstop
    | fin => rfl
  · cases herase

/-- What one iteration of the loop leaves. -/
theorem records_iterate (hfew : lastSeq data < dataSize * 8) (h : sv.Records data)
    (hf : FrameOk data sv f) (hown : f.sender = .server → sv.origSize ≠ uint32Max)
    (hphase : sv.phase = .receiving) (hcontinues : sv.continues)
    (hplain : sv.sendPkt.sessSeq = 0) {due : Bool} {out : List Pkt}
    (hiterate : sv.iterate f due = some (sv', out, effect)) :
    sv'.Records data ∧ (sv'.phase = .receiving ↔ sv'.continues) ∧
      (sv'.phase = .receiving → sv'.sendPkt.sessSeq = 0) ∧ ∀ p ∈ out, p.sessSeq = 0 := by
  unfold Server.iterate at hiterate
  dsimp only at hiterate
  by_cases hvalid : checksum f.pkt = f.pkt.checksum
  · rw [if_pos hvalid] at hiterate
    obtain ⟨⟨sv₁, effect₁⟩, hrecord, heq⟩ := Option.map_eq_some_iff.mp hiterate
    have h₀ : Server.Records data { sv with recvPkt := some f } := ⟨h.size, h.chunks, h.counted⟩
    have hf₀ : FrameOk data { sv with recvPkt := some f } f := hf.mono fun _ hk => hk
    have h₁ := records_record hfew h₀ hf₀ hown hrecord
    obtain ⟨hsend, -, hphase₁⟩ := (recorded_of_record hrecord).2.sendPkt
    have hplain₁ : sv₁.sendPkt.sessSeq = 0 := by rw [hsend]; exact hplain
    have hout : ∀ p ∈ (if due then [send sv₁.sendPkt] else []), p.sessSeq = 0 := by
      intro p hp
      split_ifs at hp
      · rw [List.mem_singleton.mp hp]
        exact hplain₁
      · cases hp
    cases heq
    by_cases hcontinues₁ : sv₁.continues
    · rw [if_pos hcontinues₁]
      exact ⟨h₁, iff_of_true (hphase₁.trans hphase) hcontinues₁, fun _ => hplain₁, hout⟩
    · rw [if_neg hcontinues₁]
      exact ⟨⟨h₁.size, h₁.chunks, h₁.counted⟩, iff_of_false (by rintro ⟨⟩) hcontinues₁,
        by rintro ⟨⟩, hout⟩
  · rw [if_neg hvalid] at hiterate
    cases hiterate
    exact ⟨⟨h.size, h.chunks, h.counted⟩, iff_of_true hphase hcontinues, fun _ => hplain,
      List.forall_mem_nil _⟩

theorem transferInv_serve (hfew : lastSeq data < dataSize * 8) (h : TransferInv data s)
    (hroles : RoleInv data s') (hf : f ∈ s.air)
    (hown : f.sender = .server → s.server.origSize ≠ uint32Max) {due : Bool}
    (hserve : s.serve f due = some (s', effect)) : TransferInv data s' := by
  unfold State.serve at hserve
  split_ifs at hserve with hphase
  obtain ⟨⟨sv, out, effect₁⟩, hiterate, heq⟩ := Option.map_eq_some_iff.mp hserve
  cases heq
  have hcontinues := h.looping.mp hphase
  have hplain := h.plain hphase
  obtain ⟨hrecords, hlooping, hplain', hout⟩ :=
    records_iterate hfew h.records (h.roles.air f hf) hown hphase hcontinues hplain hiterate
  have hserved := served_iterate hfew h.roles.sound (h.roles.air f hf) hown hiterate
  have hnofin : s.server.phase ≠ .fin := by
    rw [hphase]
    rintro ⟨⟩
  refine ⟨hroles, hrecords, hlooping, hplain', ?_, ?_, fun hterm => absurd (h.exits hterm) hnofin⟩
  · intro g hg hsender hmax
    rcases List.mem_append.mp hg with hg | hg
    · exact absurd (h.fins g hg hsender hmax) hnofin
    · obtain ⟨p, hp, rfl⟩ := List.mem_map.mp hg
      dsimp only at hmax
      rw [hout p hp] at hmax
      cases hmax
  · intro k hk
    exact (h.held k hk).imp_right (hserved.stored k)

theorem transferInv_serverFin (h : TransferInv data s) (hroles : RoleInv data s')
    (hnext : next s .serverFin = some (s', effect)) : TransferInv data s' := by
  unfold next at hnext
  split_ifs at hnext with hphase
  cases hnext
  exact ⟨hroles, h.records, h.looping, h.plain, fun _ _ _ _ => hphase, h.held, h.exits⟩

/-- A step at which no station mistakes its own packets. -/
theorem transferInv_next (hfew : lastSeq data < dataSize * 8) {e : Event}
    (h : TransferInv data s) (hown : OwnPackets s e) (hnext : next s e = some (s', effect)) :
    TransferInv data s' := by
  have hroles := (roleInv_next hfew h.roles hown hnext).1
  cases e with
  | clientVisit => exact transferInv_clientVisit h hroles hnext
  | clientRecv i => exact transferInv_clientRecv hfew h hroles hnext
  | clientTimeout => exact transferInv_clientTimeout hfew h hroles (hown.1 rfl) hnext
  | serverRecv i due =>
      obtain ⟨f, hf, hserve⟩ := Option.bind_eq_some_iff.mp hnext
      exact transferInv_serve hfew h hroles (List.mem_of_getElem? hf) (hown.2 f hf) hserve
  | serverTimeout due =>
      obtain ⟨f, hf, hserve⟩ := Option.bind_eq_some_iff.mp hnext
      exact transferInv_serve hfew h hroles (h.roles.kept f hf) (hown.2 f hf) hserve
  | serverFin => exact transferInv_serverFin h hroles hnext

end steps

/-! ## The data -/

/-- When nothing is missing, the table holds exactly the chunks. -/
theorem Server.Records.lookup (h : sv.Records data) (hall : ∀ k ≤ lastSeq data, sv.Stored k)
    (k : ℕ) : sv.dataMap.lookup k
      = if 1 ≤ k ∧ k ≤ lastSeq data then some (payload data (k - 1)) else none := by
  by_cases hk : 1 ≤ k ∧ k ≤ lastSeq data
  · have hstored := hall k hk.2
    rw [Server.Stored, if_neg (by omega)] at hstored
    obtain ⟨d, hd⟩ := Table.mem_iff_lookup.mp hstored
    rw [if_pos hk, hd, (h.chunks k d hd).2.2]
  · rw [if_neg hk]
    cases hd : sv.dataMap.lookup k with
    | none => rfl
    | some d =>
        obtain ⟨hpos, hle, -⟩ := h.chunks k d hd
        exact absurd ⟨hpos, hle⟩ hk

/-- The copies of such a table are those of the chunks. -/
theorem mem_saveWrites {dataMap : Table ℕ Payload}
    (h : ∀ k, dataMap.lookup k
      = if 1 ≤ k ∧ k ≤ lastSeq data then some (payload data (k - 1)) else none) (w : ℕ × Bytes) :
    w ∈ saveWrites dataMap ↔
      ∃ i < lastSeq data, w = (i * dataSize, pad dataSize (chunk dataSize data i)) := by
  rw [saveWrites, List.mem_map]
  constructor
  · rintro ⟨⟨k, d⟩, hmem, rfl⟩
    have hd := Table.mem_entries_iff.mp (List.mem_filter.mp hmem).1
    rw [h] at hd
    split_ifs at hd with hk
    cases hd
    exact ⟨k - 1, by omega, rfl⟩
  · rintro ⟨i, hi, rfl⟩
    refine ⟨⟨i + 1, payload data i⟩, List.mem_filter.mpr ⟨?_, ?_⟩, ?_⟩
    · rw [Table.mem_entries_iff, h, if_pos ⟨by omega, hi⟩, Nat.add_sub_cancel]
    · exact decide_eq_true (Nat.succ_ne_zero i)
    · dsimp only
      rw [Nat.add_sub_cancel]
      rfl

/-- The container of few chunks has few files. -/
theorem length_files_lt {files : List Bytes} (hfew : FewChunks files) :
    files.length < 2 ^ 32 := by
  have hlt := length_lt hfew
  rw [origData_eq, FileContainer.length_concatenate, FileContainer.containerSize, uint32Max_eq]
    at hlt
  have hlength := List.length_le_sum_of_one_le
    (files.map fun file => FileContainer.sizeofInit + FileContainer.fileSize file) (by
      intro n hn
      obtain ⟨file, -, rfl⟩ := List.mem_map.mp hn
      exact Nat.le_add_right_of_le (by decide))
  rw [List.length_map] at hlength
  omega

/-- Behind the loop the server finds the files of the client in what it reassembles, whatever the
memory held before, if the copies stay inside of it. -/
theorem saveFiles_eq {files : List Bytes} (hfew : FewChunks files)
    (hfiles : ∀ file ∈ files, file.length < 2 ^ 32) {dataMap : Table ℕ Payload}
    (h : ∀ k, dataMap.lookup k = if 1 ≤ k ∧ k ≤ lastSeq (origData files)
      then some (payload (origData files) (k - 1)) else none) {buf : Bytes}
    (hbuf : ∀ w ∈ saveWrites dataMap, w.1 + w.2.length ≤ buf.length) :
    saveFiles ((writeAll buf (saveWrites dataMap)).take (origData files).length)
        (origData files).length
      = some (FileContainer.numbered files, (origData files).length) := by
  have hroom : lastSeq (origData files) * dataSize ≤ buf.length := by
    cases hlast : lastSeq (origData files) with
    | zero => omega
    | succ i =>
        have hend := hbuf _ ((mem_saveWrites h _).mpr ⟨i, by omega, rfl⟩)
        rw [length_pad (length_chunk_le dataSize _ i)] at hend
        rwa [Nat.add_mul, Nat.one_mul]
  rw [take_writeAll_chunks dataSize_pos hroom (mem_saveWrites h), saveFiles, origData_eq]
  exact FileContainer.unpack_concatenate (length_files_lt hfew) hfiles

/-! ## Runs -/

variable {past : List (Moment State Event Effect)} {s : State}

theorem transferInv_init (files : List Bytes) :
    TransferInv (origData files) (system files).init where
  roles := roleInv_init files
  records := ⟨Or.inl rfl, by rintro k d ⟨⟩, rfl⟩
  looping := iff_of_true rfl (Or.inl rfl)
  plain := fun _ => rfl
  fins := by rintro g ⟨⟩
  held := fun _ hk => Or.inl (exists_mem_initialMap.mpr hk)
  exits := by rintro (⟨⟨⟩⟩ | ⟨⟨⟩⟩)

/-- In a run in which no station mistakes its own packets, the client does not terminate before
the server has left its loop; and then the server has the size and exactly the chunks of the
container, and finds the files of the client in what it reassembles from them, in any memory that
the copies stay inside of. -/
theorem transfer_delivers {files : List Bytes} (hfew : FewChunks files)
    (hfiles : ∀ file ∈ files, file.length < 2 ^ 32) (hrun : (system files).Run past s)
    (hown : ∀ m ∈ past, OwnPackets m.pre m.event) :
    (s.client.terminated → s.server.phase = .fin) ∧
    (s.server.phase = .fin →
      s.server.origSize = (origData files).length ∧
      (∀ k, s.server.dataMap.lookup k = if 1 ≤ k ∧ k ≤ lastSeq (origData files)
        then some (payload (origData files) (k - 1)) else none) ∧
      ∀ buf : Bytes, (∀ w ∈ saveWrites s.server.dataMap, w.1 + w.2.length ≤ buf.length) →
        saveFiles ((writeAll buf (saveWrites s.server.dataMap)).take s.server.origSize)
            s.server.origSize
          = some (FileContainer.numbered files, s.server.origSize)) := by
  have h : TransferInv (origData files) s :=
    hrun.invariant (C := OwnPackets) (transferInv_init files)
      (fun _ _ _ _ h hC hnext => transferInv_next hfew h hC hnext) hown
  refine ⟨h.exits, fun hfin => ?_⟩
  have hstop : ¬ s.server.continues := by
    rw [← h.looping, hfin]
    rintro ⟨⟩
  have hall : ∀ k ≤ lastSeq (origData files), s.server.Stored k := by
    intro k hk
    by_contra hmissing
    exact hstop ((continues_iff hfew h.records).mpr ⟨k, hk, hmissing⟩)
  have hsize := h.records.size.resolve_left fun hunknown => hstop (Or.inl hunknown)
  have hlookup := h.records.lookup hall
  refine ⟨hsize, hlookup, fun buf hbuf => ?_⟩
  rw [hsize]
  exact saveFiles_eq hfew hfiles hlookup hbuf

theorem ownPackets_iff {e : Event} : OwnPackets s e ↔
    (e = .clientTimeout → s.client.sRes.map Frame.sender ≠ some .client) ∧
      ((s.processed e).map Frame.sender = some .server → s.server.origSize ≠ uint32Max) := by
  have hsender : ∀ f : Frame, f.sender = .server ↔ f.sender ≠ .client := by
    intro f
    cases f.sender <;> decide
  refine and_congr (forall_congr' fun _ => ?_) ?_
  · cases s.client.sRes with
    | none => simp
    | some f => simp [hsender f]
  · cases s.processed e with
    | none => simp
    | some f => simp

instance (s : State) (e : Event) : Decidable (OwnPackets s e) :=
  decidable_of_iff _ ownPackets_iff.symm

/-- The client of a transfer of three bytes erases both packets and terminates. -/
theorem transfer_delivers_threeBytes : ∃ past s, (system threeBytes).Run past s ∧
    s.client.terminated ∧ s.server.phase = .fin ∧
      saveFiles ((writeAll (List.replicate 1464 7) (saveWrites s.server.dataMap)).take
          s.server.origSize) s.server.origSize
        = some (FileContainer.numbered threeBytes, s.server.origSize) := by
  obtain ⟨past, s, hrun, htest⟩ := Machine.exists_run_of_replay (system threeBytes)
    [.clientVisit, .clientVisit, .clientVisit, .serverRecv 0 false, .serverRecv 1 true,
      .clientRecv 2, .clientTimeout]
    (fun p => decide p.2.client.terminated &&
      (p.1.all fun m => decide (OwnPackets m.pre m.event)) &&
      (saveWrites p.2.server.dataMap).all fun w => decide (w.1 + w.2.length ≤ 1464))
    (by decide +kernel)
  simp only [Bool.and_eq_true, List.all_eq_true, decide_eq_true_eq] at htest
  obtain ⟨⟨hterm, hown⟩, hinside⟩ := htest
  obtain ⟨hexits, hdelivered⟩ := transfer_delivers fewChunks_threeBytes
    (by rintro file hfile; rw [List.mem_singleton.mp hfile]; decide) hrun hown
  have hfin := hexits hterm
  refine ⟨past, s, hrun, hterm, hfin, (hdelivered hfin).2.2 _ ?_⟩
  intro w hw
  rw [List.length_replicate]
  exact hinside w hw

end BroadcastXdp
