/-
# The roles of the packets of Lab 10

Data, acknowledgements and the size share one format, and a station may receive its own packets.
A client that reads its own packet as an acknowledgement erases the keys whose bits happen to be
set in it, and a server that receives its own acknowledgement before the size takes the size from
its bit map.

* `Server.Stored` : the server has stored a packet;
* `NoConfusion` : the client erases what is stored, and the server takes what the client has sent;
* `OwnPackets` : the steps at which a station does not mistake its own packet;
* `RoleInv`, `roleInv_next` : the invariant, and that these steps keep it;
* `no_confusion` : the runs whose steps are all such.
-/
import IntroNP.BroadcastXdp

namespace BroadcastXdp

theorem dataSize_eq : dataSize = 1464 := rfl

theorem dataSize_pos : 0 < dataSize := by rw [dataSize_eq]; omega

theorem uint32Max_eq : uint32Max = 4294967295 := rfl

/-! ## The property -/

/-- The server has stored packet `k`; of packet 0 it keeps the size. -/
def Server.Stored (sv : Server) (k : ℕ) : Prop :=
  if k = 0 then sv.origSize ≠ uint32Max else k ∈ sv.dataMap

instance (sv : Server) (k : ℕ) : Decidable (sv.Stored k) :=
  inferInstanceAs (Decidable (if k = 0 then sv.origSize ≠ uint32Max else k ∈ sv.dataMap))

/-- A step erases only what the server has stored, and takes only what the client has sent. -/
def NoConfusion (m : Moment State Event Effect) : Prop :=
  (∀ keys, m.shown = .erases keys → ∀ k ∈ keys, m.pre.server.Stored k) ∧
    ∀ f, m.shown = .takesSize f ∨ m.shown = .takesChunk f → f.sender = .client

/-- When the client erases, the packet that it has read last is not its own, and the server
processes no packet of its own before it knows the size. -/
def OwnPackets (s : State) (e : Event) : Prop :=
  (e = .clientTimeout → ∀ f, s.client.sRes = some f → f.sender = .server) ∧
    ∀ f, s.processed e = some f → f.sender = .server → s.server.origSize ≠ uint32Max

/-- The transfer has a bit for every packet. -/
def FewChunks (files : List Bytes) : Prop :=
  numChunks dataSize (origData files).length < dataSize * 8

/-! ## The packets of the client -/

section client

variable {data : Bytes} {e : ℕ × DataT}

theorem snd_of_mem_initialMap (he : e ∈ initialMap data) (hkey : e.1 = 0) :
    e.2 = zeroData data.length := by
  rcases List.mem_cons.mp he with rfl | he
  · rfl
  · obtain ⟨i, -, rfl⟩ := List.mem_map.mp he
    exact absurd hkey (Nat.succ_ne_zero i)

/-- Packet 0 begins with the size that it is made of. -/
theorem take_wrap_zeroData (origSize : ℕ) :
    (wrap (0, zeroData origSize)).data.1.take 8 = leBytes 8 origSize := by
  simp only [wrap, send, zeroData, pad, List.append_assoc]
  rw [List.take_left' (length_leBytes 8 _)]

/-- Packet 0 carries the size of the data. -/
theorem size_wrap (he : e ∈ initialMap data) (hkey : e.1 = 0)
    (hfew : numChunks dataSize data.length < dataSize * 8) :
    ofLE ((wrap e).data.1.take 8) % 2 ^ 32 ≠ uint32Max := by
  have hlen := le_numChunks_mul dataSize_pos data.length
  rw [dataSize_eq] at hlen hfew
  have hentry : e = (0, zeroData data.length) := Prod.ext hkey (snd_of_mem_initialMap he hkey)
  rw [hentry, take_wrap_zeroData, ofLE_leBytes, uint32Max_eq]
  omega

end client

/-! ## The server -/

section server

variable {sv sv' : Server} {f : Frame} {effect : Effect}

/-- What the loop does with a packet that it can mark. -/
inductive Recorded (sv : Server) (f : Frame) : Server → Effect → Prop
  | size (hseq : f.pkt.sessSeq = 0) (hunknown : sv.origSize = uint32Max) :
      Recorded sv f { sv.mark f.pkt.sessSeq with
        origSize := ofLE (f.pkt.data.1.take 8) % 2 ^ 32 } (.takesSize f)
  | known (hseq : f.pkt.sessSeq = 0) (hknown : sv.origSize ≠ uint32Max) :
      Recorded sv f (sv.mark f.pkt.sessSeq) .nothing
  | old (hseq : f.pkt.sessSeq ≠ 0) (hmem : f.pkt.sessSeq ∈ sv.dataMap) :
      Recorded sv f (sv.mark f.pkt.sessSeq) .nothing
  | chunk (hseq : f.pkt.sessSeq ≠ 0) (hnew : f.pkt.sessSeq ∉ sv.dataMap) :
      Recorded sv f { sv.mark f.pkt.sessSeq with
        dataMap := sv.dataMap.insert f.pkt.sessSeq f.pkt.data
        recvSize := (sv.recvSize + dataSize) % 2 ^ 32 } (.takesChunk f)

theorem recorded_of_record (h : sv.record f = some (sv', effect)) :
    f.pkt.sessSeq < 8 * dataSize ∧ Recorded sv f sv' effect := by
  unfold Server.record at h
  dsimp only at h
  split_ifs at h with hroom hseq hunknown hmem <;> cases h
  · exact ⟨not_le.mp hroom, .size hseq hunknown⟩
  · exact ⟨not_le.mp hroom, .known hseq hunknown⟩
  · exact ⟨not_le.mp hroom, .old hseq hmem⟩
  · exact ⟨not_le.mp hroom, .chunk hseq hmem⟩

/-- What is stored stays so. -/
theorem Recorded.stored (h : Recorded sv f sv' effect) {k : ℕ} (hk : sv.Stored k) :
    sv'.Stored k := by
  unfold Server.Stored at hk ⊢
  cases h with
  | size hseq hunknown =>
      split_ifs at hk ⊢
      · exact absurd hunknown hk
      · exact hk
  | known => exact hk
  | old => exact hk
  | chunk =>
      split_ifs at hk ⊢
      · exact hk
      · exact (AList.mem_insert _).mpr (Or.inr hk)

/-- The packet is stored then, if it is not one that leaves the size unknown. -/
theorem Recorded.stored_self (h : Recorded sv f sv' effect)
    (hsize : f.pkt.sessSeq = 0 → sv.origSize = uint32Max →
      ofLE (f.pkt.data.1.take 8) % 2 ^ 32 ≠ uint32Max) : sv'.Stored f.pkt.sessSeq := by
  unfold Server.Stored
  cases h with
  | size hseq hunknown =>
      rw [if_pos hseq]
      exact hsize hseq hunknown
  | known hseq hknown =>
      rw [if_pos hseq]
      exact hknown
  | old hseq hmem =>
      rw [if_neg hseq]
      exact hmem
  | chunk hseq =>
      rw [if_neg hseq]
      exact (AList.mem_insert _).mpr (Or.inl rfl)

/-- What the loop takes is the packet, and of the packets 0 only one before the size is known. -/
theorem Recorded.taken (h : Recorded sv f sv' effect) {g : Frame}
    (hg : effect = .takesSize g ∨ effect = .takesChunk g) :
    g = f ∧ (f.pkt.sessSeq = 0 → sv.origSize = uint32Max) := by
  cases h with
  | size _ hunknown =>
      rcases hg with hg | hg <;> cases hg
      exact ⟨rfl, fun _ => hunknown⟩
  | known => rcases hg with hg | hg <;> cases hg
  | old => rcases hg with hg | hg <;> cases hg
  | chunk hseq =>
      rcases hg with hg | hg <;> cases hg
      exact ⟨rfl, fun hzero => absurd hzero hseq⟩

/-- The packet that is sent changes in one bit. -/
theorem Recorded.sendPkt (h : Recorded sv f sv' effect) :
    sv'.sendPkt = (sv.mark f.pkt.sessSeq).sendPkt ∧ sv'.recvPkt = sv.recvPkt ∧
      sv'.phase = sv.phase := by
  cases h <;> exact ⟨rfl, rfl, rfl⟩

theorem bit_mark {k : ℕ} (hk : k < 8 * dataSize) (j : ℕ) :
    (sv.mark k).sendPkt.bit j = (decide (j = k) || sv.sendPkt.bit j) :=
  getBit_setBit (by rw [sv.sendPkt.data.2]; exact hk) j

/-- The packet that the server sends marks only what is stored. -/
structure Server.Sound (sv : Server) : Prop where
  marked : ∀ k, sv.sendPkt.bit k = true → sv.Stored k
  seq : sv.sendPkt.sessSeq = 0 ∨ sv.sendPkt.sessSeq = uint32Max

/-- A packet on the air: one of the client's, or one that marks only what the server has stored. -/
def FrameOk (data : Bytes) (sv : Server) (f : Frame) : Prop :=
  match f.sender with
  | .client => ∃ e ∈ initialMap data, f.pkt = wrap e
  | .server => (f.pkt.sessSeq = 0 ∨ f.pkt.sessSeq = uint32Max) ∧
      ∀ k, f.pkt.bit k = true → sv.Stored k

theorem FrameOk.mono {data : Bytes} (h : FrameOk data sv f)
    (hstored : ∀ k, sv.Stored k → sv'.Stored k) : FrameOk data sv' f := by
  unfold FrameOk at h ⊢
  split at h
  · exact h
  · exact ⟨h.1, fun k hk => hstored k (h.2 k hk)⟩

/-- The server keeps marking only what is stored when it records a packet that is not mistaken. -/
theorem sound_record {data : Bytes} (hfew : numChunks dataSize data.length < dataSize * 8)
    (hsound : sv.Sound) (hf : FrameOk data sv f)
    (hown : f.sender = .server → sv.origSize ≠ uint32Max) (h : sv.record f = some (sv', effect)) :
    sv'.Sound := by
  obtain ⟨hroom, hrec⟩ := recorded_of_record h
  obtain ⟨hsend, -, -⟩ := hrec.sendPkt
  have hself : sv'.Stored f.pkt.sessSeq := by
    apply hrec.stored_self
    intro hseq hunknown
    unfold FrameOk at hf
    split at hf
    · obtain ⟨e, he, hpkt⟩ := hf
      rw [hpkt] at hseq ⊢
      exact size_wrap he hseq hfew
    · next hsender => exact absurd hunknown (hown hsender)
  refine ⟨fun k hk => ?_, ?_⟩
  · rw [hsend, bit_mark hroom, Bool.or_eq_true, decide_eq_true_eq] at hk
    rcases hk with rfl | hk
    · exact hself
    · exact hrec.stored (hsound.marked k hk)
  · rw [hsend]
    exact hsound.seq

/-- What is taken from such a packet is taken from the client. -/
theorem client_record {data : Bytes} (hf : FrameOk data sv f)
    (hown : f.sender = .server → sv.origSize ≠ uint32Max) (h : sv.record f = some (sv', effect))
    {g : Frame} (hg : effect = .takesSize g ∨ effect = .takesChunk g) : g.sender = .client := by
  obtain ⟨hroom, hrec⟩ := recorded_of_record h
  obtain ⟨rfl, hunknown⟩ := hrec.taken hg
  cases hsender : g.sender with
  | client => rfl
  | server =>
      -- a packet of the server that has a bit has number 0, and the size is known by then
      have hseq : g.pkt.sessSeq = 0 := by
        rw [FrameOk, hsender] at hf
        rcases hf.1 with hzero | hmax
        · exact hzero
        · rw [hmax, uint32Max_eq, dataSize_eq] at hroom
          omega
      exact absurd (hunknown hseq) (hown hsender)

/-- An iteration of the loop on such a packet. -/
structure Served (data : Bytes) (sv : Server) (f : Frame) (sv' : Server) (out : List Pkt)
    (effect : Effect) : Prop where
  sound : sv'.Sound
  stored : ∀ k, sv.Stored k → sv'.Stored k
  kept : sv'.recvPkt = some f
  sent : ∀ p ∈ out, FrameOk data sv' ⟨.server, p⟩
  taken : ∀ g, effect = .takesSize g ∨ effect = .takesChunk g → g.sender = .client
  erases : ∀ keys, effect ≠ .erases keys

theorem served_iterate {data : Bytes} (hfew : numChunks dataSize data.length < dataSize * 8)
    (hsound : sv.Sound) (hf : FrameOk data sv f)
    (hown : f.sender = .server → sv.origSize ≠ uint32Max) {due : Bool} {out : List Pkt}
    (h : sv.iterate f due = some (sv', out, effect)) : Served data sv f sv' out effect := by
  unfold Server.iterate at h
  dsimp only at h
  by_cases hvalid : checksum f.pkt = f.pkt.checksum
  · rw [if_pos hvalid] at h
    obtain ⟨⟨sv₁, effect₁⟩, hrecord, heq⟩ := Option.map_eq_some_iff.mp h
    have hsound₀ : Server.Sound { sv with recvPkt := some f } := ⟨hsound.marked, hsound.seq⟩
    have hf₀ : FrameOk data { sv with recvPkt := some f } f := hf.mono fun _ hk => hk
    have hsound₁ := sound_record hfew hsound₀ hf₀ hown hrecord
    have htaken : ∀ g, effect₁ = .takesSize g ∨ effect₁ = .takesChunk g → g.sender = .client :=
      fun g hg => client_record hf₀ hown hrecord hg
    have hrec := (recorded_of_record hrecord).2
    have hstored : ∀ k, sv.Stored k → sv₁.Stored k := fun k hk => hrec.stored hk
    have hkept : sv₁.recvPkt = some f := hrec.sendPkt.2.1
    have herases : ∀ keys, effect₁ ≠ .erases keys := by
      rintro keys rfl
      cases hrec
    have hack : FrameOk data sv₁ ⟨.server, send sv₁.sendPkt⟩ := ⟨hsound₁.seq, hsound₁.marked⟩
    have hout : ∀ p ∈ (if due then [send sv₁.sendPkt] else []), FrameOk data sv₁ ⟨.server, p⟩ := by
      intro p hp
      split_ifs at hp
      · rw [List.mem_singleton.mp hp]
        exact hack
      · cases hp
    cases heq
    by_cases hcontinues : sv₁.continues
    · rw [if_pos hcontinues]
      exact ⟨hsound₁, hstored, hkept, hout, htaken, herases⟩
    · -- behind the loop the packet that is sent gets the last number
      rw [if_neg hcontinues]
      exact ⟨⟨hsound₁.marked, Or.inr rfl⟩, hstored, hkept, hout, htaken, herases⟩
  · rw [if_neg hvalid] at h
    cases h
    refine ⟨⟨hsound.marked, hsound.seq⟩, fun _ hk => hk, rfl, List.forall_mem_nil _, ?_, ?_⟩
    · rintro g (hg | hg) <;> cases hg
    · rintro keys ⟨⟩

end server

/-! ## The invariant -/

/-- What holds in runs in which no station mistakes its own packets. -/
structure RoleInv (data : Bytes) (s : State) : Prop where
  /-- The client's map holds entries it started with. -/
  entries : ∀ e ∈ s.client.dataMap, e ∈ initialMap data
  /-- So does the rest of a round. -/
  todo : ∀ l, s.client.pc = .sending l → ∀ e ∈ l, e ∈ initialMap data
  /-- What the client has read has been sent. -/
  seen : ∀ f, s.client.sRes = some f → f ∈ s.air
  /-- The acknowledgement marks what is stored. -/
  sound : s.server.Sound
  /-- What the server processes has been sent. -/
  kept : ∀ f, s.server.recvPkt = some f → f ∈ s.air
  /-- The packets on the air are the client's, or mark what is stored. -/
  air : ∀ f ∈ s.air, FrameOk data s.server f

section steps

variable {data : Bytes} {s s' : State} {effect : Effect}

/-- Packets are put on the air. -/
theorem roleInv_broadcast (h : RoleInv data s) {sender : Station} {pkts : List Pkt}
    (hpkts : ∀ p ∈ pkts, FrameOk data s.server ⟨sender, p⟩) :
    RoleInv data (s.broadcast sender pkts) where
  entries := h.entries
  todo := h.todo
  seen := fun f hf => List.mem_append_left _ (h.seen f hf)
  sound := h.sound
  kept := fun f hf => List.mem_append_left _ (h.kept f hf)
  air := by
    intro f hf
    rcases List.mem_append.mp hf with hf | hf
    · exact h.air f hf
    · obtain ⟨p, hp, rfl⟩ := List.mem_map.mp hf
      exact hpkts p hp

theorem roleInv_clientVisit (h : RoleInv data s)
    (hnext : next s .clientVisit = some (s', effect)) :
    RoleInv data s' ∧ effect = .nothing := by
  obtain ⟨⟨cl, out⟩, hvisit, heq⟩ := Option.map_eq_some_iff.mp hnext
  cases heq
  refine ⟨?_, rfl⟩
  unfold Client.visit at hvisit
  split at hvisit
  · cases hvisit
    have hinv : RoleInv data { s with client := { s.client with pc := .reading } } :=
      { h with todo := by rintro l ⟨⟩ }
    exact roleInv_broadcast hinv (List.forall_mem_nil _)
  · next e todo hpc =>
      cases hvisit
      have htodo := h.todo _ hpc
      have hinv : RoleInv data { s with client := { s.client with pc := .sending todo } } :=
        { h with todo := by rintro l ⟨⟩ e' he'; exact htodo e' (List.mem_cons_of_mem _ he') }
      apply roleInv_broadcast hinv
      intro p hp
      split_ifs at hp
      · cases hp
      · exact ⟨e, htodo e List.mem_cons_self, List.mem_singleton.mp hp⟩
  · cases hvisit

theorem roleInv_clientRecv (h : RoleInv data s) {i : ℕ}
    (hnext : next s (.clientRecv i) = some (s', effect)) :
    RoleInv data s' ∧ effect = .nothing := by
  obtain ⟨f, hf, hnext⟩ := Option.bind_eq_some_iff.mp hnext
  obtain ⟨cl, hread, heq⟩ := Option.bind_eq_some_iff.mp hnext
  cases heq
  refine ⟨?_, rfl⟩
  unfold Client.readResp at hread
  split at hread
  · by_cases hvalid : checksum f.pkt = f.pkt.checksum
    · rw [if_pos hvalid] at hread
      cases hread
      exact { h with
        todo := by
          intro l hl
          dsimp only at hl
          split_ifs at hl
        seen := by
          rintro g ⟨⟩
          exact List.mem_of_getElem? hf }
    · rw [if_neg hvalid] at hread
      cases hread
      exact h
  · cases hread

/-- The client erases what the server has stored, if the packet it has read is the server's. -/
theorem roleInv_clientTimeout (h : RoleInv data s)
    (hown : ∀ f, s.client.sRes = some f → f.sender = .server)
    (hnext : next s .clientTimeout = some (s', effect)) :
    RoleInv data s' ∧ ∃ keys, effect = .erases keys ∧ ∀ k ∈ keys, s.server.Stored k := by
  obtain ⟨⟨cl, keys⟩, herase, heq⟩ := Option.map_eq_some_iff.mp hnext
  cases heq
  unfold Client.eraseDone at herase
  split at herase
  · cases herase
    have hentries : ∀ e ∈ s.client.dataMap.filter (fun e => !s.client.donebit e.1),
        e ∈ initialMap data := fun e he => h.entries e (List.mem_of_mem_filter he)
    refine ⟨{ h with
      entries := hentries
      todo := ?_ }, _, rfl, ?_⟩
    · intro l hl
      dsimp only at hl
      split_ifs at hl
      cases hl
      exact hentries
    · intro k hk
      obtain ⟨e, he, rfl⟩ := List.mem_map.mp hk
      have hdone := (List.mem_filter.mp he).2
      unfold Client.donebit at hdone
      split at hdone
      · next f hf =>
          have hframe := h.air f (h.seen f hf)
          rw [FrameOk, hown f hf] at hframe
          exact hframe.2 e.1 hdone
      · cases hdone
  · cases herase

/-- The server processes a packet that it does not mistake. -/
theorem roleInv_serve (hfew : numChunks dataSize data.length < dataSize * 8)
    (h : RoleInv data s) {f : Frame} (hf : f ∈ s.air)
    (hown : f.sender = .server → s.server.origSize ≠ uint32Max) {due : Bool}
    (hserve : s.serve f due = some (s', effect)) :
    RoleInv data s' ∧ (∀ g, effect = .takesSize g ∨ effect = .takesChunk g → g.sender = .client) ∧
      ∀ keys, effect ≠ .erases keys := by
  unfold State.serve at hserve
  split_ifs at hserve
  obtain ⟨⟨sv, out, effect₁⟩, hiterate, heq⟩ := Option.map_eq_some_iff.mp hserve
  cases heq
  have hserved := served_iterate hfew h.sound (h.air f hf) hown hiterate
  refine ⟨?_, hserved.taken, hserved.erases⟩
  have hinv : RoleInv data { s with server := sv } := { h with
    sound := hserved.sound
    kept := by
      intro g hg
      rw [hserved.kept] at hg
      cases hg
      exact hf
    air := fun g hg => (h.air g hg).mono hserved.stored }
  exact roleInv_broadcast hinv hserved.sent

/-- The server broadcasts the end. -/
theorem roleInv_serverFin (h : RoleInv data s)
    (hnext : next s .serverFin = some (s', effect)) :
    RoleInv data s' ∧ effect = .nothing := by
  unfold next at hnext
  split_ifs at hnext
  cases hnext
  refine ⟨roleInv_broadcast h ?_, rfl⟩
  intro p hp
  rw [List.mem_singleton.mp hp]
  exact ⟨h.sound.seq, h.sound.marked⟩

/-- A step at which no station mistakes its own packets. -/
theorem roleInv_next (hfew : numChunks dataSize data.length < dataSize * 8) {e : Event}
    (h : RoleInv data s) (hown : OwnPackets s e) (hnext : next s e = some (s', effect)) :
    RoleInv data s' ∧ NoConfusion ⟨s, e, effect⟩ := by
  have hquiet : effect = .nothing → NoConfusion ⟨s, e, effect⟩ := by
    rintro rfl
    exact ⟨by rintro keys ⟨⟩, by rintro f (⟨⟨⟩⟩ | ⟨⟨⟩⟩)⟩
  have hserver : ∀ {f due}, f ∈ s.air → s.processed e = some f → s.serve f due = some (s', effect) →
      RoleInv data s' ∧ NoConfusion ⟨s, e, effect⟩ := by
    intro f due hf hprocessed hserve
    obtain ⟨hinv, htaken, herases⟩ := roleInv_serve hfew h hf (hown.2 f hprocessed) hserve
    exact ⟨hinv, fun keys hkeys => absurd hkeys (herases keys), htaken⟩
  cases e with
  | clientVisit =>
      obtain ⟨hinv, heffect⟩ := roleInv_clientVisit h hnext
      exact ⟨hinv, hquiet heffect⟩
  | clientRecv i =>
      obtain ⟨hinv, heffect⟩ := roleInv_clientRecv h hnext
      exact ⟨hinv, hquiet heffect⟩
  | clientTimeout =>
      obtain ⟨hinv, keys, rfl, hstored⟩ := roleInv_clientTimeout h (hown.1 rfl) hnext
      refine ⟨hinv, ?_, by rintro f (⟨⟨⟩⟩ | ⟨⟨⟩⟩)⟩
      rintro keys' ⟨⟩
      exact hstored
  | serverRecv i due =>
      obtain ⟨f, hf, hserve⟩ := Option.bind_eq_some_iff.mp hnext
      exact hserver (List.mem_of_getElem? hf) hf hserve
  | serverTimeout due =>
      obtain ⟨f, hf, hserve⟩ := Option.bind_eq_some_iff.mp hnext
      exact hserver (h.kept f hf) hf hserve
  | serverFin =>
      obtain ⟨hinv, heffect⟩ := roleInv_serverFin h hnext
      exact ⟨hinv, hquiet heffect⟩

end steps

/-! ## Runs -/

theorem roleInv_init (files : List Bytes) : RoleInv (origData files) (system files).init where
  entries := fun _ he => he
  todo := by rintro l ⟨⟩ e he; exact he
  seen := by rintro f ⟨⟩
  sound := by
    refine ⟨fun k hk => ?_, Or.inl rfl⟩
    have hnone : getBit (List.replicate dataSize 0) k = true := hk
    rw [getBit_replicate_zero] at hnone
    cases hnone
  kept := by rintro f ⟨⟩
  air := List.forall_mem_nil _

/-- In a run in which no station mistakes its own packets, the client erases only what the server
has stored, and the server takes the size and the chunks only from the client. -/
theorem no_confusion {files : List Bytes} (hfew : FewChunks files)
    {past : List (Moment State Event Effect)} {s : State} (hrun : (system files).Run past s)
    (hown : ∀ m ∈ past, OwnPackets m.pre m.event) : ∀ m ∈ past, NoConfusion m := by
  refine hrun.moments (I := RoleInv (origData files)) (roleInv_init files) ?_ hown
  intro s e s' effect hinv hC hnext
  exact roleInv_next hfew hinv hC hnext

/-! ## A file of three bytes -/

/-- Its size of eleven bytes is 1011 in binary, and the transfer has the packets 0 and 1. -/
def threeBytes : List Bytes := [[1, 2, 3]]

theorem fewChunks_threeBytes : FewChunks threeBytes := by
  show numChunks 1464 11 < 1464 * 8
  decide

/-- The client sends both packets, the server stores them, and the client erases them. -/
theorem no_confusion_threeBytes : ∃ past s, (system threeBytes).Run past s ∧
    past.head?.map Moment.shown = some (.erases [0, 1]) ∧ ∀ m ∈ past, NoConfusion m := by
  obtain ⟨past, s, hrun, htest⟩ := Machine.exists_run_of_replay (system threeBytes)
    [.clientVisit, .clientVisit, .clientVisit, .serverRecv 0 false, .serverRecv 1 true,
      .clientRecv 2, .clientTimeout]
    (fun p => decide (p.1.head?.map Moment.shown = some (.erases [0, 1])) &&
      p.1.all fun m => decide (m.event = .clientTimeout →
          m.pre.client.sRes.map Frame.sender = some .server) &&
        decide ((m.pre.processed m.event).map Frame.sender ≠ some .server))
    (by decide +kernel)
  simp only [Bool.and_eq_true, decide_eq_true_eq, List.all_eq_true] at htest
  obtain ⟨hshown, htest⟩ := htest
  refine ⟨past, s, hrun, hshown, no_confusion fewChunks_threeBytes hrun fun m hm => ⟨?_, ?_⟩⟩
  · intro hevent f hf
    have hsender := (htest m hm).1 hevent
    rw [hf] at hsender
    exact Option.some.inj hsender
  · intro f hf hsender
    have hne := (htest m hm).2
    rw [hf, Option.map_some, hsender] at hne
    exact absurd rfl hne

/-- The client reads its own packet 0, takes the size in it for an acknowledgement, and erases
both packets while the server has stored nothing. -/
theorem confusion : FewChunks threeBytes ∧ ∃ past s, (system threeBytes).Run past s ∧ ∃ m ∈ past,
    m.shown = .erases [0, 1] ∧ m.pre.server.origSize = uint32Max ∧ ¬ NoConfusion m := by
  obtain ⟨past, s, hrun, htest⟩ := Machine.exists_run_of_replay (system threeBytes)
    [.clientVisit, .clientVisit, .clientVisit, .clientRecv 0, .clientTimeout]
    (fun p => p.1.any fun m => decide (m.shown = .erases [0, 1]) &&
      decide (m.pre.server.origSize = uint32Max))
    (by decide +kernel)
  obtain ⟨m, hm, htest⟩ := List.any_eq_true.mp htest
  rw [Bool.and_eq_true, decide_eq_true_eq, decide_eq_true_eq] at htest
  obtain ⟨hshown, hunknown⟩ := htest
  refine ⟨fewChunks_threeBytes, past, s, hrun, m, hm, hshown, hunknown, fun hproperty => ?_⟩
  exact hproperty.1 [0, 1] hshown 0 List.mem_cons_self hunknown

end BroadcastXdp
