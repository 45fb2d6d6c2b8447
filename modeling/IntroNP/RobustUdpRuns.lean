/-
# Complete runs of the Lab 8 transfer

Every transfer can be driven to either exit of the client: one send round, all packets
delivered in any order, and then either the reply of the completing iteration or FIN.

* `RepliesBeforeLast` : the condition that no reply is sent in the completing iteration;
* `ArrivalOrder` : the orders in which the packets of a transfer can arrive;
* `exists_run_complete` : the run up to the end of the receive loop;
* `exists_early_exit` : a run whose client exits with an empty map before the save;
* `exists_orderly_exit` : a run that meets the condition and whose client exits on FIN.
-/
import IntroNP.RobustUdpSafety

namespace RobustUdp

open Machine

variable {compData : Bytes}

/-! ## The condition -/

/-- The condition on a step: when the acknowledgement timer runs out on a packet in the receive
loop, some other packet is still missing. -/
def RepliesBeforeLast (compData : Bytes) (s : State) : Event → Prop
  | .serverRecv p true => s.server.phase = .receiving →
      ∃ k ≤ lastSeq compData, k ≠ p.dataSeq ∧ s.server.recvbit k = false
  | _ => True

/-- Every step so far meets the condition. -/
def Orderly (compData : Bytes) (past : List (Moment State Event Unit)) : Prop :=
  ∀ m ∈ past, RepliesBeforeLast compData m.pre m.event

theorem Orderly.cons {past : List (Moment State Event Unit)} (h : Orderly compData past)
    {s : State} {a : Event} (ha : RepliesBeforeLast compData s a) :
    Orderly compData (⟨s, a, ()⟩ :: past) := by
  intro m hm
  rcases List.mem_cons.mp hm with rfl | hm
  · exact ha
  · exact h m hm

/-! ## Orders of arrival -/

/-- The packet an event delivers to the server. -/
def Event.arrival : Event → Option ℕ
  | .serverRecv p _ => some p.dataSeq
  | _ => none

/-- The packets delivered to the server, the last one first. -/
def arrivals (past : List (Moment State Event Unit)) : List ℕ :=
  past.filterMap fun m => m.event.arrival

/-- An order in which all packets arrive, some perhaps twice, and the last one completes the
transfer. -/
structure ArrivalOrder (compData : Bytes) (last : ℕ) (before : List ℕ) : Prop where
  /-- Every packet arrives. -/
  all : ∀ k, k ∈ last :: before ↔ k ≤ lastSeq compData
  /-- The last one has not arrived before. -/
  late : last ∉ before

/-- The packets can arrive in the order of their numbers. -/
theorem order_range (compData : Bytes) :
    ArrivalOrder compData (lastSeq compData) (List.range (lastSeq compData)).reverse := by
  constructor
  · intro k
    rw [List.mem_cons, List.mem_reverse, List.mem_range]
    omega
  · rw [List.mem_reverse, List.mem_range]
    exact lt_irrefl _

/-! ## Runs to both exits -/

/-- A whole send round: from the send loop the client can send every entry whose bit is not
set and go on to read replies, while the server does nothing. -/
theorem exists_run_round (todo : List (ℕ × DataT)) {past : List (Moment State Event Unit)}
    {s : State} (hrun : Run (system compData) past s) (hC : Orderly compData past)
    (hpc : s.client.pc = .sending todo) (hbits : ∀ e ∈ todo, s.client.donebit e.1 = false) :
    ∃ past' s', Run (system compData) past' s' ∧ Orderly compData past' ∧
      arrivals past' = arrivals past ∧
      s'.client = { s.client with pc := .reading } ∧ s'.server = s.server ∧
      (∀ p ∈ s.toServer, p ∈ s'.toServer) ∧ ∀ e ∈ todo, wrapSend e.1 e.2 ∈ s'.toServer := by
  induction todo generalizing past s with
  | nil =>
      have hvisit : next s .clientVisit
          = some { s with client := { s.client with pc := .reading } } := by
        simp only [next, Client.visit, hpc, Option.map_some, List.nil_append]
      exact ⟨_, _, run_next hrun hvisit, hC.cons trivial, rfl, rfl, rfl, fun _ hp => hp, by simp⟩
  | cons e todo ih =>
      have hvisit : next s .clientVisit = some { s with
          client := { s.client with pc := .sending todo }
          toServer := wrapSend e.1 e.2 :: s.toServer } := by
        simp only [next, Client.visit, hpc, Option.map_some, hbits e List.mem_cons_self]
        rfl
      obtain ⟨past', s', hrun', hC', harrived, hclient, hserver, hup, hsent⟩ :=
        ih (run_next hrun hvisit) (hC.cons trivial) rfl
          (fun e' he' => hbits e' (List.mem_cons_of_mem _ he'))
      refine ⟨past', s', hrun', hC', harrived, hclient, hserver,
        fun p hp => hup p (List.mem_cons_of_mem _ hp), ?_⟩
      intro e' he'
      rcases List.mem_cons.mp he' with rfl | he'
      · exact hup _ List.mem_cons_self
      · exact hsent e' he'

/-- Packets delivered in any order, no timer running out: the server marks exactly these, and
as long as a packet is missing it stays in its loop. -/
theorem exists_run_receive (hfit : Fits compData) {past : List (Moment State Event Unit)}
    {s : State} (hrun : Run (system compData) past s) (hC : Orderly compData past)
    (hserver : s.server = Server.initial)
    (hsent : ∀ k ≤ lastSeq compData, packet compData k ∈ s.toServer) (ks : List ℕ)
    (hks : ∀ k ∈ ks, k ≤ lastSeq compData) (hmissing : ∃ k ≤ lastSeq compData, k ∉ ks) :
    ∃ past' s', Run (system compData) past' s' ∧ Orderly compData past' ∧
      arrivals past' = ks ++ arrivals past ∧
      s'.client = s.client ∧ s'.toServer = s.toServer ∧ s'.server.phase = .receiving ∧
      ∀ k, s'.server.recvbit k = decide (k ∈ ks) := by
  induction ks with
  | nil =>
      refine ⟨past, s, hrun, hC, rfl, rfl, rfl, by rw [hserver]; rfl, fun k => ?_⟩
      have hbit : Server.initial.recvbit k = false := getBit_replicate_zero dataSize k
      rw [hserver, hbit]
      simp
  | cons k ks ih =>
      obtain ⟨last, hlast, hnotin⟩ := hmissing
      obtain ⟨past', s', hrun', hC', harrived, hclient, hup, hphase, hbits⟩ :=
        ih (fun j hj => hks j (List.mem_cons_of_mem _ hj))
          ⟨last, hlast, fun hin => hnotin (List.mem_cons_of_mem _ hin)⟩
      have hk : k ≤ lastSeq compData := hks k List.mem_cons_self
      have hmem : packet compData k ∈ s'.toServer := by rw [hup]; exact hsent k hk
      have hnext : next s' (.serverRecv (packet compData k) false) = some { s' with
          server := (s'.server.iterate (packet compData k) false).1
          toClient := (s'.server.iterate (packet compData k) false).2 ++ s'.toClient } := by
        simp only [next, if_pos hmem, hphase]
      have hbits' : ∀ j, (s'.server.iterate (packet compData k) false).1.recvbit j
          = decide (j ∈ k :: ks) := by
        intro j
        rw [iterate_recvbit hfit _ hk, hbits, ← Bool.decide_or]
        exact decide_eq_decide.mpr List.mem_cons.symm
      refine ⟨_, _, run_next hrun' hnext, hC'.cons trivial, congrArg (k :: ·) harrived, hclient,
        hup, ?_, hbits'⟩
      -- the packet `last` is missing, so the loop test holds
      by_contra hne
      have hrec := recording_iterate hfit
        ((run_safeInv hfit hrun').recording (by rw [hphase]; decide)) hk false
      have hstop : ¬ (s'.server.iterate (packet compData k) false).1.continues := by
        rw [iterate_continues]
        intro hgo
        exact hne (by dsimp only; rw [iterate_phase, if_pos hgo, hphase])
      have hall := (received_all_of_not_continues hrec hstop).2 last hlast
      rw [hbits', decide_eq_true_eq] at hall
      exact hnotin hall

/-- Every transfer can be completed in one send round, in any order of arrival: the client reads
replies, the server has marked every packet and left its loop, and the timer has run out in that
last iteration or not. -/
theorem exists_run_complete (hfit : Fits compData) {last : ℕ} {before : List ℕ}
    (horder : ArrivalOrder compData last before) (timer : Bool) :
    ∃ past s, Run (system compData) past s ∧ (timer = false → Orderly compData past) ∧
      arrivals past = last :: before ∧
      s.client = { Client.initial compData with pc := .reading } ∧ s.server.phase = .saving ∧
      (∀ k ≤ lastSeq compData, s.server.recvbit k = true) ∧
      (timer = true → s.server.sendHdr ∈ s.toClient) ∧ packet compData last ∈ s.toServer := by
  -- the client sends everything and goes on to read
  obtain ⟨past₁, s₁, hrun₁, hC₁, harrived₁, hclient₁, hserver₁, -, hsent₁⟩ :=
    exists_run_round (initialMap compData) (Run.start (M := system compData)) nofun rfl
      (fun e _ => getBit_replicate_zero dataSize e.1)
  have hsent : ∀ k ≤ lastSeq compData, packet compData k ∈ s₁.toServer := fun k hk =>
    hsent₁ (k, entry compData k) (mem_initialMap.mpr ⟨hk, rfl⟩)
  -- all packets but the last one arrive
  have hlast : last ≤ lastSeq compData := (horder.all last).mp List.mem_cons_self
  obtain ⟨past₂, s₂, hrun₂, hC₂, harrived₂, hclient₂, hup₂, hphase₂, hbits₂⟩ :=
    exists_run_receive hfit hrun₁ hC₁ hserver₁ hsent before
      (fun k hk => (horder.all k).mp (List.mem_cons_of_mem _ hk)) ⟨last, hlast, horder.late⟩
  -- the last one arrives
  have hmem : packet compData last ∈ s₂.toServer := by
    rw [hup₂]
    exact hsent _ hlast
  set r := s₂.server.iterate (packet compData last) timer with hr
  have hnext : next s₂ (.serverRecv (packet compData last) timer)
      = some { s₂ with server := r.1, toClient := r.2 ++ s₂.toClient } := by
    simp only [next, if_pos hmem, hphase₂, ← hr]
  have hall : ∀ k ≤ lastSeq compData, r.1.recvbit k = true := by
    intro k hk
    rw [hr, iterate_recvbit hfit _ hlast, hbits₂, ← Bool.decide_or, decide_eq_true_eq]
    exact List.mem_cons.mp ((horder.all k).mpr hk)
  have hstop : ¬ (s₂.server.record (packet compData last)).continues := by
    intro hgo
    have hrec := recording_iterate hfit
      ((run_safeInv hfit hrun₂).recording (by rw [hphase₂]; decide)) hlast timer
    obtain ⟨k, hk, hmissing⟩ :=
      missing_of_continues hfit hrec ((iterate_continues _ _ _).mpr hgo)
    rw [← hr, hall k hk] at hmissing
    cases hmissing
  refine ⟨_, _, run_next hrun₂ hnext, ?_, ?_, ?_, ?_, hall, ?_, hmem⟩
  · rintro rfl
    exact hC₂.cons trivial
  · have hbefore : arrivals past₂ = before := by
      rw [harrived₂, harrived₁]
      exact List.append_nil before
    exact congrArg (last :: ·) hbefore
  · dsimp only
    rw [hclient₂, hclient₁]
    rfl
  · dsimp only
    rw [hr, iterate_phase, if_neg hstop]
  · rintro rfl
    dsimp only
    rw [hr, iterate_out, iterate_sendHdr, if_pos rfl]
    exact List.mem_append_left _ (List.mem_replicate.mpr ⟨by omega, rfl⟩)

/-- In every transfer, and for every order of arrival, there is a run in which the client erases
everything and terminates, while the server has not finished `save_to_file`. -/
theorem exists_early_exit (hfit : Fits compData) {last : ℕ} {before : List ℕ}
    (horder : ArrivalOrder compData last before) :
    ∃ past s s', Run (system compData) past s ∧ arrivals past = last :: before ∧
      s.client.dataMap = initialMap compData ∧ next s .clientTimeout = some s' ∧
      s'.client.dataMap = [] ∧ s'.client.pc = .exitEmpty ∧ s'.server.phase = .saving := by
  obtain ⟨past, s, hrun, -, harrived, hclient, hphase, hall, hreply, -⟩ :=
    exists_run_complete hfit horder true
  -- the reply that marks everything reaches the client
  have hplain : s.server.sendHdr.dataSeq ≠ uint32Max := by
    rw [(run_safeInv hfit hrun).plain (by rw [hphase]; decide)]
    decide
  have hrecv : next s (.clientRecv s.server.sendHdr) = some { s with
      client := { s.client with sRes := s.server.sendHdr, pc := .reading } } := by
    simp only [next, if_pos (hreply rfl), Client.readResp, hclient, Option.map_some,
      if_neg hplain]
  -- everything is erased, and the client exits
  have hempty : s.client.dataMap.filter (fun e => !s.server.sendHdr.bit e.1) = [] := by
    rw [List.filter_eq_nil_iff, hclient]
    intro e he
    have hbit := hall e.1 (mem_initialMap.mp he).1
    rw [Server.recvbit] at hbit
    simp [hbit]
  have hexit : next { s with client := { s.client with sRes := s.server.sendHdr, pc := .reading } }
      .clientTimeout = some { s with
        client := { s.client with dataMap := [], sRes := s.server.sendHdr, pc := .exitEmpty } } := by
    simp only [next, Client.eraseDone, Client.donebit, hempty, Option.map_some,
      List.isEmpty_nil, if_true]
  exact ⟨_, _, _, run_next hrun hrecv, harrived, by rw [hclient]; rfl, hexit, rfl, rfl, hphase⟩

/-- In every transfer there is also a run whose steps all meet the condition and in which the
client terminates, on FIN. -/
theorem exists_orderly_exit (hfit : Fits compData) :
    ∃ past s, Run (system compData) past s ∧ Orderly compData past ∧ s.client.pc = .exitFin := by
  obtain ⟨past, s, hrun, hC, -, hclient, hphase, -, -, hmem⟩ :=
    exists_run_complete hfit (order_range compData) false
  set sv := s.server.save (List.replicate (saveBufferSize s.server.compSize) 0) with hsv
  have hsave : next s (.serverSave (List.replicate (saveBufferSize s.server.compSize) 0))
      = some { s with server := sv } := by
    simp only [next, hphase, List.length_replicate, and_self, if_true, hsv]
  -- one more packet is answered by FIN
  have hfin : next { s with server := sv } (.serverRecv (packet compData (lastSeq compData)) false)
      = some { s with server := sv, toClient := doReponse sv.sendHdr ++ s.toClient } := by
    simp only [next, if_pos hmem, hsv, Server.save]
  have hin : sv.sendHdr ∈ doReponse sv.sendHdr ++ s.toClient :=
    List.mem_append_left _ (List.mem_replicate.mpr ⟨by omega, rfl⟩)
  have hexit : next { s with server := sv, toClient := doReponse sv.sendHdr ++ s.toClient }
      (.clientRecv sv.sendHdr) = some { s with
        client := { s.client with sRes := sv.sendHdr, pc := .exitFin }
        server := sv
        toClient := doReponse sv.sendHdr ++ s.toClient } := by
    simp only [next, if_pos hin, Client.readResp, hclient, Option.map_some]
    rfl
  refine ⟨_, _, run_next (run_next (run_next hrun hsave) hfin) hexit,
    .cons (.cons (.cons (hC rfl) ?_) ?_) ?_, rfl⟩ <;> exact trivial

/-- One byte of data is a transfer. -/
theorem fits_singleton (b : UInt8) : Fits [b] :=
  ⟨le_rfl, show numChunks dataSize 1 < dataSize * 8 by decide⟩

/-- One byte more than a packet carries. -/
def twoChunks : Bytes := List.replicate dataSize 1 ++ [2]

theorem length_twoChunks : twoChunks.length = dataSize + 1 := by
  rw [twoChunks, List.length_append, List.length_replicate, List.length_singleton]

theorem lastSeq_twoChunks : lastSeq twoChunks = 2 := by
  rw [lastSeq, length_twoChunks]
  decide

theorem fits_twoChunks : Fits twoChunks :=
  ⟨by rw [length_twoChunks]; omega, by rw [lastSeq_twoChunks]; decide⟩

/-- The last chunk arrives first, and the size of the data last. -/
theorem order_twoChunks : ArrivalOrder twoChunks 0 [1, 2] := by
  constructor
  · intro k
    rw [lastSeq_twoChunks]
    simp only [List.mem_cons, List.not_mem_nil, or_false]
    omega
  · decide

end RobustUdp
