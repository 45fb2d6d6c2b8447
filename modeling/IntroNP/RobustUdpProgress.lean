/-
# The Lab 8 transfer can always be completed

Whatever has been lost, delayed, duplicated or reordered so far, and whatever the client has erased
or skipped, there is a continuation in which the file is saved and both processes are done: what the
server still misses is what the client still holds, and the client sends it again in its next round.

* `exists_reading`, `exists_round` : the next send round, from any place in the client's loop;
* `exists_saving` : the server receives what it misses;
* `exists_fin` : the client is told that the file has been saved;
* `can_complete` : from every reachable state the transfer can be completed.
-/
import IntroNP.RobustUdpRuns

namespace RobustUdp

open Machine

variable {compData : Bytes} {past : List (Moment State Event Unit)} {s s' : State}

/-- One more step. -/
theorem CanReach.step {t : State} {a : Event} (h : (system compData).CanReach s t)
    (hs : next t a = some s') : (system compData).CanReach s s' :=
  h.tail ⟨a, (), system_next.mpr hs⟩

/-- The invariant holds of all that can still come. -/
theorem CanReach.safeInv (hfit : Fits compData) (h : SafeInv compData s)
    (hreach : (system compData).CanReach s s') : SafeInv compData s' := by
  induction hreach with
  | refl => exact h
  | tail _ hstep ih =>
      obtain ⟨a, o, hnext⟩ := hstep
      exact safeInv_next hfit ih (system_next.mp hnext)

/-- The reply is FIN after the save. -/
def FinReply (s : State) : Prop := s.server.phase = .fin → s.server.sendHdr.dataSeq = uint32Max

theorem finReply_next (h : FinReply s) {a : Event} (hs : next s a = some s') : FinReply s' := by
  intro hfin
  rcases (server_of_fin hs hfin).2 with ⟨hfin', hreply⟩ | hreply
  · rw [hreply]
    exact h hfin'
  · exact hreply

theorem CanReach.finReply (h : FinReply s) (hreach : (system compData).CanReach s s') :
    FinReply s' := by
  induction hreach with
  | refl => exact h
  | tail _ hstep ih =>
      obtain ⟨a, o, hnext⟩ := hstep
      exact finReply_next ih (system_next.mp hnext)

/-! ## A round of the client -/

/-- The rest of a send round: the client goes on to read, and has sent every entry whose bit is not
set. -/
theorem exists_reading (compData : Bytes) (todo : List (ℕ × DataT))
    (hpc : s.client.pc = .sending todo) :
    ∃ s', (system compData).CanReach s s' ∧ s'.client = { s.client with pc := .reading } ∧
      s'.server = s.server ∧ (∀ p ∈ s.toServer, p ∈ s'.toServer) ∧
      ∀ e ∈ todo, s.client.donebit e.1 = false → wrapSend e.1 e.2 ∈ s'.toServer := by
  induction todo generalizing s with
  | nil =>
      have hvisit : next s .clientVisit
          = some { s with client := { s.client with pc := .reading } } := by
        simp only [next, Client.visit, hpc, Option.map_some, List.nil_append]
      exact ⟨_, CanReach.step .refl hvisit, rfl, rfl, fun _ hp => hp, by simp⟩
  | cons e todo ih =>
      have hvisit : next s .clientVisit = some { s with
          client := { s.client with pc := .sending todo }
          toServer := (if s.client.donebit e.1 then [] else [wrapSend e.1 e.2])
            ++ s.toServer } := by
        simp only [next, Client.visit, hpc, Option.map_some]
      obtain ⟨s', hreach, hclient, hserver, hup, hsent⟩ := ih (s := { s with
          client := { s.client with pc := .sending todo }
          toServer := (if s.client.donebit e.1 then [] else [wrapSend e.1 e.2]) ++ s.toServer }) rfl
      refine ⟨s', .trans (CanReach.step .refl hvisit) hreach, hclient, hserver,
        fun p hp => hup p (List.mem_append_right _ hp), fun e' he' hbit => ?_⟩
      rcases List.mem_cons.mp he' with rfl | he'
      · refine hup _ (List.mem_append_left _ ?_)
        rw [if_neg (by rw [hbit]; decide)]
        exact List.mem_singleton_self _
      · exact hsent e' he' hbit

/-- What the client holds of the transfer. -/
theorem wrapSend_of_mem (h : SafeInv compData s) {e : ℕ × DataT} (he : e ∈ s.client.dataMap) :
    wrapSend e.1 e.2 = packet compData e.1 := by
  rw [packet, (mem_initialMap.mp (h.entries e he)).2]

/-- What the server misses has not been acknowledged. -/
theorem donebit_of_missing (h : SafeInv compData s) {k : ℕ} (hk : s.server.recvbit k = false) :
    s.client.donebit k = false := by
  by_contra hset
  have hold := h.seen k (by simpa [Client.donebit, Hdr.bit] using hset)
  rw [Server.recvbit, Hdr.bit, hold] at hk
  cases hk

/-- A client that reads has a round in which all that the server misses is sent, or it terminates
with nothing left to send. -/
theorem exists_round (h : SafeInv compData s) (hpc : s.client.pc = .reading) :
    ∃ s', (system compData).CanReach s s' ∧ s'.server = s.server ∧
      (s'.client.pc = .exitEmpty ∨ s'.client.pc = .reading ∧ (∃ p, p ∈ s'.toServer) ∧
        ∀ k ≤ lastSeq compData, s.server.recvbit k = false → packet compData k ∈ s'.toServer) := by
  set left := s.client.dataMap.filter (fun e => !s.client.donebit e.1) with hleft
  have htimeout : next s .clientTimeout = some { s with
      client := { s.client with
        dataMap := left, pc := if left.isEmpty then .exitEmpty else .sending left } } := by
    simp only [next, Client.eraseDone, hpc, Option.map_some, ← hleft]
  have hmem : ∀ e ∈ left, e ∈ s.client.dataMap ∧ s.client.donebit e.1 = false := by
    intro e he
    rw [hleft, List.mem_filter, Bool.not_eq_true'] at he
    exact he
  cases hempty : left.isEmpty with
  | true =>
      rw [hempty] at htimeout
      exact ⟨_, CanReach.step .refl htimeout, rfl, Or.inl rfl⟩
  | false =>
      rw [hempty] at htimeout
      obtain ⟨s', hreach, hclient, hserver, -, hsent⟩ := exists_reading compData
        (s := { s with client := { s.client with dataMap := left, pc := .sending left } }) left rfl
      have hpackets : ∀ e ∈ left, packet compData e.1 ∈ s'.toServer := by
        intro e he
        rw [← wrapSend_of_mem h (hmem e he).1]
        exact hsent e he (hmem e he).2
      refine ⟨s', .trans (CanReach.step .refl htimeout) hreach, hserver, Or.inr ⟨?_, ?_, ?_⟩⟩
      · rw [hclient]
      · obtain ⟨e, he⟩ := List.exists_mem_of_ne_nil left (by simpa using hempty)
        exact ⟨_, hpackets e he⟩
      · intro k hk hbit
        rcases h.erased k hk with hheld | hset
        · obtain ⟨e, he, rfl⟩ := List.mem_map.mp hheld
          refine hpackets e (List.mem_filter.mpr ⟨he, ?_⟩)
          rw [donebit_of_missing h hbit]
          rfl
        · rw [hbit] at hset
          cases hset

/-! ## The server -/

/-- The packets that the server has not received. -/
def Server.unmarked (compData : Bytes) (sv : Server) : Finset ℕ :=
  (Finset.range (lastSeq compData + 1)).filter fun k => sv.recvbit k = false

theorem mem_unmarked {sv : Server} {k : ℕ} :
    k ∈ sv.unmarked compData ↔ k ≤ lastSeq compData ∧ sv.recvbit k = false := by
  rw [Server.unmarked, Finset.mem_filter, Finset.mem_range, Nat.lt_succ_iff]

/-- The server receives what it misses, if all of it is on its way. -/
theorem exists_saving (hfit : Fits compData) (h : SafeInv compData s)
    (hphase : s.server.phase = .receiving)
    (hsent : ∀ k ≤ lastSeq compData, s.server.recvbit k = false → packet compData k ∈ s.toServer) :
    ∃ s', (system compData).CanReach s s' ∧ s'.client = s.client ∧ s'.toServer = s.toServer ∧
      s'.server.phase = .saving := by
  induction hn : (s.server.unmarked compData).card using Nat.strong_induction_on generalizing s with
  | _ n ih =>
      have hrec := h.recording (by rw [hphase]; decide)
      obtain ⟨k, hk, hbit⟩ := missing_of_continues hfit hrec (h.looping hphase)
      set r := s.server.iterate (packet compData k) false with hr
      have hnext : next s (.serverRecv (packet compData k) false)
          = some { s with server := r.1, toClient := r.2 ++ s.toClient } := by
        simp only [next, if_pos (hsent k hk hbit), hphase, ← hr]
      have hreach : (system compData).CanReach s _ := CanReach.step .refl hnext
      have hbits : ∀ j, r.1.recvbit j = (decide (j = k) || s.server.recvbit j) :=
        fun j => iterate_recvbit hfit _ hk false j
      have hold : ∀ j, r.1.recvbit j = false → j ≠ k ∧ s.server.recvbit j = false := by
        intro j hj
        rw [hbits, Bool.or_eq_false_iff, decide_eq_false_iff_not] at hj
        exact hj
      by_cases hgo : (s.server.record (packet compData k)).continues
      · have hphase' : r.1.phase = .receiving := by
          rw [hr, iterate_phase, if_pos hgo, hphase]
        have hless : r.1.unmarked compData ⊂ s.server.unmarked compData := by
          refine (Finset.ssubset_iff_of_subset fun j hj => ?_).mpr
            ⟨k, mem_unmarked.mpr ⟨hk, hbit⟩, ?_⟩
          · obtain ⟨hle, hj⟩ := mem_unmarked.mp hj
            exact mem_unmarked.mpr ⟨hle, (hold j hj).2⟩
          · intro hin
            exact (hold k (mem_unmarked.mp hin).2).1 rfl
        obtain ⟨s', hreach', hclient, hup, hsaving⟩ := ih _ (hn ▸ Finset.card_lt_card hless)
          (safeInv_next hfit h hnext) hphase' (fun j hj hj' => hsent j hj (hold j hj').2) rfl
        exact ⟨s', .trans hreach hreach', hclient, hup, hsaving⟩
      · refine ⟨_, hreach, rfl, rfl, ?_⟩
        show r.1.phase = .saving
        rw [hr, iterate_phase, if_neg hgo]

/-- The server saves the file. -/
theorem exists_saved (compData : Bytes) (hphase : s.server.phase = .saving) :
    ∃ s', (system compData).CanReach s s' ∧ s'.client = s.client ∧ s'.toServer = s.toServer ∧
      s'.server.phase = .fin := by
  have hsave : next s (.serverSave (List.replicate (saveBufferSize s.server.compSize) 0))
      = some { s with
        server := s.server.save (List.replicate (saveBufferSize s.server.compSize) 0) } := by
    simp only [next, hphase, List.length_replicate, and_self, if_true]
  exact ⟨_, CanReach.step .refl hsave, rfl, rfl, rfl⟩

/-- The server finishes with what it has, or with what it is sent. -/
theorem exists_fin (hfit : Fits compData) (h : SafeInv compData s)
    (hsent : ∀ k ≤ lastSeq compData, s.server.recvbit k = false → packet compData k ∈ s.toServer) :
    ∃ s', (system compData).CanReach s s' ∧ s'.client = s.client ∧ s'.toServer = s.toServer ∧
      s'.server.phase = .fin := by
  cases hphase : s.server.phase with
  | receiving =>
      obtain ⟨s₁, hreach₁, hclient₁, hup₁, hphase₁⟩ := exists_saving hfit h hphase hsent
      obtain ⟨s₂, hreach₂, hclient₂, hup₂, hphase₂⟩ := exists_saved compData hphase₁
      exact ⟨s₂, .trans hreach₁ hreach₂, hclient₂.trans hclient₁, hup₂.trans hup₁, hphase₂⟩
  | saving => exact exists_saved compData hphase
  | fin => exact ⟨s, .refl, rfl, rfl, hphase⟩

/-- A client that reads is told so, if a packet of it is still on its way. -/
theorem exists_exitFin (compData : Bytes) (hpc : s.client.pc = .reading) {p : Hdr}
    (hp : p ∈ s.toServer) (hphase : s.server.phase = .fin) (hfin : s.server.sendHdr.dataSeq = uint32Max) :
    ∃ s', (system compData).CanReach s s' ∧ s'.client.pc = .exitFin ∧ s'.server = s.server := by
  have hreply : next s (.serverRecv p false)
      = some { s with toClient := doReponse s.server.sendHdr ++ s.toClient } := by
    simp only [next, if_pos hp, hphase]
  have hin : s.server.sendHdr ∈ doReponse s.server.sendHdr ++ s.toClient :=
    List.mem_append_left _ (List.mem_replicate.mpr ⟨by omega, rfl⟩)
  have hexit : next { s with toClient := doReponse s.server.sendHdr ++ s.toClient }
      (.clientRecv s.server.sendHdr) = some { s with
        client := { s.client with sRes := s.server.sendHdr, pc := .exitFin }
        toClient := doReponse s.server.sendHdr ++ s.toClient } := by
    simp only [next, if_pos hin, Client.readResp, hpc, Option.map_some, if_pos hfin]
  exact ⟨_, CanReach.step (CanReach.step .refl hreply) hexit, rfl, rfl⟩

/-! ## Completion -/

/-- A server whose client has terminated finishes. -/
theorem complete_of_terminated (hfit : Fits compData) (h : SafeInv compData s)
    (hterm : s.client.terminated) :
    ∃ s', (system compData).CanReach s s' ∧ s'.client.terminated ∧ s'.server.phase = .fin := by
  rcases hterm with hexit | hexit
  · exact ⟨s, .refl, Or.inl hexit, h.exitFin hexit⟩
  · obtain ⟨s', hreach, hclient, -, hphase⟩ := exists_fin hfit h fun k hk hbit => by
      -- the client has nothing left, so nothing is missing
      rcases h.erased k hk with hheld | hset
      · rw [Client.keys, h.exitEmpty hexit] at hheld
        cases hheld
      · rw [hbit] at hset
        cases hset
    exact ⟨s', hreach, Or.inr (by rw [hclient]; exact hexit), hphase⟩

/-- So do both when the client reads. -/
theorem complete_of_reading (hfit : Fits compData) (h : SafeInv compData s) (hfin : FinReply s)
    (hpc : s.client.pc = .reading) :
    ∃ s', (system compData).CanReach s s' ∧ s'.client.terminated ∧ s'.server.phase = .fin := by
  obtain ⟨s₁, hreach₁, hserver₁, hround⟩ := exists_round h hpc
  have h₁ := CanReach.safeInv hfit h hreach₁
  rcases hround with hempty | ⟨hpc₁, ⟨p, hp⟩, hsent⟩
  · obtain ⟨s', hreach, hdone⟩ := complete_of_terminated hfit h₁ (Or.inr hempty)
    exact ⟨s', .trans hreach₁ hreach, hdone⟩
  · rw [← hserver₁] at hsent
    obtain ⟨s₂, hreach₂, hclient₂, hup₂, hphase₂⟩ := exists_fin hfit h₁ hsent
    have hreach := hreach₁.trans hreach₂
    obtain ⟨s₃, hreach₃, hexit, hserver₃⟩ := exists_exitFin compData
      (by rw [hclient₂, hpc₁]) (by rw [hup₂]; exact hp) hphase₂
      (CanReach.finReply hfin hreach hphase₂)
    exact ⟨s₃, hreach.trans hreach₃, Or.inl hexit, by rw [hserver₃, hphase₂]⟩

/-- From every reachable state of a transfer, whatever has been lost, delayed, duplicated or
reordered before, there is a continuation in which the client terminates and the server has saved
exactly the data. -/
theorem can_complete (hfit : Fits compData) (hrun : Run (system compData) past s) :
    ∃ past' s', Run (system compData) past' s' ∧ past <:+ past' ∧ s'.client.terminated ∧
      s'.server.phase = .fin ∧
      ∃ b, s'.server.saved = some b ∧ b.take compData.length = compData := by
  have h := run_safeInv hfit hrun
  have hfin : FinReply s := hrun.always (fun hfin => by cases hfin)
    fun _ _ _ _ hfin hs => finReply_next hfin (system_next.mp hs)
  obtain ⟨s', hreach, hterm, hphase⟩ : ∃ s', (system compData).CanReach s s' ∧
      s'.client.terminated ∧ s'.server.phase = .fin := by
    cases hpc : s.client.pc with
    | sending todo =>
        obtain ⟨s₁, hreach₁, hclient₁, -⟩ := exists_reading compData todo hpc
        have h₁ := CanReach.safeInv hfit h hreach₁
        obtain ⟨s', hreach, hdone⟩ := complete_of_reading hfit h₁
          (CanReach.finReply hfin hreach₁) (by rw [hclient₁])
        exact ⟨s', .trans hreach₁ hreach, hdone⟩
    | reading => exact complete_of_reading hfit h hfin hpc
    | exitFin => exact complete_of_terminated hfit h (Or.inl hpc)
    | exitEmpty => exact complete_of_terminated hfit h (Or.inr hpc)
  obtain ⟨past', hrun', hsuffix⟩ := hrun.canReach hreach
  exact ⟨past', s', hrun', hsuffix, hterm, hphase,
    ((run_safeInv hfit hrun').finished hphase).2⟩

/-- Two chunks have arrived in the reverse order, and the client has terminated early, before the
server has saved. -/
theorem can_complete_two : ∃ past s past' s', Run (system twoChunks) past s ∧
    arrivals past = [0, 1, 2] ∧ s.client.pc = .exitEmpty ∧ s.server.phase = .saving ∧
    Run (system twoChunks) past' s' ∧ past <:+ past' ∧ s'.client.terminated ∧
    s'.server.phase = .fin ∧
    ∃ b, s'.server.saved = some b ∧ b.take twoChunks.length = twoChunks := by
  obtain ⟨past, s, s', hrun, harrived, -, hexit, -, hpc, hphase⟩ :=
    exists_early_exit fits_twoChunks order_twoChunks
  obtain ⟨past', t, hdone⟩ := can_complete fits_twoChunks (run_next hrun hexit)
  exact ⟨_, s', past', t, run_next hrun hexit, harrived, hpc, hphase, hdone⟩

end RobustUdp
