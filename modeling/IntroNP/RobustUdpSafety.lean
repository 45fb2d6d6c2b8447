/-
# Safety of the Lab 8 transfer

One client and one server over a network that loses, duplicates, delays and reorders.  The
invariant `SafeInv` ties what both sides know to the datagrams in flight: every packet in
flight is one of the client's, every reply in flight marks a subset of what the server has
received (so an old reply is as safe as a new one), and FIN is in flight only after the save.

* `safeInv_next` : every step keeps it;
* `run_safeInv` : it holds in every state of every run.
-/
import IntroNP.RobustUdpServer

namespace RobustUdp

open Machine

/-! ## The invariant -/

/-- The invariant of both processes and the network. -/
structure SafeInv (compData : Bytes) (s : State) : Prop where
  /-- Up to the save, the server's record is exact. -/
  recording : s.server.phase ≠ .fin → Recording compData s.server
  /-- The server is in the loop only while the loop test holds. -/
  looping : s.server.phase = .receiving → s.server.continues
  /-- Between the loop and the end of the save the loop test has failed. -/
  stopped : s.server.phase = .saving → ¬ s.server.continues
  /-- After the save, every packet has been received and the data is assembled. -/
  finished : s.server.phase = .fin → (∀ k ≤ lastSeq compData, s.server.recvbit k = true) ∧
    ∃ b, s.server.saved = some b ∧ b.take compData.length = compData
  /-- The reply is not FIN before the save. -/
  plain : s.server.phase ≠ .fin → s.server.sendHdr.dataSeq = 0
  /-- The client's map holds entries it started with. -/
  entries : ∀ e ∈ s.client.dataMap, e ∈ initialMap compData
  /-- So does the rest of a send round. -/
  todo : ∀ l, s.client.pc = .sending l → ∀ e ∈ l, e ∈ initialMap compData
  /-- The client has sent packets of the transfer. -/
  sent : ∀ p ∈ s.toServer, ∃ k ≤ lastSeq compData, p = packet compData k
  /-- Every reply marks only what the server has received. -/
  replied : ∀ r ∈ s.toClient, BitSub r.data.1 s.server.sendHdr.data.1
  /-- FIN is sent only after the save. -/
  fins : ∀ r ∈ s.toClient, r.dataSeq = uint32Max → s.server.phase = .fin
  /-- The reply the client kept marks only what the server has received. -/
  seen : BitSub s.client.sRes.data.1 s.server.sendHdr.data.1
  /-- What the client no longer holds has been received. -/
  erased : ∀ k ≤ lastSeq compData, k ∈ s.client.keys ∨ s.server.recvbit k = true
  /-- The client takes its first exit only after the save. -/
  exitFin : s.client.pc = .exitFin → s.server.phase = .fin
  /-- The client takes its second exit only with an empty map. -/
  exitEmpty : s.client.pc = .exitEmpty → s.client.dataMap = []

/-- The invariant holds at the start. -/
theorem safeInv_initial (compData : Bytes) : SafeInv compData (system compData).init where
  recording := fun _ => recording_initial compData
  looping := fun _ => Or.inl rfl
  stopped := by rintro ⟨⟩
  finished := by rintro ⟨⟩
  plain := fun _ => rfl
  entries := fun _ he => he
  todo := by rintro l ⟨⟩ e he; exact he
  sent := by rintro p ⟨⟩
  replied := by rintro r ⟨⟩
  fins := by rintro r ⟨⟩
  seen := BitSub.refl _
  erased := fun k hk => Or.inl (List.mem_map.mpr ⟨(k, entry compData k), mem_initialMap.mpr
    ⟨hk, rfl⟩, rfl⟩)
  exitFin := by rintro ⟨⟩
  exitEmpty := by rintro ⟨⟩

section steps

variable {compData : Bytes} {s s' : State}

/-- A step of the send round. -/
theorem safeInv_clientVisit (h : SafeInv compData s) (hs : next s .clientVisit = some s') :
    SafeInv compData s' := by
  simp only [next, Client.visit] at hs
  cases hpc : s.client.pc with
  | sending l =>
      cases l with
      | nil =>
          simp only [hpc, Option.map_some, Option.some.injEq] at hs
          subst hs
          exact { h with
            todo := by rintro l ⟨⟩
            sent := by simpa using h.sent
            exitFin := by rintro ⟨⟩
            exitEmpty := by rintro ⟨⟩ }
      | cons e l =>
          obtain ⟨key, data⟩ := e
          simp only [hpc, Option.map_some, Option.some.injEq] at hs
          subst hs
          obtain ⟨hkey, hdata⟩ := mem_initialMap.mp (h.todo _ hpc (key, data) List.mem_cons_self)
          refine { h with
            todo := ?_
            sent := ?_
            exitFin := by rintro ⟨⟩
            exitEmpty := by rintro ⟨⟩ }
          · rintro l' ⟨⟩ e he
            exact h.todo _ hpc e (List.mem_cons_of_mem _ he)
          · intro p hp
            rcases List.mem_append.mp hp with hp | hp
            · refine ⟨key, hkey, ?_⟩
              dsimp only at hdata
              split_ifs at hp
              · cases hp
              · rw [List.mem_singleton.mp hp, hdata, packet]
            · exact h.sent p hp
  | reading => simp [hpc] at hs
  | exitFin => simp [hpc] at hs
  | exitEmpty => simp [hpc] at hs

/-- The reception of a reply. -/
theorem safeInv_clientRecv (h : SafeInv compData s) {res : Hdr}
    (hs : next s (.clientRecv res) = some s') : SafeInv compData s' := by
  simp only [next, Client.readResp] at hs
  by_cases hmem : res ∈ s.toClient
  swap
  · rw [if_neg hmem] at hs
    cases hs
  rw [if_pos hmem] at hs
  cases hpc : s.client.pc with
  | reading =>
      simp only [hpc, Option.map_some, Option.some.injEq] at hs
      subst hs
      refine { h with
        todo := ?_
        seen := h.replied res hmem
        exitFin := ?_
        exitEmpty := ?_ }
      · intro l hl
        dsimp only at hl
        split_ifs at hl
      · intro hexit
        dsimp only at hexit
        split_ifs at hexit with hseq
        exact h.fins res hmem hseq
      · intro hexit
        dsimp only at hexit
        split_ifs at hexit
  | sending l => simp [hpc] at hs
  | exitFin => simp [hpc] at hs
  | exitEmpty => simp [hpc] at hs

/-- The end of a round. -/
theorem safeInv_clientTimeout (h : SafeInv compData s)
    (hs : next s .clientTimeout = some s') : SafeInv compData s' := by
  simp only [next, Client.eraseDone] at hs
  cases hpc : s.client.pc with
  | reading =>
      simp only [hpc, Option.map_some, Option.some.injEq] at hs
      subst hs
      refine { h with
        entries := fun e he => h.entries e (List.mem_of_mem_filter he)
        todo := ?_
        erased := ?_
        exitFin := ?_
        exitEmpty := ?_ }
      · intro l hl e he
        dsimp only at hl
        split_ifs at hl
        cases hl
        exact h.entries e (List.mem_of_mem_filter he)
      · intro k hk
        rcases h.erased k hk with hkey | hbit
        · by_cases hdone : s.client.donebit k = true
          · exact Or.inr (h.seen k hdone)
          · obtain ⟨e, he, rfl⟩ := List.mem_map.mp hkey
            exact Or.inl (List.mem_map.mpr ⟨e, List.mem_filter.mpr ⟨he, by simpa using hdone⟩, rfl⟩)
        · exact Or.inr hbit
      · intro hexit
        dsimp only at hexit
        split_ifs at hexit
      · intro hexit
        dsimp only at hexit ⊢
        split_ifs at hexit with hempty
        exact List.isEmpty_iff.mp hempty
  | sending l => simp [hpc] at hs
  | exitFin => simp [hpc] at hs
  | exitEmpty => simp [hpc] at hs

/-- An iteration of the receive loop only adds to the bits. -/
theorem bitSub_iterate (hfit : Fits compData) (sv : Server) {k : ℕ} (hk : k ≤ lastSeq compData)
    (timer : Bool) :
    BitSub sv.sendHdr.data.1 (sv.iterate (packet compData k) timer).1.sendHdr.data.1 := by
  have hfew := hfit.few
  rw [iterate_sendHdr, record_sendHdr]
  apply bitSub_setBit
  rw [sv.sendHdr.data.2]
  show k < 8 * dataSize
  omega

/-- The reception of a packet, in the receive loop or in the loop that sends FIN. -/
theorem safeInv_serverRecv (hfit : Fits compData) (h : SafeInv compData s) {p : Hdr}
    {timer : Bool} (hs : next s (.serverRecv p timer) = some s') : SafeInv compData s' := by
  simp only [next] at hs
  split_ifs at hs with hmem
  obtain ⟨k, hk, rfl⟩ := h.sent p hmem
  cases hphase : s.server.phase with
  | receiving =>
      simp only [hphase, Option.some.injEq] at hs
      subst hs
      have hnofin : s.server.phase ≠ .fin := by rw [hphase]; decide
      have hgrow := bitSub_iterate hfit s.server hk timer
      have hphase' := iterate_phase s.server (packet compData k) timer
      have hnofin' : (s.server.iterate (packet compData k) timer).1.phase ≠ .fin := by
        rw [hphase', hphase]
        split_ifs <;> decide
      have hplain' : (s.server.iterate (packet compData k) timer).1.sendHdr.dataSeq = 0 := by
        rw [iterate_sendHdr, record_sendHdr]
        exact h.plain hnofin
      refine { h with
        recording := fun _ => recording_iterate hfit (h.recording hnofin) hk timer
        looping := ?_
        stopped := ?_
        finished := fun hfin => absurd hfin hnofin'
        plain := fun _ => hplain'
        replied := ?_
        fins := ?_
        seen := h.seen.trans hgrow
        erased := fun j hj => (h.erased j hj).imp_right (hgrow j)
        exitFin := fun hexit => absurd (h.exitFin hexit) hnofin }
      · intro hloop
        rw [iterate_continues]
        rw [hphase'] at hloop
        by_contra hstop
        rw [if_neg hstop] at hloop
        cases hloop
      · intro hsave
        rw [iterate_continues]
        rw [hphase', hphase] at hsave
        intro hgo
        rw [if_pos hgo] at hsave
        cases hsave
      · intro r hr
        rcases List.mem_append.mp hr with hr | hr
        · rw [(mem_iterate_out hr).2, iterate_sendHdr]
          exact BitSub.refl _
        · exact (h.replied r hr).trans hgrow
      · intro r hr hseq
        rcases List.mem_append.mp hr with hr | hr
        · rw [(mem_iterate_out hr).2, ← iterate_sendHdr _ _ timer, hplain'] at hseq
          cases hseq
        · exact absurd (h.fins r hr hseq) hnofin
  | saving => simp [hphase] at hs
  | fin =>
      simp only [hphase, Option.some.injEq] at hs
      subst hs
      refine { h with
        replied := ?_
        fins := fun _ _ _ => hphase }
      intro r hr
      rcases List.mem_append.mp hr with hr | hr
      · rw [List.eq_of_mem_replicate hr]
        exact BitSub.refl _
      · exact h.replied r hr

/-- The save. -/
theorem safeInv_serverSave (hfit : Fits compData) (h : SafeInv compData s) {buf : Bytes}
    (hs : next s (.serverSave buf) = some s') : SafeInv compData s' := by
  simp only [next] at hs
  split_ifs at hs with hcond
  obtain ⟨hsaving, hbuf⟩ := hcond
  simp only [Option.some.injEq] at hs
  subst hs
  have hnofin : s.server.phase ≠ .fin := by rw [hsaving]; decide
  have hrec := h.recording hnofin
  obtain ⟨hcomp, hall⟩ := received_all_of_not_continues hrec (h.stopped hsaving)
  have htake := take_saveToFile hfit hrec (h.stopped hsaving) hbuf
  rw [hcomp] at htake
  exact { h with
    recording := fun hne => absurd rfl hne
    looping := by rintro ⟨⟩
    stopped := by rintro ⟨⟩
    finished := fun _ => ⟨hall, _, rfl, htake⟩
    plain := fun hne => absurd rfl hne
    fins := fun r hr hseq => absurd (h.fins r hr hseq) hnofin
    exitFin := fun _ => rfl }

/-- Every step keeps the invariant. -/
theorem safeInv_next (hfit : Fits compData) (h : SafeInv compData s) {a : Event}
    (hs : next s a = some s') : SafeInv compData s' := by
  cases a with
  | clientVisit => exact safeInv_clientVisit h hs
  | clientRecv res => exact safeInv_clientRecv h hs
  | clientTimeout => exact safeInv_clientTimeout h hs
  | serverRecv p timer => exact safeInv_serverRecv hfit h hs
  | serverSave buf => exact safeInv_serverSave hfit h hs

/-- A step that leads past the save changes no bit of the server.  The server was there before, with
the same reply, or the reply is FIN now. -/
theorem server_of_fin {a : Event} (hs : next s a = some s') (hfin : s'.server.phase = .fin) :
    s'.server.recvbit = s.server.recvbit ∧
      (s.server.phase = .fin ∧ s'.server.sendHdr = s.server.sendHdr ∨
        s'.server.sendHdr.dataSeq = uint32Max) := by
  cases a with
  | clientVisit =>
      simp only [next, Option.map_eq_some_iff] at hs
      obtain ⟨r, -, rfl⟩ := hs
      exact ⟨rfl, Or.inl ⟨hfin, rfl⟩⟩
  | clientRecv res =>
      simp only [next, Option.ite_none_right_eq_some, Option.map_eq_some_iff] at hs
      obtain ⟨-, cl, -, rfl⟩ := hs
      exact ⟨rfl, Or.inl ⟨hfin, rfl⟩⟩
  | clientTimeout =>
      simp only [next, Option.map_eq_some_iff] at hs
      obtain ⟨cl, -, rfl⟩ := hs
      exact ⟨rfl, Or.inl ⟨hfin, rfl⟩⟩
  | serverRecv p timer =>
      simp only [next, Option.ite_none_right_eq_some] at hs
      obtain ⟨-, hs⟩ := hs
      cases hphase : s.server.phase with
      | receiving =>
          simp only [hphase, Option.some.injEq] at hs
          subst hs
          rw [iterate_phase, hphase] at hfin
          split_ifs at hfin
      | saving => simp [hphase] at hs
      | fin =>
          simp only [hphase, Option.some.injEq] at hs
          subst hs
          exact ⟨rfl, Or.inl ⟨rfl, rfl⟩⟩
  | serverSave buf =>
      simp only [next, Option.ite_none_right_eq_some, Option.some.injEq] at hs
      obtain ⟨-, rfl⟩ := hs
      exact ⟨rfl, Or.inr rfl⟩

end steps

/-! ## Runs -/

theorem system_next {compData : Bytes} {s s' : State} {a : Event} {o : Unit} :
    (system compData).next s a = some (s', o) ↔ next s a = some s' := by
  simp [system, Machine.silent]

/-- A run goes on with any event that can happen. -/
theorem run_next {compData : Bytes} {past : List (Moment State Event Unit)} {s s' : State}
    {a : Event} (hrun : Run (system compData) past s) (h : next s a = some s') :
    Run (system compData) (⟨s, a, ()⟩ :: past) s' :=
  hrun.next (system_next.mpr h)

/-- The invariant holds in every state of every run. -/
theorem run_safeInv {compData : Bytes} (hfit : Fits compData) {past : List (Moment State Event Unit)}
    {s : State} (hrun : Run (system compData) past s) : SafeInv compData s :=
  hrun.always (safeInv_initial compData)
    (fun _ _ _ _ h hs => safeInv_next hfit h (system_next.mp hs))

end RobustUdp
