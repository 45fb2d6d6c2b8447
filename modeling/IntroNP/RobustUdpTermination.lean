/-
# The order in which the Lab 8 processes finish

The client may terminate on FIN, which the server sends after `save_to_file`, or because every
entry of its map has been acknowledged.  The second exit can come too early: when the
acknowledgement timer runs out in the very iteration that completes the transfer, the reply
already marks every packet and the server has still to save.

* `early_exit` : the shortest transfer with such a run;
* `Unacknowledged` : a packet that no reply in flight marks, which is there until the save
  when no reply is sent in the completing iteration;
* `saved_of_terminated` : under that condition the client terminates only after the save.
-/
import IntroNP.RobustUdpRuns

namespace RobustUdp

open Machine

variable {compData : Bytes}

/-- A run of a one-chunk transfer in which the client has terminated and the server has not
saved. -/
theorem early_exit : ∃ past s, Run (system [0]) past s ∧ s.client.terminated ∧
    s.server.phase ≠ .fin := by
  obtain ⟨past, s, s', hrun, -, -, hexit, -, hpc, hphase⟩ :=
    exists_early_exit (fits_singleton 0) (order_range [0])
  exact ⟨_, s', run_next hrun hexit, Or.inr hpc, by rw [hphase]; decide⟩

/-! ## The runs in which the order is right -/

/-- A packet that no reply so far has marked, and that the client therefore still holds. -/
structure Unacknowledged (compData : Bytes) (s : State) (k : ℕ) : Prop where
  /-- It is a packet of the transfer. -/
  inRange : k ≤ lastSeq compData
  /-- No reply in flight marks it. -/
  replied : ∀ r ∈ s.toClient, r.bit k = false
  /-- Nor does the reply the client kept. -/
  seen : s.client.donebit k = false
  /-- The client holds it. -/
  held : k ∈ s.client.keys

/-- Up to the save some packet is unacknowledged. -/
def SomeUnacknowledged (compData : Bytes) (s : State) : Prop :=
  s.server.phase ≠ .fin → ∃ k, Unacknowledged compData s k

theorem unacknowledged_initial (compData : Bytes) :
    Unacknowledged compData (system compData).init 0 where
  inRange := Nat.zero_le _
  replied := by rintro r ⟨⟩
  seen := getBit_replicate_zero dataSize 0
  held := List.mem_map.mpr ⟨(0, entry compData 0), mem_initialMap.mpr ⟨Nat.zero_le _, rfl⟩, rfl⟩

section steps

variable {s s' : State} {k : ℕ}

/-- No step of the client acknowledges the packet. -/
theorem Unacknowledged.clientVisit (h : Unacknowledged compData s k)
    (hs : next s .clientVisit = some s') : Unacknowledged compData s' k := by
  simp only [next, Client.visit, Option.map_eq_some_iff] at hs
  obtain ⟨r, hr, rfl⟩ := hs
  split at hr
  · cases hr
    exact ⟨h.inRange, h.replied, h.seen, h.held⟩
  · cases hr
    exact ⟨h.inRange, h.replied, h.seen, h.held⟩
  · cases hr

theorem Unacknowledged.clientRecv (h : Unacknowledged compData s k) {res : Hdr}
    (hs : next s (.clientRecv res) = some s') : Unacknowledged compData s' k := by
  simp only [next, Client.readResp, Option.ite_none_right_eq_some,
    Option.map_eq_some_iff] at hs
  obtain ⟨hmem, cl, hcl, rfl⟩ := hs
  split at hcl
  · cases hcl
    exact ⟨h.inRange, h.replied, h.replied res hmem, h.held⟩
  · cases hcl

theorem Unacknowledged.clientTimeout (h : Unacknowledged compData s k)
    (hs : next s .clientTimeout = some s') : Unacknowledged compData s' k := by
  simp only [next, Client.eraseDone, Option.map_eq_some_iff] at hs
  obtain ⟨cl, hcl, rfl⟩ := hs
  split at hcl
  · cases hcl
    refine ⟨h.inRange, h.replied, h.seen, ?_⟩
    obtain ⟨e, he, rfl⟩ := List.mem_map.mp h.held
    exact List.mem_map.mpr ⟨e, List.mem_filter.mpr ⟨he, by rw [h.seen]; rfl⟩, rfl⟩
  · cases hcl

/-- Nor does an iteration of the receive loop that sends nothing. -/
theorem Unacknowledged.serverRecv_false (h : Unacknowledged compData s k) {p : Hdr}
    (hphase : s.server.phase = .receiving)
    (hs : next s (.serverRecv p false) = some s') : Unacknowledged compData s' k := by
  simp only [next, Option.ite_none_right_eq_some, hphase, Option.some.injEq] at hs
  obtain ⟨-, rfl⟩ := hs
  refine ⟨h.inRange, fun r hr => ?_, h.seen, h.held⟩
  rcases List.mem_append.mp hr with hr | hr
  · cases (mem_iterate_out hr).1
  · exact h.replied r hr

/-- After an iteration that sends a reply, a packet that is still missing is unacknowledged:
every earlier reply marks less. -/
theorem unacknowledged_of_missing (hfit : Fits compData) (h : SafeInv compData s)
    {j : ℕ} (hj : j ≤ lastSeq compData) (hk : k ≤ lastSeq compData) (hkj : k ≠ j)
    (hmissing : s.server.recvbit k = false) (hphase : s.server.phase = .receiving)
    (hs : next s (.serverRecv (packet compData j) true) = some s') :
    Unacknowledged compData s' k := by
  simp only [next, Option.ite_none_right_eq_some, hphase, Option.some.injEq] at hs
  obtain ⟨-, rfl⟩ := hs
  have hbit : (s.server.iterate (packet compData j) true).1.recvbit k = false := by
    rw [iterate_recvbit hfit _ hj, hmissing, decide_eq_false hkj, Bool.or_false]
  refine ⟨hk, fun r hr => ?_, ?_, ?_⟩
  · rcases List.mem_append.mp hr with hr | hr
    · rw [(mem_iterate_out hr).2, ← iterate_sendHdr _ _ true]
      exact hbit
    · by_contra hset
      have hold := h.replied r hr k (by simpa [Hdr.bit] using hset)
      rw [Server.recvbit, Hdr.bit, hold] at hmissing
      cases hmissing
  · by_contra hset
    have hold := h.seen k (by simpa [Client.donebit, Hdr.bit] using hset)
    rw [Server.recvbit, Hdr.bit, hold] at hmissing
    cases hmissing
  · rcases h.erased k hk with hkey | hold
    · exact hkey
    · rw [hmissing] at hold
      cases hold

/-- A step that meets the condition keeps some packet unacknowledged until the save. -/
theorem someUnacknowledged_next (hfit : Fits compData) (hsafe : SafeInv compData s)
    (h : SomeUnacknowledged compData s) {a : Event} (hC : RepliesBeforeLast compData s a)
    (hs : next s a = some s') : SomeUnacknowledged compData s' := by
  intro hnofin'
  have hnofin : s.server.phase ≠ .fin := by
    intro hfin
    cases a with
    | clientVisit =>
        simp only [next, Option.map_eq_some_iff] at hs
        obtain ⟨r, -, rfl⟩ := hs
        exact hnofin' hfin
    | clientRecv res =>
        simp only [next, Option.ite_none_right_eq_some, Option.map_eq_some_iff] at hs
        obtain ⟨-, cl, -, rfl⟩ := hs
        exact hnofin' hfin
    | clientTimeout =>
        simp only [next, Option.map_eq_some_iff] at hs
        obtain ⟨cl, -, rfl⟩ := hs
        exact hnofin' hfin
    | serverRecv p timer =>
        simp only [next, hfin, Option.ite_none_right_eq_some, Option.some.injEq] at hs
        obtain ⟨-, rfl⟩ := hs
        exact hnofin' hfin
    | serverSave buf =>
        simp only [next, hfin, Option.ite_none_right_eq_some] at hs
        obtain ⟨⟨⟨⟩, -⟩, -⟩ := hs
  obtain ⟨k, hk⟩ := h hnofin
  cases a with
  | clientVisit => exact ⟨k, hk.clientVisit hs⟩
  | clientRecv res => exact ⟨k, hk.clientRecv hs⟩
  | clientTimeout => exact ⟨k, hk.clientTimeout hs⟩
  | serverRecv p timer =>
      have hmem : p ∈ s.toServer := by
        simp only [next, Option.ite_none_right_eq_some] at hs
        exact hs.1
      have hphase : s.server.phase = .receiving := by
        simp only [next, Option.ite_none_right_eq_some] at hs
        cases hphase : s.server.phase with
        | receiving => rfl
        | saving => simp [hphase] at hs
        | fin => exact absurd hphase hnofin
      cases timer with
      | false => exact ⟨k, hk.serverRecv_false hphase hs⟩
      | true =>
          obtain ⟨j, hj, rfl⟩ := hsafe.sent p hmem
          obtain ⟨i, hi, hij, hmissing⟩ := hC hphase
          exact ⟨i, unacknowledged_of_missing hfit hsafe hj hi hij hmissing hphase hs⟩
  | serverSave buf =>
      simp only [next, Option.ite_none_right_eq_some, Option.some.injEq] at hs
      obtain ⟨-, rfl⟩ := hs
      exact absurd rfl hnofin'

end steps

/-- In every run in which no reply is sent in the iteration that completes the transfer, the
client terminates, through either exit, only after the server has finished `save_to_file`. -/
theorem saved_of_terminated (hfit : Fits compData) {past : List (Moment State Event Unit)}
    {s : State} (hrun : Run (system compData) past s)
    (hC : Orderly compData past) (hterm : s.client.terminated) :
    s.server.phase = .fin ∧ ∃ b, s.server.saved = some b ∧ b.take compData.length = compData := by
  have hunack : SafeInv compData s ∧ SomeUnacknowledged compData s := by
    refine hrun.invariant (I := fun s => SafeInv compData s ∧ SomeUnacknowledged compData s)
      ⟨safeInv_initial compData, fun _ => ⟨0, unacknowledged_initial compData⟩⟩ ?_ hC
    rintro s a s' o ⟨hsafe, h⟩ hCa hnext
    rw [system_next] at hnext
    exact ⟨safeInv_next hfit hsafe hnext, someUnacknowledged_next hfit hsafe h hCa hnext⟩
  obtain ⟨hsafe, hsome⟩ := hunack
  have hfin : s.server.phase = .fin := by
    rcases hterm with hexit | hexit
    · exact hsafe.exitFin hexit
    · by_contra hnofin
      obtain ⟨k, hk⟩ := hsome hnofin
      have hheld := hk.held
      rw [Client.keys, hsafe.exitEmpty hexit] at hheld
      cases hheld
  exact ⟨hfin, (hsafe.finished hfin).2⟩

/-- The orderly run of a one-chunk transfer. -/
theorem saved_of_terminated_singleton : ∃ past s, Run (system [0]) past s ∧
    s.client.terminated ∧ s.server.phase = .fin ∧
      ∃ b, s.server.saved = some b ∧ b.take 1 = [0] := by
  obtain ⟨past, s, hrun, hC, hpc⟩ := exists_orderly_exit (fits_singleton 0)
  exact ⟨past, s, hrun, Or.inl hpc,
    saved_of_terminated (fits_singleton 0) hrun hC (Or.inl hpc)⟩

end RobustUdp
