/-
# The last acknowledgements of Lab 8

Near the end of a transfer the server acknowledges more often: the flag `keep` is set once the
number of chunks, as the announced size divided by `DATA_SIZE` gives it, exceeds the number of
packets received by less than 100.  The division leaves out a last chunk that is not full, the
packets received include packet 0, and the subtraction is one of unsigned numbers, so that it
jumps to the end of 64 bits when one chunk of such a transfer is missing.

* `missing`, `Recording.bitCount_add` : the missing chunks, and the bits that are set;
* `left_lt_iff`, `le_left_of_unannounced` : what the test says, from the number of missing chunks;
* `FastNearEnd` : an iteration near the end of a transfer leaves `keep` set;
* `LateAnnouncement` : packet 0 arrives when only the last chunk, not a full one, is missing;
* `fast_near_end_iff` : the runs in which all iterations near the end leave `keep` set.
-/
import IntroNP.RobustUdpSafety
import IntroNP.RobustUdpRuns

namespace RobustUdp

open Machine

/-! ## Missing chunks -/

/-- The chunks that the server has not received. -/
def missing (compData : Bytes) (sv : Server) : Finset ℕ :=
  (Finset.Icc 1 (lastSeq compData)).filter fun k => sv.recvbit k = false

/-- The number of packets that the test of `keep` takes to be missing. -/
def Server.left (sv : Server) : ℕ :=
  (sv.compSize / dataSize + 2 ^ 64 - bitCount sv.sendHdr.data.1) % 2 ^ 64

theorem updateKeep_keep (sv : Server) :
    sv.updateKeep.keep = (sv.keep || decide (sv.left < 100)) := by
  have htest : sv.updateKeep = if !sv.keep && decide (sv.left < 100) then { sv with keep := true }
      else sv := rfl
  rw [htest]
  generalize sv.left = left
  cases hkeep : sv.keep with
  | true => simp [hkeep]
  | false =>
      by_cases hleft : left < 100
      · simp [hleft]
      · simp [hleft, hkeep]

@[simp] theorem record_keep (sv : Server) (p : Hdr) : (sv.record p).keep = sv.keep := by
  unfold Server.record; dsimp only; split_ifs <;> rfl

/-- The flag after an iteration. -/
theorem iterate_keep (sv : Server) (p : Hdr) (timer : Bool) :
    (sv.iterate p timer).1.keep
      = (sv.keep || decide ((sv.iterate p timer).1.left < 100)) := by
  have hleft : (sv.iterate p timer).1.left = (sv.record p).left := by
    rw [Server.left, Server.left, iterate_compSize, iterate_sendHdr]
  have hkeep : (sv.iterate p timer).1.keep = (sv.record p).updateKeep.keep := by
    unfold Server.iterate; dsimp only; split_ifs <;> rfl
  rw [hleft, hkeep, updateKeep_keep, record_keep]

variable {compData : Bytes} {sv : Server}

theorem mem_missing {k : ℕ} :
    k ∈ missing compData sv ↔ (1 ≤ k ∧ k ≤ lastSeq compData) ∧ sv.recvbit k = false := by
  rw [missing, Finset.mem_filter, Finset.mem_Icc]

/-- Every chunk is either marked or missing, and packet 0 is marked as well. -/
theorem Recording.bitCount_add (hfit : Fits compData) (h : Recording compData sv) :
    bitCount sv.sendHdr.data.1 + (missing compData sv).card
      = lastSeq compData + if sv.recvbit 0 then 1 else 0 := by
  have hfew := hfit.few
  have hcount : bitCount sv.sendHdr.data.1
      = ((Finset.range (8 * sv.sendHdr.data.1.length)).filter fun k => sv.recvbit k = true).card := by
    show _ = ((List.range (8 * sv.sendHdr.data.1.length)).filter fun k =>
      decide (sv.recvbit k = true)).length
    simp only [Bool.decide_eq_true]
    rw [bitCount, List.countP_eq_length_filter]
    rfl
  have hlen : sv.sendHdr.data.1.length = dataSize := sv.sendHdr.data.2
  have hbits : (Finset.range (8 * sv.sendHdr.data.1.length)).filter (fun k => sv.recvbit k = true)
      = (Finset.range (lastSeq compData + 1)).filter fun k => sv.recvbit k = true := by
    ext k
    simp only [Finset.mem_filter, Finset.mem_range, hlen]
    constructor
    · rintro ⟨-, hk⟩
      exact ⟨Nat.lt_succ_of_le (h.inRange k hk), hk⟩
    · rintro ⟨hlt, hk⟩
      exact ⟨by omega, hk⟩
  have hall := Finset.card_filter_add_card_filter_not (s := Finset.range (lastSeq compData + 1))
    fun k => sv.recvbit k = true
  rw [Finset.card_range] at hall
  have hrest : ((Finset.range (lastSeq compData + 1)).filter fun k => ¬ sv.recvbit k = true).card
      = (missing compData sv).card + if sv.recvbit 0 then 0 else 1 := by
    cases hzero : sv.recvbit 0 with
    | true =>
        show _ = (missing compData sv).card
        congr 1
        ext k
        rw [mem_missing, Finset.mem_filter, Finset.mem_range, Bool.not_eq_true]
        constructor
        · rintro ⟨hk, hbit⟩
          have hne : k ≠ 0 := by
            rintro rfl
            rw [hzero] at hbit
            cases hbit
          exact ⟨⟨Nat.one_le_iff_ne_zero.mpr hne, Nat.le_of_lt_succ hk⟩, hbit⟩
        · rintro ⟨⟨-, hk⟩, hbit⟩
          exact ⟨Nat.lt_succ_of_le hk, hbit⟩
    | false =>
        have hnotin : 0 ∉ missing compData sv := by
          rw [mem_missing]
          omega
        show _ = (missing compData sv).card + 1
        rw [← Finset.card_insert_of_notMem hnotin]
        congr 1
        ext k
        rw [Finset.mem_insert, mem_missing, Finset.mem_filter, Finset.mem_range, Bool.not_eq_true]
        constructor
        · rintro ⟨hk, hbit⟩
          rcases Nat.eq_zero_or_pos k with rfl | hpos
          · exact Or.inl rfl
          · exact Or.inr ⟨⟨hpos, Nat.le_of_lt_succ hk⟩, hbit⟩
        · rintro (rfl | ⟨⟨-, hk⟩, hbit⟩)
          · exact ⟨Nat.succ_pos _, hzero⟩
          · exact ⟨Nat.lt_succ_of_le hk, hbit⟩
  rw [hcount, hbits]
  rw [hrest] at hall
  split_ifs at hall ⊢ <;> omega

/-! ## The test -/

/-- Once the size is announced and while a chunk is missing, the test sets `keep` when fewer than
100 chunks are missing, or 102 if the last chunk is not full; but not when this is one chunk and
the last one is not full. -/
theorem left_lt_iff (hfit : Fits compData) (h : Recording compData sv)
    (hzero : sv.recvbit 0 = true) (hmissing : 1 ≤ (missing compData sv).card) :
    sv.left < 100 ↔ ((missing compData sv).card = 1 → dataSize ∣ compData.length) ∧
      (missing compData sv).card ≤ if dataSize ∣ compData.length then 100 else 101 := by
  have hcount := h.bitCount_add hfit
  have hcomp : sv.compSize = compData.length := by
    rw [h.announced, if_pos hzero]
  have hlt := length_lt hfit
  have hnum : lastSeq compData = (compData.length + 1167) / 1168 := rfl
  rw [hzero, if_pos rfl, hnum] at hcount
  rw [uint32Max_eq] at hlt
  rw [Server.left, hcomp]
  generalize bitCount sv.sendHdr.data.1 = count at hcount ⊢
  by_cases hdvd : dataSize ∣ compData.length
  · simp only [hdvd, implies_true, true_and, if_true]
    rw [dataSize_eq] at hdvd ⊢
    omega
  · simp only [hdvd, imp_false, if_false]
    rw [dataSize_eq] at hdvd ⊢
    omega

/-- Before that, the unknown size keeps the test from setting it. -/
theorem le_left_of_unannounced (hfit : Fits compData) (h : Recording compData sv)
    (hzero : sv.recvbit 0 = false) : 100 ≤ sv.left := by
  have hcount := h.bitCount_add hfit
  have hfew := hfit.few
  have hcomp : sv.compSize = uint32Max := by
    rw [h.announced, if_neg (by simp [hzero])]
  rw [dataSize_eq] at hfew
  rw [hzero, if_neg (by simp)] at hcount
  rw [Server.left, hcomp, uint32Max_eq]
  generalize bitCount sv.sendHdr.data.1 = count at hcount ⊢
  rw [dataSize_eq]
  omega

/-- While the loop goes on and the size is known, a chunk is missing. -/
theorem missing_pos (hfit : Fits compData) (h : Recording compData sv)
    (hzero : sv.recvbit 0 = true) (hgo : sv.continues) : 1 ≤ (missing compData sv).card := by
  obtain ⟨k, hk, hbit⟩ := missing_of_continues hfit h hgo
  have hne : k ≠ 0 := by
    rintro rfl
    rw [hzero] at hbit
    cases hbit
  apply Finset.card_pos.mpr
  exact ⟨k, mem_missing.mpr ⟨⟨Nat.one_le_iff_ne_zero.mpr hne, hk⟩, hbit⟩⟩

/-- An iteration takes at most its own packet from the missing chunks. -/
theorem missing_iterate (hfit : Fits compData) (sv : Server) {k : ℕ} (hk : k ≤ lastSeq compData)
    (timer : Bool) :
    missing compData (sv.iterate (packet compData k) timer).1 = (missing compData sv).erase k := by
  ext j
  rw [Finset.mem_erase, mem_missing, mem_missing, iterate_recvbit hfit sv hk timer,
    Bool.or_eq_false_iff, decide_eq_false_iff_not]
  constructor
  · rintro ⟨hj, hne, hbit⟩
    exact ⟨hne, hj, hbit⟩
  · rintro ⟨hne, hj, hbit⟩
    exact ⟨hj, hne, hbit⟩

theorem card_missing_le (hfit : Fits compData) (sv : Server) {k : ℕ} (hk : k ≤ lastSeq compData)
    (timer : Bool) : (missing compData sv).card - 1
      ≤ (missing compData (sv.iterate (packet compData k) timer).1).card := by
  rw [missing_iterate hfit sv hk timer]
  exact Finset.pred_card_le_card_erase

/-- Packet 0 is no chunk. -/
theorem missing_iterate_zero (hfit : Fits compData) (sv : Server) (timer : Bool) :
    missing compData (sv.iterate (packet compData 0) timer).1 = missing compData sv := by
  rw [missing_iterate hfit sv (Nat.zero_le _) timer]
  apply Finset.erase_eq_of_notMem
  rw [mem_missing]
  omega

/-! ## One iteration -/

section iteration

variable {k : ℕ} {timer : Bool}

/-- Before the announcement the flag stays unset. -/
theorem unset_iterate (hfit : Fits compData) (h : Recording compData sv) (hk : k ≤ lastSeq compData)
    (hzero : (sv.iterate (packet compData k) timer).1.recvbit 0 = false) (hkeep : sv.keep = false) :
    (sv.iterate (packet compData k) timer).1.keep = false := by
  have hleft := le_left_of_unannounced hfit (recording_iterate hfit h hk timer) hzero
  rw [iterate_keep, hkeep, Bool.false_or, decide_eq_false_iff_not]
  omega

/-- An announcement when only the last chunk is missing, and is not full: the loop goes on, and the
flag is not set. -/
theorem late_iterate (hfit : Fits compData) (h : Recording compData sv) (hkeep : sv.keep = false)
    (hone : (missing compData sv).card = 1) (hdvd : ¬ dataSize ∣ compData.length)
    (timer : Bool) : (sv.iterate (packet compData 0) timer).1.compSize ≠ uint32Max ∧
      (sv.iterate (packet compData 0) timer).1.continues ∧
      (missing compData (sv.iterate (packet compData 0) timer).1).card = 1 ∧
      (sv.iterate (packet compData 0) timer).1.keep = false := by
  have hrec := recording_iterate hfit h (Nat.zero_le _) timer
  have hzero : (sv.iterate (packet compData 0) timer).1.recvbit 0 = true := by
    rw [iterate_recvbit hfit sv (Nat.zero_le _) timer]
    simp
  have hone' : (missing compData (sv.iterate (packet compData 0) timer).1).card = 1 := by
    rw [missing_iterate_zero hfit]
    exact hone
  refine ⟨?_, ?_, hone', ?_⟩
  · rw [hrec.announced, if_pos hzero]
    exact (length_lt hfit).ne
  · by_contra hstop
    obtain ⟨j, hj⟩ := Finset.card_pos.mp (by rw [hone']; exact Nat.one_pos)
    obtain ⟨⟨-, hle⟩, hbit⟩ := mem_missing.mp hj
    rw [(received_all_of_not_continues hrec hstop).2 j hle] at hbit
    cases hbit
  · rw [iterate_keep, hkeep, Bool.false_or, decide_eq_false_iff_not,
      left_lt_iff hfit hrec hzero hone'.ge]
    rintro ⟨hfull, -⟩
    exact hdvd (hfull hone')

/-- Where the announcement is in, the flag is set or more than 100 chunks are missing: the
difference passes through the values below 100 one by one, unless the announcement itself skips
them. -/
theorem ready_iterate (hfit : Fits compData) (h : Recording compData sv) (hk : k ≤ lastSeq compData)
    (hready : sv.recvbit 0 = true → sv.keep = true ∨ 101 ≤ (missing compData sv).card)
    (hlate : sv.recvbit 0 = false → (missing compData sv).card = 1 → dataSize ∣ compData.length)
    (hgo : (sv.iterate (packet compData k) timer).1.continues)
    (hzero : (sv.iterate (packet compData k) timer).1.recvbit 0 = true) :
    (sv.iterate (packet compData k) timer).1.keep = true ∨
      101 ≤ (missing compData (sv.iterate (packet compData k) timer).1).card := by
  have hrec := recording_iterate hfit h hk timer
  have hpos := missing_pos hfit hrec hzero hgo
  have htest := left_lt_iff hfit hrec hzero hpos
  have hfew := card_missing_le hfit sv hk timer
  have hbound : 100 ≤ if dataSize ∣ compData.length then 100 else 101 := by
    split_ifs <;> omega
  rw [iterate_keep, Bool.or_eq_true, decide_eq_true_eq, htest]
  by_cases hmany : 101 ≤ (missing compData (sv.iterate (packet compData k) timer).1).card
  · exact Or.inr hmany
  · refine Or.inl ?_
    cases hold : sv.recvbit 0 with
    | true =>
        rcases hready hold with hkeep | hmiss
        · exact Or.inl hkeep
        · exact Or.inr ⟨by omega, by omega⟩
    | false =>
        -- this is the announcement, and the missing chunks are those of before
        have hk0 : k = 0 := by
          rw [iterate_recvbit hfit sv hk timer, hold, Bool.or_false, decide_eq_true_eq] at hzero
          exact hzero.symm
        subst hk0
        rw [missing_iterate_zero hfit] at hmany ⊢
        exact Or.inr ⟨hlate hold, by omega⟩

end iteration

/-! ## Runs -/

/-- An iteration of the receive loop in which fewer than 100 chunks are missing, the size is known
and the loop goes on leaves `keep` set. -/
def FastNearEnd (compData : Bytes) (m : Moment State Event Unit) : Prop :=
  ∀ p timer, m.event = .serverRecv p timer → m.pre.server.phase = .receiving →
    (m.pre.server.iterate p timer).1.compSize ≠ uint32Max →
    (m.pre.server.iterate p timer).1.continues →
    (missing compData (m.pre.server.iterate p timer).1).card < 100 →
    (m.pre.server.iterate p timer).1.keep = true

/-- Packet 0 arrives for the first time, one chunk is missing, and the last chunk is not full. -/
def LateAnnouncement (compData : Bytes) (s : State) : Event → Prop
  | .serverRecv p _ => s.server.phase = .receiving ∧ p.dataSeq = 0 ∧ s.server.recvbit 0 = false ∧
      (missing compData s.server).card = 1 ∧ ¬ dataSize ∣ compData.length
  | _ => False

variable {past : List (Moment State Event Unit)} {s s' : State} {a : Event}

/-- What a step does to a server in its receive loop: an iteration on a packet of the transfer, or
nothing. -/
theorem server_next (h : SafeInv compData s) (hs : next s a = some s')
    (hphase : s'.server.phase = .receiving) :
    s'.server = s.server ∨ ∃ k ≤ lastSeq compData, ∃ timer,
      a = .serverRecv (packet compData k) timer ∧ s.server.phase = .receiving ∧
        s'.server = (s.server.iterate (packet compData k) timer).1 := by
  cases a with
  | clientVisit =>
      obtain ⟨r, -, rfl⟩ := Option.map_eq_some_iff.mp hs
      exact Or.inl rfl
  | clientRecv res =>
      simp only [next] at hs
      split_ifs at hs
      obtain ⟨cl, -, rfl⟩ := Option.map_eq_some_iff.mp hs
      exact Or.inl rfl
  | clientTimeout =>
      obtain ⟨cl, -, rfl⟩ := Option.map_eq_some_iff.mp hs
      exact Or.inl rfl
  | serverRecv p timer =>
      simp only [next] at hs
      split_ifs at hs with hmem
      obtain ⟨k, hk, rfl⟩ := h.sent p hmem
      cases hold : s.server.phase with
      | receiving =>
          simp only [hold, Option.some.injEq] at hs
          subst hs
          exact Or.inr ⟨k, hk, timer, rfl, rfl, rfl⟩
      | saving => simp [hold] at hs
      | fin =>
          simp only [hold, Option.some.injEq] at hs
          subst hs
          exact Or.inl rfl
  | serverSave buf =>
      simp only [next] at hs
      split_ifs at hs
      cases hs
      cases hphase

/-- A server in its receive loop that knows no size has not set the flag. -/
def Unset (compData : Bytes) (s : State) : Prop :=
  SafeInv compData s ∧ (s.server.phase = .receiving → s.server.recvbit 0 = false →
    s.server.keep = false)

theorem unset_next (hfit : Fits compData) (h : Unset compData s) (hs : next s a = some s') :
    Unset compData s' := by
  obtain ⟨hsafe, hunset⟩ := h
  refine ⟨safeInv_next hfit hsafe hs, fun hphase' hzero' => ?_⟩
  rcases server_next hsafe hs hphase' with heq | ⟨k, hk, timer, -, hphase, heq⟩
  · rw [heq] at hphase' hzero' ⊢
    exact hunset hphase' hzero'
  · have hrec := hsafe.recording (by rw [hphase]; decide)
    rw [heq] at hzero' ⊢
    refine unset_iterate hfit hrec hk hzero' (hunset hphase ?_)
    rw [iterate_recvbit hfit _ hk timer, Bool.or_eq_false_iff] at hzero'
    exact hzero'.2

/-- A late announcement is an iteration near the end that does not set the flag. -/
theorem not_fastNearEnd_of_late (hfit : Fits compData) (h : Unset compData s)
    (hlate : LateAnnouncement compData s a) (hs : next s a = some s') {o : Unit} :
    ¬ FastNearEnd compData ⟨s, a, o⟩ := by
  obtain ⟨hsafe, hunset⟩ := h
  cases a with
  | serverRecv p timer =>
      obtain ⟨hphase, hseq, hzero, hone, hdvd⟩ := hlate
      obtain ⟨hmem, -⟩ : p ∈ s.toServer ∧ True := by
        simp only [next] at hs
        split_ifs at hs with hmem
        exact ⟨hmem, trivial⟩
      obtain ⟨k, hk, rfl⟩ := hsafe.sent p hmem
      obtain rfl : k = 0 := hseq
      have hrec := hsafe.recording (by rw [hphase]; decide)
      obtain ⟨hknown, hgo, hone', hkeep⟩ :=
        late_iterate hfit hrec (hunset hphase hzero) hone hdvd timer
      intro hfast
      have hset := hfast _ timer rfl hphase hknown hgo (by rw [hone']; omega)
      have hset' : (s.server.iterate (packet compData 0) timer).1.keep = true := hset
      rw [hkeep] at hset'
      cases hset'
  | clientVisit => exact hlate.elim
  | clientRecv res => exact hlate.elim
  | clientTimeout => exact hlate.elim
  | serverSave buf => exact hlate.elim

/-- Once the size is known, the flag is set or more than 100 chunks are missing. -/
def Ready (compData : Bytes) (s : State) : Prop :=
  SafeInv compData s ∧ (s.server.phase = .receiving → s.server.recvbit 0 = true →
    s.server.keep = true ∨ 101 ≤ (missing compData s.server).card)

theorem ready_next (hfit : Fits compData) (h : Ready compData s)
    (hlate : ¬ LateAnnouncement compData s a) (hs : next s a = some s') : Ready compData s' := by
  obtain ⟨hsafe, hready⟩ := h
  refine ⟨safeInv_next hfit hsafe hs, fun hphase' hzero' => ?_⟩
  have hgo' := (safeInv_next hfit hsafe hs).looping hphase'
  rcases server_next hsafe hs hphase' with heq | ⟨k, hk, timer, rfl, hphase, heq⟩
  · rw [heq] at hphase' hzero' ⊢
    exact hready hphase' hzero'
  · have hrec := hsafe.recording (by rw [hphase]; decide)
    rw [heq] at hzero' hgo' ⊢
    refine ready_iterate hfit hrec hk (hready hphase) (fun hold hone => ?_) hgo' hzero'
    rw [iterate_recvbit hfit _ hk timer, hold, Bool.or_false, decide_eq_true_eq] at hzero'
    by_contra hdvd
    exact hlate ⟨hphase, hzero'.symm, hold, hone, hdvd⟩

/-- An iteration that leaves the server ready is a fast one if it is near the end. -/
theorem fastNearEnd_of_ready (hfit : Fits compData) (h : Ready compData s)
    (hlate : ¬ LateAnnouncement compData s a) (hs : next s a = some s') {o : Unit} :
    FastNearEnd compData ⟨s, a, o⟩ := by
  rintro p timer rfl hphase hknown hgo hfew
  obtain ⟨hsafe', hready'⟩ := ready_next hfit h hlate hs
  have hs' : s'.server = (s.server.iterate p timer).1 := by
    simp only [next] at hs
    split_ifs at hs
    have hphase' : s.server.phase = .receiving := hphase
    simp only [hphase', Option.some.injEq] at hs
    rw [← hs]
  have hphase' : s'.server.phase = .receiving := by
    rw [hs', iterate_phase, if_pos ((iterate_continues _ _ timer).mp hgo)]
    exact hphase
  have hzero : s'.server.recvbit 0 = true := by
    by_contra hne
    have hannounced := (hsafe'.recording (by rw [hphase']; decide)).announced
    rw [if_neg hne, hs'] at hannounced
    exact hknown hannounced
  rw [← hs'] at hfew
  rw [← hs']
  rcases hready' hphase' hzero with hkeep | hmany
  · exact hkeep
  · omega

theorem slow_of_late (hfit : Fits compData) (hrun : Run (system compData) past s) :
    ∀ m ∈ past, LateAnnouncement compData m.pre m.event → ¬ FastNearEnd compData m := by
  refine hrun.moments (C := fun _ _ => True) (I := Unset compData)
    ⟨safeInv_initial compData, fun _ _ => rfl⟩ ?_ fun _ _ => trivial
  intro s a s' o h _ hs
  rw [system_next] at hs
  exact ⟨unset_next hfit h hs, fun hlate => not_fastNearEnd_of_late hfit h hlate hs⟩

/-- In a run of a transfer, all iterations near the end leave `keep` set if and only if packet 0
does not arrive as late as when only the last chunk, not a full one, is missing. -/
theorem fast_near_end_iff (hfit : Fits compData) (hrun : Run (system compData) past s) :
    (∀ m ∈ past, FastNearEnd compData m) ↔
      ∀ m ∈ past, ¬ LateAnnouncement compData m.pre m.event := by
  have hinit : (system compData).init.server.recvbit 0 = false := getBit_replicate_zero dataSize 0
  constructor
  · intro hfast m hm hlate
    exact slow_of_late hfit hrun m hm hlate (hfast m hm)
  · intro hC
    refine hrun.moments (C := fun s a => ¬ LateAnnouncement compData s a) (I := Ready compData)
      ⟨safeInv_initial compData, fun _ hzero => ?_⟩ ?_ hC
    · rw [hinit] at hzero
      cases hzero
    · intro s a s' o h hlate hs
      rw [system_next] at hs
      exact ⟨ready_next hfit h hlate hs, fastNearEnd_of_ready hfit h hlate hs⟩

/-- The client sends packet 0 of a transfer of one byte, and it is the first that arrives. -/
theorem exists_announced : ∃ past s, Run (system [0]) past s ∧
    ∃ m ∈ past, LateAnnouncement [0] m.pre m.event := by
  have hvisit : ∃ s, next (system [0]).init .clientVisit = some s ∧
      packet [0] 0 ∈ s.toServer ∧ s.server = Server.initial := by
    refine ⟨_, rfl, ?_, rfl⟩
    have hunset : (Client.initial [0]).donebit 0 = false := getBit_replicate_zero dataSize 0
    show packet [0] 0 ∈ (if (Client.initial [0]).donebit 0 then []
      else [wrapSend 0 (zeroData [(0 : UInt8)].length)]) ++ []
    rw [hunset]
    exact List.mem_cons_self
  obtain ⟨s, hs, hmem, hserver⟩ := hvisit
  have hrecv : ∃ s', next s (.serverRecv (packet [0] 0) false) = some s' := by
    simp only [next, if_pos hmem, hserver]
    exact ⟨_, rfl⟩
  obtain ⟨s', hs'⟩ := hrecv
  refine ⟨_, s', run_next (run_next Run.start hs) hs', _, List.mem_cons_self, ?_⟩
  have hbit : ∀ k, Server.initial.recvbit k = false := fun k => getBit_replicate_zero dataSize k
  have hchunks : missing [0] Server.initial = Finset.Icc 1 (lastSeq [0]) :=
    Finset.filter_true_of_mem fun k _ => hbit k
  have hone : lastSeq [0] = 1 := rfl
  rw [LateAnnouncement, hserver, hchunks, hone]
  exact ⟨rfl, rfl, hbit 0, rfl, by decide⟩

theorem fast_near_end_iff_byte : ∃ past s, Run (system [0]) past s ∧ past ≠ [] ∧
    ((∀ m ∈ past, FastNearEnd [0] m) ↔ ∀ m ∈ past, ¬ LateAnnouncement [0] m.pre m.event) := by
  obtain ⟨past, s, hrun, m, hm, -⟩ := exists_announced
  exact ⟨past, s, hrun, List.ne_nil_of_mem hm, fast_near_end_iff (fits_singleton 0) hrun⟩

/-- In this run the announcement is an iteration near the end that leaves the flag unset. -/
theorem slow_near_end : ∃ past s, Run (system [0]) past s ∧ ∃ m ∈ past, ¬ FastNearEnd [0] m := by
  obtain ⟨past, s, hrun, m, hm, hlate⟩ := exists_announced
  exact ⟨past, s, hrun, m, hm, slow_of_late (fits_singleton 0) hrun m hm hlate⟩

end RobustUdp
