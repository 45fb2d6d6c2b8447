/-
# Chunks and reassembly

A long byte string is cut into chunks of `D` bytes, each sent in a payload of exactly `D`
bytes (the last one padded with zeros), and put together again by copying every payload to
its offset.

* `chunk`, `numChunks`, `chunkIndices_eq` : the cut, as a loop over the offsets makes it;
* `numChunks_mul_eq_iff` : when the last chunk is as long as the others;
* `pad` : the payload a chunk travels in; `pad_chunk` : a padded chunk is a slice of the
  padded whole;
* `writeAt`, `getElem?_writeAll` : the copies, and what a list of them leaves at each offset;
* `writeAll_eq` : copies that cover the whole reassemble it, in whatever order they come
  and whatever the buffer held before;
* `take_writeAll_chunks` : copies of all the chunks do, in a buffer that may be longer.
-/
import IntroNP.Bytes

/-- The number of chunks of `D` bytes that `n` bytes need. -/
def numChunks (D n : ℕ) : ℕ := (n + D - 1) / D

/-- Chunk `i` of the data, the last one possibly shorter. -/
def chunk (D : ℕ) (data : Bytes) (i : ℕ) : Bytes := (data.drop (i * D)).take D

/-- The indices a loop `for (i = 0; i * D < n; i++)` visits. -/
def chunkIndices (D n : ℕ) : List ℕ := (List.range n).takeWhile (fun i => i * D < n)

/-- The payload of `D` bytes that starts with the given ones and is zero after them. -/
def pad (D : ℕ) (bs : Bytes) : Bytes := bs ++ List.replicate (D - bs.length) 0

section chunks

variable {D : ℕ} (hD : 0 < D)
include hD

/-- An index is below the number of chunks exactly when its offset is inside the data. -/
theorem lt_numChunks_iff (n i : ℕ) : i < numChunks D n ↔ i * D < n := by
  rw [numChunks, Nat.lt_iff_add_one_le, Nat.le_div_iff_mul_le hD, Nat.add_mul]
  omega

/-- The number of chunks is never more than what the loop bound allows. -/
theorem numChunks_le (n : ℕ) : numChunks D n ≤ n := by
  by_contra hlt
  have h := (lt_numChunks_iff hD n n).mp (by omega)
  have hn : n ≤ n * D := Nat.le_mul_of_pos_right n hD
  omega

/-- All the chunks together are long enough. -/
theorem le_numChunks_mul (n : ℕ) : n ≤ numChunks D n * D := by
  have h := mt (lt_numChunks_iff hD n (numChunks D n)).mpr (lt_irrefl _)
  omega

/-- The chunks are exactly long enough when the length is a multiple of theirs. -/
theorem numChunks_mul_eq_iff (n : ℕ) : numChunks D n * D = n ↔ D ∣ n := by
  constructor
  · intro h
    exact ⟨numChunks D n, by rw [Nat.mul_comm]; exact h.symm⟩
  · rintro ⟨c, rfl⟩
    have hiff : ∀ i, i < numChunks D (D * c) ↔ i < c := by
      intro i
      rw [lt_numChunks_iff hD, Nat.mul_comm, Nat.mul_lt_mul_left hD]
    have heq : numChunks D (D * c) = c := by
      have hle := hiff (numChunks D (D * c))
      have hge := hiff c
      omega
    rw [heq, Nat.mul_comm]

/-- The loop visits exactly the indices below the number of chunks, in order. -/
theorem chunkIndices_eq (n : ℕ) : chunkIndices D n = List.range (numChunks D n) := by
  obtain ⟨m, hm⟩ := Nat.exists_eq_add_of_le (numChunks_le hD n)
  rw [chunkIndices]
  conv_lhs => rw [hm, List.range_add]
  have hin : ∀ i, decide (i * D < numChunks D n + m) = true ↔ i < numChunks D n := by
    intro i
    rw [decide_eq_true_eq, ← hm, lt_numChunks_iff hD]
  have hstop : ((List.range m).map (numChunks D n + ·)).takeWhile
      (fun i => i * D < numChunks D n + m) = [] := by
    cases m with
    | zero => rfl
    | succ m =>
        rw [List.range_succ_eq_map, List.map_cons, List.takeWhile_cons_of_neg]
        rw [hin]
        omega
  rw [List.takeWhile_append_of_pos (fun i hi => (hin i).mpr (List.mem_range.mp hi)), hstop,
    List.append_nil]

end chunks

/-! ## Payloads -/

theorem length_pad {D : ℕ} {bs : Bytes} (h : bs.length ≤ D) : (pad D bs).length = D := by
  rw [pad, List.length_append, List.length_replicate]
  omega

theorem length_chunk_le (D : ℕ) (data : Bytes) (i : ℕ) : (chunk D data i).length ≤ D := by
  rw [chunk, List.length_take]
  exact Nat.min_le_left _ _

/-- What a payload holds at each offset: the byte of the data, or zero after its end. -/
theorem getElem?_pad (D : ℕ) (bs : Bytes) (p : ℕ) :
    (pad D bs)[p]? = if p < bs.length then bs[p]? else if p < D then some 0 else none := by
  rw [pad]
  by_cases hp : p < bs.length
  · rw [if_pos hp, List.getElem?_append_left hp]
  · rw [if_neg hp, List.getElem?_append_right (by omega), List.getElem?_replicate]
    by_cases hD : p < D
    · rw [if_pos hD, if_pos (by omega)]
    · rw [if_neg hD, if_neg (by omega)]

/-- The payload of a chunk is a slice of the data in a buffer that reaches so far. -/
theorem pad_chunk_of_le {D M : ℕ} {data : Bytes} {i : ℕ} (hle : (i + 1) * D ≤ M) :
    pad D (chunk D data i) = ((pad M data).drop (i * D)).take D := by
  rw [Nat.add_mul, Nat.one_mul] at hle
  apply List.ext_getElem?
  intro p
  rw [getElem?_pad, chunk, List.length_take, List.length_drop, List.getElem?_take,
    List.getElem?_take, List.getElem?_drop, List.getElem?_drop, getElem?_pad]
  by_cases hp : p < D
  · rw [if_pos hp, if_pos hp, if_pos hp]
    by_cases hin : i * D + p < data.length
    · rw [if_pos hin, if_pos (by omega)]
    · rw [if_neg hin, if_neg (by omega), if_pos (by omega)]
  · rw [if_neg hp, if_neg hp, if_neg hp, if_neg (by omega)]

/-- The payload of a chunk is a slice of the padded data. -/
theorem pad_chunk {D : ℕ} {data : Bytes} {i N : ℕ} (hi : i < N) :
    pad D (chunk D data i) = ((pad (N * D) data).drop (i * D)).take D :=
  pad_chunk_of_le (Nat.mul_le_mul_right D hi)

/-! ## Copies into a buffer -/

/-- `memcpy` of `bs` to the buffer at an offset. -/
def writeAt (buf : Bytes) (w : ℕ × Bytes) : Bytes :=
  buf.take w.1 ++ w.2 ++ buf.drop (w.1 + w.2.length)

/-- All the copies of a list, the first one first. -/
def writeAll (buf : Bytes) (ws : List (ℕ × Bytes)) : Bytes := ws.foldl writeAt buf

/-- A copy agrees with the text `T` when it puts a slice of `T` where the slice stands. -/
def Agrees (T : Bytes) (w : ℕ × Bytes) : Prop :=
  w.1 + w.2.length ≤ T.length ∧ w.2 = (T.drop w.1).take w.2.length

/-- The offsets a copy writes. -/
def Covers (w : ℕ × Bytes) (p : ℕ) : Prop := w.1 ≤ p ∧ p < w.1 + w.2.length

instance (w : ℕ × Bytes) (p : ℕ) : Decidable (Covers w p) := inferInstanceAs (Decidable (_ ∧ _))

theorem length_writeAt {buf T : Bytes} {w : ℕ × Bytes} (hlen : buf.length = T.length)
    (hw : Agrees T w) : (writeAt buf w).length = T.length := by
  have := hw.1
  simp only [writeAt, List.length_append, List.length_take, List.length_drop]
  omega

/-- After one copy: the text at the offsets it covers, the old buffer elsewhere. -/
theorem getElem?_writeAt {buf T : Bytes} {w : ℕ × Bytes} (hlen : buf.length = T.length)
    (hw : Agrees T w) (p : ℕ) :
    (writeAt buf w)[p]? = if Covers w p then T[p]? else buf[p]? := by
  obtain ⟨hin, hslice⟩ := hw
  have htake : (buf.take w.1).length = w.1 := by rw [List.length_take]; omega
  rw [writeAt, List.append_assoc]
  by_cases hlow : p < w.1
  · rw [if_neg (fun h => by have := h.1; omega), List.getElem?_append_left (by omega),
      List.getElem?_take, if_pos hlow]
  rw [List.getElem?_append_right (by omega), htake]
  by_cases hhigh : p < w.1 + w.2.length
  · rw [if_pos ⟨by omega, hhigh⟩, List.getElem?_append_left (by omega), hslice,
      List.getElem?_take, if_pos (by omega), List.getElem?_drop, Nat.add_sub_cancel' (by omega)]
  · rw [if_neg (fun h => hhigh h.2), List.getElem?_append_right (by omega), List.getElem?_drop]
    congr 1
    omega

/-- After a list of copies that all agree with the text: the text at every offset one of them
covers, the old buffer elsewhere. -/
theorem getElem?_writeAll {buf T : Bytes} {ws : List (ℕ × Bytes)} (hlen : buf.length = T.length)
    (hws : ∀ w ∈ ws, Agrees T w) (p : ℕ) :
    (writeAll buf ws)[p]? = if ∃ w ∈ ws, Covers w p then T[p]? else buf[p]? := by
  induction ws generalizing buf with
  | nil => simp [writeAll]
  | cons w ws ih =>
      have hw := hws w List.mem_cons_self
      have hrest := fun v hv => hws v (List.mem_cons_of_mem _ hv)
      have hfold : writeAll buf (w :: ws) = writeAll (writeAt buf w) ws := rfl
      rw [hfold, ih (length_writeAt hlen hw) hrest, getElem?_writeAt hlen hw]
      simp only [List.mem_cons, exists_eq_or_imp]
      by_cases hws' : ∃ v ∈ ws, Covers v p <;> by_cases hwp : Covers w p <;> simp [hws', hwp]

/-- Copies that agree with the text and cover it reassemble it. -/
theorem writeAll_eq {buf T : Bytes} {ws : List (ℕ × Bytes)} (hlen : buf.length = T.length)
    (hws : ∀ w ∈ ws, Agrees T w) (hcover : ∀ p < T.length, ∃ w ∈ ws, Covers w p) :
    writeAll buf ws = T := by
  apply List.ext_getElem?
  intro p
  rw [getElem?_writeAll hlen hws]
  by_cases hp : p < T.length
  · rw [if_pos (hcover p hp)]
  · rw [List.getElem?_eq_none (by omega : buf.length ≤ p),
      List.getElem?_eq_none (by omega : T.length ≤ p), ite_self]

/-- The copy of a chunk agrees with the data in a buffer that has room for all of them. -/
theorem agrees_chunk {D M i : ℕ} {data : Bytes} (hi : i < numChunks D data.length)
    (hM : numChunks D data.length * D ≤ M) (hlen : data.length ≤ M) :
    Agrees (pad M data) (i * D, pad D (chunk D data i)) := by
  have hmul : (i + 1) * D ≤ M := le_trans (Nat.mul_le_mul_right D hi) hM
  have hslice : pad D (chunk D data i) = ((pad M data).drop (i * D)).take D :=
    pad_chunk_of_le hmul
  have hpad : (pad D (chunk D data i)).length = D := length_pad (length_chunk_le D data i)
  rw [Nat.add_mul, Nat.one_mul] at hmul
  constructor
  · rw [length_pad hlen, hpad]
    exact hmul
  · rw [hpad]
    exact hslice

/-- Copies of all the chunks reassemble the data, in whatever order they come and however far the
buffer reaches behind them. -/
theorem take_writeAll_chunks {D : ℕ} (hD : 0 < D) {data buf : Bytes} {ws : List (ℕ × Bytes)}
    (hbuf : numChunks D data.length * D ≤ buf.length)
    (hws : ∀ w, w ∈ ws ↔ ∃ i < numChunks D data.length, w = (i * D, pad D (chunk D data i))) :
    (writeAll buf ws).take data.length = data := by
  have hlen : data.length ≤ buf.length := le_trans (le_numChunks_mul hD data.length) hbuf
  have hpadded : buf.length = (pad buf.length data).length := (length_pad hlen).symm
  have hagrees : ∀ w ∈ ws, Agrees (pad buf.length data) w := by
    intro w hw
    obtain ⟨i, hi, rfl⟩ := (hws w).mp hw
    exact agrees_chunk hi hbuf hlen
  apply List.ext_getElem?
  intro p
  rw [List.getElem?_take]
  by_cases hp : p < data.length
  · have hdiv := Nat.div_add_mod p D
    have hmod := Nat.mod_lt p hD
    rw [Nat.mul_comm] at hdiv
    -- the chunk that the offset stands in
    have hi : p / D < numChunks D data.length := by
      rw [lt_numChunks_iff hD]
      omega
    have hcovered : ∃ w ∈ ws, Covers w p := by
      refine ⟨_, (hws _).mpr ⟨p / D, hi, rfl⟩, ?_, ?_⟩
      · show p / D * D ≤ p
        omega
      · show p < p / D * D + (pad D (chunk D data (p / D))).length
        rw [length_pad (length_chunk_le D data _)]
        omega
    rw [if_pos hp, getElem?_writeAll hpadded hagrees, if_pos hcovered, getElem?_pad, if_pos hp]
  · rw [if_neg hp, List.getElem?_eq_none (by omega)]
