/-
# What the two file transfers rely on

Lab 8 and Lab 10 transfer a container of files in the same way: it is cut into chunks numbered
from 1, packet 0 carries the size, the server marks each number in a bit map that is one payload
long, copies the chunks into a buffer, and unpacks it.  Nothing in either program relates the
number of chunks to the bit map, the buffer to the copies, or the size as the server keeps it to
the size of the container.

* `numbers_fit_iff` : when every sequence number has a bit;
* `copies_inside_iff` : when every copy stays inside of the buffer;
* `round_trip_iff` : when the server finds the files of the client.

What the compression of Lab 8 yields is a parameter.  The system calls that read and write files
are taken to transfer all the bytes that they are asked for.
-/
import IntroNP.FileContainer
import IntroNP.RobustUdpServer
import IntroNP.BroadcastXdpRoles

/-! ## Lab 8 -/

namespace RobustUdp

/-- `orig_data`. -/
def origData (files : List Bytes) : Bytes := FileContainer.concatenate files

/-- `orig_size`, a `size_t`. -/
def origSize (files : List Bytes) : ℕ := (origData files).length % 2 ^ 64

/-- The `comp_size` bytes of `comp_data` that are cut into chunks, where `comp_size` is a
`uint32_t`; the client exits if the compression fails. -/
def compData (compress : Bytes → Option Bytes) (files : List Bytes) : Option Bytes :=
  (compress (origData files)).map fun res => res.take (res.length % 2 ^ 32)

/-- The unpacking loop of `save_to_file`, whose `orig_size` has 64 bits. -/
def saveFiles (origData : Bytes) (origSize : ℕ) : Option (List (ℕ × Bytes) × ℕ) :=
  FileContainer.unpack origData origSize 0

end RobustUdp

/-! ## Lab 10 -/

namespace BroadcastXdp

/-- The number of bytes that the server allocates for the reassembly. -/
def saveBufferSize (origSize : ℕ) : ℕ := origSize

/-- The copies of the reassembly.  No two of them overlap, so the order of the table does not
matter. -/
def saveWrites (dataMap : Table ℕ Payload) : List (ℕ × Bytes) :=
  (dataMap.entries.filter fun e => e.1 ≠ 0).map fun e => ((e.1 - 1) * dataSize, e.2.1)

/-- `orig_size` of the server, from packet 0. -/
def origSize (pkt : Pkt) : ℕ := ofLE (pkt.data.1.take 8) % 2 ^ 32

/-- The unpacking loop of the server. -/
def saveFiles (origData : Bytes) (origSize : ℕ) : Option (List (ℕ × Bytes) × ℕ) :=
  FileContainer.unpack origData origSize 0

/-- Packet 0 of the client for some files. -/
def sizePkt (files : List Bytes) : Pkt := wrap (0, zeroData (origData files).length)

/-- The two programs build the same container. -/
theorem origData_eq (files : List Bytes) : origData files = FileContainer.concatenate files := by
  have hentry : ∀ e : Bytes × ℕ, leBytes 4 e.2 ++ leBytes 4 e.1.length
      ++ e.1.take (e.1.length % 2 ^ 32) = FileContainer.entry e.1 e.2 := by
    intro e
    rw [FileContainer.entry, FileContainer.Init.bytes, FileContainer.fileSize,
      ← leBytes_mod 4 e.1.length]
    rfl
  rw [origData, FileContainer.concatenate]
  congr 1
  apply List.map_congr_left
  intro e _
  exact hentry e

/-- The size that the server takes from packet 0. -/
theorem origSize_sizePkt (files : List Bytes) :
    origSize (sizePkt files) = (origData files).length % 2 ^ 32 := by
  rw [origSize, sizePkt, take_wrap_zeroData, ofLE_leBytes]
  exact Nat.mod_mod_of_dvd _ ⟨2 ^ 32, by norm_num⟩

end BroadcastXdp

namespace FileTransfers

open FileContainer

/-! ## The bit map -/

/-- The numbers of a transfer of `n` bytes in chunks of `D` bytes: 0, and one for each chunk. -/
def sequenceNumbers (D n : ℕ) : List ℕ := 0 :: (chunkIndices D n).map (· + 1)

/-- The numbers are those up to the number of chunks. -/
theorem mem_sequenceNumbers {D : ℕ} (hD : 0 < D) {n k : ℕ} :
    k ∈ sequenceNumbers D n ↔ k ≤ numChunks D n := by
  rw [sequenceNumbers, chunkIndices_eq hD, List.mem_cons, List.mem_map]
  simp only [List.mem_range]
  constructor
  · rintro (rfl | ⟨i, hi, rfl⟩) <;> omega
  · intro hk
    cases k with
    | zero => exact .inl rfl
    | succ k => exact .inr ⟨k, by omega, rfl⟩

/-- The numbers of a transfer address a bit map of `D` bytes exactly when the transfer is not too
long. -/
theorem sequenceNumbers_lt_iff {D : ℕ} (hD : 0 < D) (n : ℕ) :
    (∀ k ∈ sequenceNumbers D n, k < D * 8) ↔ n ≤ (D * 8 - 1) * D := by
  have hchunks : numChunks D n < D * 8 ↔ n ≤ (D * 8 - 1) * D := by
    have hiff := lt_numChunks_iff hD n (D * 8 - 1)
    omega
  rw [← hchunks]
  constructor
  · intro h
    exact h _ ((mem_sequenceNumbers hD).mpr le_rfl)
  · intro h k hk
    have hle := (mem_sequenceNumbers hD).mp hk
    omega

/-- The sequence numbers that the client of Lab 8 assigns. -/
theorem map_fst_robustUdp (data : Bytes) :
    (RobustUdp.initialMap data).map Prod.fst = sequenceNumbers RobustUdp.dataSize data.length := by
  rw [RobustUdp.initialMap, List.map_cons, List.map_map, sequenceNumbers]
  rfl

/-- The sequence numbers that the client of Lab 10 assigns. -/
theorem map_fst_broadcastXdp (data : Bytes) :
    (BroadcastXdp.initialMap data).map Prod.fst
      = sequenceNumbers BroadcastXdp.dataSize data.length := by
  rw [BroadcastXdp.initialMap, List.map_cons, List.map_map, sequenceNumbers]
  rfl

/-- Every sequence number addresses a bit of the bit map, in both labs, exactly when what is cut
into chunks is one chunk shorter than the bit map has bits: in Lab 8 what the compression yields,
in Lab 10 the container. -/
theorem numbers_fit_iff (compress : Bytes → Option Bytes) (files : List Bytes) :
    ((∀ data, RobustUdp.compData compress files = some data →
        ∀ k ∈ (RobustUdp.initialMap data).map Prod.fst, k < RobustUdp.dataSize * 8) ∧
      ∀ k ∈ (BroadcastXdp.initialMap (BroadcastXdp.origData files)).map Prod.fst,
        k < BroadcastXdp.dataSize * 8) ↔
    (∀ res, compress (concatenate files) = some res →
        res.length % 2 ^ 32 ≤ (RobustUdp.dataSize * 8 - 1) * RobustUdp.dataSize) ∧
      containerSize files ≤ (BroadcastXdp.dataSize * 8 - 1) * BroadcastXdp.dataSize := by
  have hcut : ∀ res : Bytes, (res.take (res.length % 2 ^ 32)).length = res.length % 2 ^ 32 := by
    intro res
    rw [List.length_take, Nat.min_eq_left (Nat.mod_le _ _)]
  apply and_congr
  · simp only [RobustUdp.compData, RobustUdp.origData, Option.map_eq_some_iff, map_fst_robustUdp,
      sequenceNumbers_lt_iff RobustUdp.dataSize_pos, forall_exists_index, and_imp]
    constructor
    · intro h res hres
      rw [← hcut]
      exact h _ res hres rfl
    · rintro h data res hres rfl
      rw [hcut]
      exact h res hres
  · rw [map_fst_broadcastXdp, sequenceNumbers_lt_iff BroadcastXdp.dataSize_pos,
      BroadcastXdp.origData_eq, length_concatenate]

/-- Files of the number and the size that `gen.sh` generates. -/
def generatedFiles : List Bytes := List.replicate 1000 (List.replicate 65535 0)

theorem containerSize_generatedFiles : containerSize generatedFiles = 65543000 := by
  rw [containerSize, generatedFiles, List.map_replicate, List.sum_replicate, fileSize,
    List.length_replicate]
  norm_num [sizeofInit]

/-- On the generated files, Lab 10 assigns a sequence number that has no bit. -/
theorem generatedFiles_too_large :
    ¬ ∀ k ∈ (BroadcastXdp.initialMap (BroadcastXdp.origData generatedFiles)).map Prod.fst,
      k < BroadcastXdp.dataSize * 8 := by
  rw [map_fst_broadcastXdp, sequenceNumbers_lt_iff BroadcastXdp.dataSize_pos,
    BroadcastXdp.origData_eq, length_concatenate, containerSize_generatedFiles,
    BroadcastXdp.dataSize_eq]
  omega

/-! ## The reassembly -/

/-- A copy of chunk `k` ends inside of a buffer of whole chunks, if there are that many. -/
theorem copy_le {D k N : ℕ} (hpos : 1 ≤ k) (hk : k ≤ N) : (k - 1) * D + D ≤ N * D := by
  have hmul := Nat.mul_le_mul_right D hk
  have hsucc : (k - 1 + 1) * D = (k - 1) * D + D := Nat.succ_mul _ _
  rw [Nat.sub_add_cancel hpos] at hsucc
  omega

/-- Every copy of Lab 8 stays inside of its buffer. -/
theorem robustUdp_copies_inside {size : ℕ} (hsize : 1 ≤ size) (hmax : size < 2 ^ 32)
    {dataMap : Std.TreeMap ℕ RobustUdp.Payload}
    (hkeys : ∀ k ∈ dataMap, 1 ≤ k ∧ k ≤ numChunks RobustUdp.dataSize size) :
    ∀ w ∈ RobustUdp.saveWrites dataMap, w.1 + w.2.length ≤ RobustUdp.saveBufferSize size := by
  intro w hw
  simp only [RobustUdp.saveWrites, List.mem_map, List.mem_filter] at hw
  obtain ⟨⟨k, d⟩, ⟨hget, -⟩, rfl⟩ := hw
  rw [Std.TreeMap.mem_toList_iff_getElem?_eq_some] at hget
  have hk := hkeys k (Std.TreeMap.mem_iff_isSome_getElem?.mpr (by rw [hget]; rfl))
  rw [RobustUdp.saveBufferSize_eq_numChunks hsize hmax]
  show (k - 1) * RobustUdp.dataSize + d.1.length ≤ _
  rw [d.2]
  exact copy_le hk.1 hk.2

/-- The copies of Lab 10 all stay inside of its buffer exactly when the size is a multiple of the
size of a chunk, or the last chunk is missing. -/
theorem broadcastXdp_copies_inside_iff {size : ℕ} {dataMap : Table ℕ BroadcastXdp.Payload}
    (hkeys : ∀ k ∈ dataMap, 1 ≤ k ∧ k ≤ numChunks BroadcastXdp.dataSize size) :
    (∀ w ∈ BroadcastXdp.saveWrites dataMap, w.1 + w.2.length ≤ BroadcastXdp.saveBufferSize size) ↔
      BroadcastXdp.dataSize ∣ size ∨ numChunks BroadcastXdp.dataSize size ∉ dataMap := by
  have hD := BroadcastXdp.dataSize_pos
  have hend : ∀ k, 1 ≤ k → (k - 1) * BroadcastXdp.dataSize + BroadcastXdp.dataSize
      = k * BroadcastXdp.dataSize := by
    intro k hk
    rw [← Nat.succ_mul, Nat.succ_eq_add_one, Nat.sub_add_cancel hk]
  constructor
  · intro h
    rw [or_iff_not_imp_right, not_not]
    intro hlast
    obtain ⟨d, hd⟩ := Table.mem_iff_lookup.mp hlast
    -- the copy of the last chunk ends where all whole chunks do
    have hpos := (hkeys _ hlast).1
    have hin := h ((numChunks BroadcastXdp.dataSize size - 1) * BroadcastXdp.dataSize, d.1)
      (List.mem_map.mpr ⟨⟨_, d⟩, List.mem_filter.mpr ⟨Table.mem_entries_iff.mpr hd,
        decide_eq_true (by dsimp only; omega)⟩, rfl⟩)
    simp only [d.2, hend _ hpos, BroadcastXdp.saveBufferSize] at hin
    rw [← numChunks_mul_eq_iff hD]
    exact le_antisymm hin (le_numChunks_mul hD size)
  · intro h w hw
    obtain ⟨⟨k, d⟩, hmem, rfl⟩ := List.mem_map.mp hw
    have hk : k ∈ dataMap :=
      Table.mem_of_lookup (Table.mem_entries_iff.mp (List.mem_filter.mp hmem).1)
    have hrange := hkeys k hk
    show (k - 1) * BroadcastXdp.dataSize + d.1.length ≤ size
    rw [d.2]
    cases h with
    | inl hdvd =>
        -- the last chunk is as long as the others
        rw [← (numChunks_mul_eq_iff hD size).mpr hdvd]
        exact copy_le hrange.1 hrange.2
    | inr hlast =>
        have hne : k ≠ numChunks BroadcastXdp.dataSize size := by
          rintro rfl
          exact hlast hk
        have hlt := (lt_numChunks_iff hD size k).mp (by omega)
        rw [hend k hrange.1]
        omega

/-- Every copy of the reassembly stays inside of its buffer, in both labs, exactly when the size of
Lab 10 is a multiple of the size of a chunk, or its last chunk is missing. -/
theorem copies_inside_iff {size : ℕ} (hsize : 1 ≤ size) (hmax : size < 2 ^ 32)
    {map8 : Std.TreeMap ℕ RobustUdp.Payload} {map10 : Table ℕ BroadcastXdp.Payload}
    (hkeys8 : ∀ k ∈ map8, 1 ≤ k ∧ k ≤ numChunks RobustUdp.dataSize size)
    (hkeys10 : ∀ k ∈ map10, 1 ≤ k ∧ k ≤ numChunks BroadcastXdp.dataSize size) :
    ((∀ w ∈ RobustUdp.saveWrites map8, w.1 + w.2.length ≤ RobustUdp.saveBufferSize size) ∧
      ∀ w ∈ BroadcastXdp.saveWrites map10,
        w.1 + w.2.length ≤ BroadcastXdp.saveBufferSize size) ↔
    BroadcastXdp.dataSize ∣ size ∨ numChunks BroadcastXdp.dataSize size ∉ map10 := by
  rw [broadcastXdp_copies_inside_iff hkeys10]
  constructor
  · intro h
    exact h.2
  · intro h
    exact ⟨robustUdp_copies_inside hsize hmax hkeys8, h⟩

/-- Chunk 1 alone. -/
def firstChunk8 : Std.TreeMap ℕ RobustUdp.Payload :=
  (∅ : Std.TreeMap ℕ RobustUdp.Payload).insert 1 RobustUdp.Payload.zero

/-- Chunk 1 alone. -/
def firstChunk10 : Table ℕ BroadcastXdp.Payload :=
  (∅ : Table ℕ BroadcastXdp.Payload).insert 1 BroadcastXdp.Payload.zero

theorem mem_firstChunk8 {k : ℕ} : k ∈ firstChunk8 ↔ k = 1 := by
  rw [firstChunk8, Std.TreeMap.mem_insert, Nat.compare_eq_eq]
  simp [eq_comm]

theorem mem_firstChunk10 {k : ℕ} : k ∈ firstChunk10 ↔ k = 1 := by
  rw [firstChunk10, AList.mem_insert]
  simp

theorem copies_inside_iff_first :
    ((∀ w ∈ RobustUdp.saveWrites firstChunk8, w.1 + w.2.length ≤ RobustUdp.saveBufferSize 1464) ∧
      ∀ w ∈ BroadcastXdp.saveWrites firstChunk10,
        w.1 + w.2.length ≤ BroadcastXdp.saveBufferSize 1464) ↔
    BroadcastXdp.dataSize ∣ 1464 ∨ numChunks BroadcastXdp.dataSize 1464 ∉ firstChunk10 := by
  apply copies_inside_iff (by decide) (by decide)
  · intro k hk
    rw [mem_firstChunk8.mp hk]
    decide
  · intro k hk
    rw [mem_firstChunk10.mp hk]
    decide

/-- A container of one byte: Lab 10 copies a whole chunk into its buffer of one byte. -/
theorem first_copy_outside :
    ¬ ∀ w ∈ BroadcastXdp.saveWrites firstChunk10, w.1 + w.2.length ≤ BroadcastXdp.saveBufferSize 1 := by
  rw [broadcastXdp_copies_inside_iff (by
    intro k hk
    rw [mem_firstChunk10.mp hk]
    decide), mem_firstChunk10]
  decide

/-! ## The round trip -/

/-- The server finds the files of the client and stops at its `orig_size`, in both labs, exactly
when the size of the container fits the 32 bits that Lab 10 keeps of it. -/
theorem round_trip_iff {files : List Bytes} (htotal : files.length < 2 ^ 32)
    (hfiles : ∀ file ∈ files, file.length < 2 ^ 32) :
    (RobustUdp.saveFiles (RobustUdp.origData files) (RobustUdp.origSize files)
        = some (numbered files, RobustUdp.origSize files) ∧
      BroadcastXdp.saveFiles (BroadcastXdp.origData files)
        (BroadcastXdp.origSize (BroadcastXdp.sizePkt files))
        = some (numbered files, BroadcastXdp.origSize (BroadcastXdp.sizePkt files))) ↔
    (files.map fun file => sizeofInit + file.length).sum < 2 ^ 32 := by
  have hlength := length_concatenate files
  have hsum : containerSize files = (files.map fun file => sizeofInit + file.length).sum :=
    congrArg List.sum (List.map_congr_left fun file hfile => by
      rw [fileSize, Nat.mod_eq_of_lt (hfiles file hfile)])
  have h8 : RobustUdp.origSize files = containerSize files % 2 ^ 64 := by
    rw [RobustUdp.origSize, RobustUdp.origData, hlength]
  have h10 : BroadcastXdp.origSize (BroadcastXdp.sizePkt files) = containerSize files % 2 ^ 32 := by
    rw [BroadcastXdp.origSize_sizePkt, BroadcastXdp.origData_eq, hlength]
  have hmod : ∀ m, containerSize files % m ≤ (concatenate files).length := by
    intro m
    rw [hlength]
    exact Nat.mod_le _ _
  rw [RobustUdp.saveFiles, RobustUdp.origData, BroadcastXdp.saveFiles, BroadcastXdp.origData_eq,
    h8, h10, unpack_concatenate_iff htotal hfiles (hmod _),
    unpack_concatenate_iff htotal hfiles (hmod _), ← hsum]
  omega

/-- Three files of different lengths, one of them empty. -/
def shortFiles : List Bytes := [[1, 2, 3], [], [4]]

theorem round_trip_iff_short :
    RobustUdp.saveFiles (RobustUdp.origData shortFiles) (RobustUdp.origSize shortFiles)
        = some (numbered shortFiles, RobustUdp.origSize shortFiles) ∧
      BroadcastXdp.saveFiles (BroadcastXdp.origData shortFiles)
        (BroadcastXdp.origSize (BroadcastXdp.sizePkt shortFiles))
        = some (numbered shortFiles, BroadcastXdp.origSize (BroadcastXdp.sizePkt shortFiles)) :=
  (round_trip_iff (by decide) (by decide)).mpr (by decide)

/-- A file of a third of `2 ^ 32` bytes, about. -/
def hugeFile : Bytes := List.replicate 1431655760 0

theorem length_hugeFile : hugeFile.length = 1431655760 := List.length_replicate

/-- Three files whose container has `2 ^ 32 + 8` bytes. -/
def hugeFiles : List Bytes := [hugeFile, hugeFile, hugeFile]

/-- Lab 10 does not find the huge files: it keeps 8 as the size of their container. -/
theorem hugeFiles_lost :
    ¬ BroadcastXdp.saveFiles (BroadcastXdp.origData hugeFiles)
      (BroadcastXdp.origSize (BroadcastXdp.sizePkt hugeFiles))
      = some (numbered hugeFiles, BroadcastXdp.origSize (BroadcastXdp.sizePkt hugeFiles)) := by
  have hsize : containerSize hugeFiles = 2 ^ 32 + 8 := by
    simp [containerSize, hugeFiles, fileSize, length_hugeFile, sizeofInit]
  have hfiles : ∀ file ∈ hugeFiles, file.length < 2 ^ 32 := by
    simp [hugeFiles, length_hugeFile]
  have htotal : hugeFiles.length < 2 ^ 32 := by simp [hugeFiles]
  rw [BroadcastXdp.origSize_sizePkt, BroadcastXdp.saveFiles, BroadcastXdp.origData_eq,
    unpack_concatenate_iff htotal hfiles (Nat.mod_le _ _), length_concatenate, hsize]
  omega

end FileTransfers
