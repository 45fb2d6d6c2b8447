/-
# What the PAKO unpackers write

Both programs write the files with the right checksums, whatever the lengths of the contents and
wherever they lie.  The first one reads a content to a buffer with zeros behind it and takes the
words from there.  The second one takes the words from the image of the archive, and the bytes that
are left one after another, so that it never looks at what stands behind a content.

* `unpackEntry_eq`, `unpacker_eq` : `unpacker.c`, which cuts long names, and fails for a content
  whose size and `0x20` do not fit an `int`;
* `checkChecksum_eq`, `unpackerStruct_eq` : `unpacker-struct.c`;
* `lookup_writeAll`, `unpacked_writes` : the directory after the writes;
* `unpackers_agree_iff` : both programs, with `fits_of_contentOffset` for the archives whose contents
  do not begin in the header.
-/
import IntroNP.Pako
import IntroNP.Programs

namespace Pako

variable {archive : Bytes}

/-! ## Slices -/

theorem length_slice {s : Bytes} {o n : ℕ} (h : o + n ≤ s.length) : (slice s o n).length = n := by
  rw [slice, List.length_take, List.length_drop]
  omega

theorem slice_slice (s : Bytes) {o n o' n' : ℕ} (h : o' + n' ≤ n) :
    slice (slice s o n) o' n' = slice s (o + o') n' := by
  rw [slice, slice, slice, List.drop_take, List.take_take, List.drop_drop, Nat.min_eq_left]
  omega

theorem slice_append {s : Bytes} {o n : ℕ} (h : o + n ≤ s.length) (t : Bytes) :
    slice (s ++ t) o n = slice s o n := by
  rw [slice, slice, List.drop_append_of_le_length (by omega), List.take_append_of_le_length]
  rw [List.length_drop]
  omega

theorem int32_eq {n : ℕ} (h : n < 2 ^ 31) : int32 n = n := by
  rw [int32, Nat.mod_eq_of_lt (by omega), if_pos h]

/-! ## Archives -/

namespace WellFormed

/-- The offsets stay below the length of the archive. -/
theorem inRange (hw : WellFormed archive) : InRange archive where
  magic := hw.magic
  header := hw.header
  entries := hw.entries
  terminated := hw.terminated
  content := hw.content
  offsets := by
    intro i hi
    have hshort := hw.short
    have hentry := hw.entries i hi
    have hcontent := hw.content i hi
    have hname := List.length_pos_of_mem (hw.terminated i hi)
    rw [List.length_drop] at hname
    omega

end WellFormed

namespace InRange

variable (hr : InRange archive) {i : ℕ} (hi : i < nfiles archive)
include hr hi

theorem length_content : (entry archive i).content.length = fileSize archive i :=
  length_slice (hr.content i hi)

theorem fileSize_lt : fileSize archive i < 2 ^ 32 := by
  have hentry := hr.entries i hi
  have hlt := ofBE_lt (slice archive (entryOffset i + 4) 4)
  rwa [length_slice (by omega)] at hlt

end InRange

/-! ## unpacker.c -/

/-- A read to a buffer, from an offset on. -/
theorem readstr_at (fd : Fd) {offset bytes : ℕ} (h : bytes + 0x20 < 2 ^ 31) :
    readstr fd offset bytes = some (pad (bytes + 0x20) (slice fd.file offset bytes),
      ⟨fd.file, offset + (slice fd.file offset bytes).length⟩) := by
  have hfit : ¬ ((bytes : ℤ) < 0 ∨ 2 ^ 31 ≤ (bytes : ℤ) + 0x20) := by omega
  rw [readstr, if_neg hfit]
  simp

/-- A read to a buffer, from where the last one has ended. -/
theorem readstr_next {file : Bytes} {pos : ℕ} (bytes : ℕ) (hfit : bytes + 0x20 < 2 ^ 31)
    (h : pos + bytes ≤ file.length) :
    readstr ⟨file, pos⟩ (-1) bytes
      = some (pad (bytes + 0x20) (slice file pos bytes), ⟨file, pos + bytes⟩) := by
  have hneg : ¬ ((bytes : ℤ) < 0 ∨ 2 ^ 31 ≤ (bytes : ℤ) + 0x20) := by omega
  rw [readstr, if_neg hneg]
  simp [length_slice h]

/-- The zeros behind the four bytes do not count. -/
theorem readint_little {file : Bytes} {pos : ℕ} (h : pos + 4 ≤ file.length) :
    readint ⟨file, pos⟩ (-1) 4 true = some (ofLE (slice file pos 4), ⟨file, pos + 4⟩) := by
  have hlen := length_slice h
  -- eight bytes of the buffer are taken: the four that were read, and zeros
  have hbuf : (pad (4 + 0x20) (slice file pos 4)).take 8
      = slice file pos 4 ++ List.replicate 4 0 := by
    rw [pad, hlen, List.take_append, List.take_of_length_le (by omega), hlen, List.take_replicate]
    rfl
  have hread : readstr ⟨file, pos⟩ (-1) 4 = _ := readstr_next 4 (by omega) h
  rw [readint, if_pos (Or.inl rfl), hread, Option.map_some, if_pos rfl, hbuf, ofLE_append_zeros]

theorem readint_big {file : Bytes} {pos : ℕ} (bytes : ℕ) (hbytes : bytes = 4 ∨ bytes = 8)
    (h : pos + bytes ≤ file.length) :
    readint ⟨file, pos⟩ (-1) bytes false
      = some (ofBE (slice file pos bytes), ⟨file, pos + bytes⟩) := by
  have hlen := length_slice h
  have hbuf : (pad (bytes + 0x20) (slice file pos bytes)).take bytes = slice file pos bytes := by
    rw [pad, List.take_append_of_le_length (by omega), List.take_of_length_le (by omega)]
  have hlt : ofBE (slice file pos bytes) < 2 ^ 64 := by
    have hdigits := ofBE_lt (slice file pos bytes)
    rw [hlen] at hdigits
    rcases hbytes with rfl | rfl <;> omega
  rw [readint, if_pos (by omega), readstr_next bytes (by omega) h, Option.map_some,
    if_neg Bool.false_ne_true, Int.toNat_natCast, hbuf, foldl_ofBE, Nat.mod_eq_of_lt hlt]

/-- `bytes + 0x20` overflows, or `bytes` is negative. -/
theorem readstr_eq_none (fd : Fd) (offset : ℤ) {n : ℕ} (hn : n < 2 ^ 32)
    (hlong : ¬ n + 0x20 < 2 ^ 31) : readstr fd offset (int32 n) = none := by
  have hover : int32 n < 0 ∨ 2 ^ 31 ≤ int32 n + 0x20 := by
    rw [int32, Nat.mod_eq_of_lt hn]
    split_ifs <;> omega
  rw [readstr, if_pos hover]

/-- What is read of a name: `MAX_SIZE` bytes of it. -/
def cutName (name : Bytes) : Bytes := name.take 1024

theorem cutName_eq_self {name : Bytes} (h : name.length ≤ 1024) : cutName name = name :=
  List.take_of_length_le h

/-- What `unpacker.c` writes for a packed file. -/
def Entry.cutWrites (e : Entry) : List (Bytes × Bytes) :=
  if e.Checked then [(cutName e.name, e.content)] else []

/-- The buffer for a name is larger than what is read, so that a cut name ends in it. -/
theorem cstr_readName (s : Bytes) (o : ℕ) :
    cstr (pad (1024 + 0x20) (slice s o 1024)) = cutName (cstr (s.drop o)) := by
  have hlen : (slice s o 1024).length ≤ 1024 := List.length_take_le 1024 _
  exact cstr_take_zeros (s.drop o) 1024 (by omega)

/-- The words that are read from the buffer of a content are its segments. -/
theorem xorLoop_eq (content : Bytes) :
    xorLoop (pad (content.length + 0x20) content) content.length = xorSegments 8 content := by
  -- the last word goes over the end of the content into the zeros of the buffer
  have hword : ∀ j ∈ chunkIndices 8 content.length,
      ofLE (((pad (content.length + 0x20) content).drop (j * 8)).take 8) = word 8 content j := by
    intro j hj
    rw [chunkIndices_eq (by omega), List.mem_range, lt_numChunks_iff (by omega)] at hj
    rw [word, pad_chunk_of_le (M := content.length + 0x20) (by omega)]
  rw [xorLoop, xorSegments]
  exact List.foldl_ext _ _ _ fun x j hj => by rw [hword j hj]

section

variable (hr : InRange archive) {i : ℕ} (hi : i < nfiles archive)
include hr hi

/-- One turn of the loop, up to the read of the content. -/
theorem unpackEntry_fields (pos : ℕ) :
    ∃ fd : Fd, fd.file = archive ∧
      unpackEntry (strSec archive) (contSec archive) ⟨archive, pos⟩ i
        = (readstr fd (contentOffset archive i) (int32 (fileSize archive i))).map fun r =>
            (if xorLoop r.1 (fileSize archive i) = (entry archive i).checksum
              then [(cutName (entry archive i).name, r.1.take (fileSize archive i))] else [],
              r.2) := by
  have hentry : 16 + i * 20 + 20 ≤ archive.length := hr.entries i hi
  obtain ⟨hturn, hname, hcontent⟩ := hr.offsets i hi
  rw [entryOffset] at hturn
  -- the four numbers of the entry, one behind the other
  have hfn : readint ⟨archive, 16 + i * 20⟩ (-1) 4 true = _ := readint_little (by omega)
  have hsize : readint ⟨archive, 16 + i * 20 + 4⟩ (-1) 4 false = _ :=
    readint_big 4 (Or.inl rfl) (by omega)
  have hcont : readint ⟨archive, 16 + i * 20 + 4 + 4⟩ (-1) 4 true = _ :=
    readint_little (by omega)
  have hsum : readint ⟨archive, 16 + i * 20 + 4 + 4 + 4⟩ (-1) 8 false = _ :=
    readint_big 8 (Or.inr rfl) (by omega)
  -- a seek to the name, and a read that may reach the end of the file
  have hstr : readstr ⟨archive, 16 + i * 20 + 4 + 4 + 4 + 8⟩ (int32 (nameOffset archive i)) maxSize
      = some (pad (1024 + 0x20) (slice archive (nameOffset archive i) 1024), ⟨archive,
          nameOffset archive i + (slice archive (nameOffset archive i) 1024).length⟩) := by
    rw [int32_eq hname]
    exact readstr_at _ (by omega : 1024 + 0x20 < 2 ^ 31)
  have hcstr : cstr (pad (1024 + 0x20) (slice archive (nameOffset archive i) 1024))
      = cutName (entry archive i).name := cstr_readName archive _
  refine ⟨⟨archive, nameOffset archive i + (slice archive (nameOffset archive i) 1024).length⟩,
    rfl, ?_⟩
  rw [unpackEntry, if_neg (by omega)]
  simp only [Option.bind_eq_bind]
  rw [hfn, Option.bind_some, hsize, Option.bind_some, hcont, Option.bind_some, hsum,
    Option.bind_some]
  show (readstr _ (int32 (nameOffset archive i)) maxSize).bind _ = _
  rw [hstr, Option.bind_some]
  show (readstr _ (int32 (contentOffset archive i)) (int32 (fileSize archive i))).bind _ = _
  rw [int32_eq hcontent]
  cases readstr ⟨archive, nameOffset archive i + (slice archive (nameOffset archive i) 1024).length⟩
      (contentOffset archive i) (int32 (fileSize archive i)) with
  | none => rfl
  | some r =>
      rw [Option.bind_some, Option.map_some, ← hcstr]
      rfl

/-- One turn of the loop writes the file, if its checksum is right. -/
theorem unpackEntry_eq (hfit : fileSize archive i + 0x20 < 2 ^ 31) (pos : ℕ) :
    ∃ pos', unpackEntry (strSec archive) (contSec archive) ⟨archive, pos⟩ i
      = some ((entry archive i).cutWrites, ⟨archive, pos'⟩) := by
  obtain ⟨⟨file, p⟩, rfl, hfields⟩ := unpackEntry_fields hr hi pos
  have hlen : (entry file i).content.length = fileSize file i := hr.length_content hi
  have hcontent : slice file (contentOffset file i) (fileSize file i) = (entry file i).content :=
    rfl
  have hbuf : (pad (fileSize file i + 0x20) (entry file i).content).take (fileSize file i)
      = (entry file i).content := by
    rw [pad, List.take_append_of_le_length (by omega), List.take_of_length_le (by omega)]
  have hxor : xorLoop (pad (fileSize file i + 0x20) (entry file i).content) (fileSize file i)
      = xorSegments 8 (entry file i).content := by
    rw [← hlen]
    exact xorLoop_eq _
  refine ⟨contentOffset file i + (entry file i).content.length, ?_⟩
  rw [hfields, int32_eq (by omega), readstr_at _ hfit, Option.map_some, hcontent, hbuf, hxor]
  rfl

/-- It fails when the size of the buffer does not fit an `int`. -/
theorem unpackEntry_eq_none (hlong : ¬ fileSize archive i + 0x20 < 2 ^ 31) (pos : ℕ) :
    unpackEntry (strSec archive) (contSec archive) ⟨archive, pos⟩ i = none := by
  obtain ⟨fd, -, hfields⟩ := unpackEntry_fields hr hi pos
  rw [hfields, readstr_eq_none fd _ (hr.fileSize_lt hi) hlong, Option.map_none]

end

/-- The loop writes one file after another, and fails if one of them is too long. -/
theorem unpackEntries_eq (hr : InRange archive) {is : List ℕ}
    (his : ∀ i ∈ is, i < nfiles archive) (pos : ℕ) :
    unpackEntries (strSec archive) (contSec archive) ⟨archive, pos⟩ is
      = if ∀ i ∈ is, fileSize archive i + 0x20 < 2 ^ 31
        then some (is.flatMap fun i => (entry archive i).cutWrites) else none := by
  induction is generalizing pos with
  | nil => simp [unpackEntries]
  | cons i is ih =>
      have hi := his i List.mem_cons_self
      have hrest := ih fun j hj => his j (List.mem_cons_of_mem i hj)
      have hcons : (∀ j ∈ i :: is, fileSize archive j + 0x20 < 2 ^ 31)
          ↔ fileSize archive i + 0x20 < 2 ^ 31 ∧ ∀ j ∈ is, fileSize archive j + 0x20 < 2 ^ 31 :=
        List.forall_mem_cons
      -- where the turn leaves the file open does not matter: the next one begins with a seek
      rw [unpackEntries]
      by_cases hfit : fileSize archive i + 0x20 < 2 ^ 31
      · obtain ⟨pos', hstep⟩ := unpackEntry_eq hr hi hfit pos
        simp only [Option.bind_eq_bind]
        rw [hstep, Option.bind_some, hrest]
        by_cases hall : ∀ j ∈ is, fileSize archive j + 0x20 < 2 ^ 31
        · rw [if_pos hall, if_pos (hcons.mpr ⟨hfit, hall⟩)]
          rfl
        · rw [if_neg hall, if_neg fun h => hall (hcons.mp h).2]
          rfl
      · rw [unpackEntry_eq_none hr hi hfit, if_neg fun h => hfit (hcons.mp h).1]
        rfl

/-- The three numbers of the header. -/
theorem readint_header (hr : InRange archive) :
    readint ⟨archive, 4⟩ (-1) 4 true = some (strSec archive, ⟨archive, 8⟩)
      ∧ readint ⟨archive, 8⟩ (-1) 4 true = some (contSec archive, ⟨archive, 12⟩)
      ∧ readint ⟨archive, 12⟩ (-1) 4 true = some (nfiles archive, ⟨archive, 16⟩) := by
  have hheader := hr.header
  exact ⟨readint_little (by omega), readint_little (by omega), readint_little (by omega)⟩

/-- `unpacker.c` writes the files with the right checksums, and fails if one is too long. -/
theorem unpacker_eq (hr : InRange archive) :
    unpacker archive = if ∀ e ∈ entries archive, e.content.length + 0x20 < 2 ^ 31
      then some ((entries archive).flatMap Entry.cutWrites) else none := by
  obtain ⟨hstr, hcont, hnum⟩ := readint_header hr
  have hfit : (∀ e ∈ entries archive, e.content.length + 0x20 < 2 ^ 31)
      ↔ ∀ i ∈ List.range (nfiles archive), fileSize archive i + 0x20 < 2 ^ 31 := by
    rw [entries, List.forall_mem_map]
    refine forall₂_congr fun i hi => ?_
    rw [hr.length_content (List.mem_range.mp hi)]
  rw [unpacker]
  simp only [Option.bind_eq_bind]
  rw [hstr, Option.bind_some, hcont, Option.bind_some, hnum, Option.bind_some]
  rw [unpackEntries_eq hr fun i hi => List.mem_range.mp hi, entries, List.flatMap_map]
  exact if_congr hfit.symm rfl rfl

/-! ## unpacker-struct.c -/

theorem load_image {addr n : ℕ} (h : addr + n ≤ archive.length) :
    load (image archive) addr n = some (slice archive addr n) := by
  have hin : 0 ≤ (addr : ℤ) ∧ (addr : ℤ) + n ≤ (image archive).length := by
    rw [image, pad, List.length_append]
    omega
  rw [load, if_pos hin, Int.toNat_natCast, image, pad, slice_append h]

theorem cstring_image {addr : ℕ} (h : 0 ∈ archive.drop addr) :
    cstring (image archive) addr = some (cstr (archive.drop addr)) := by
  have hlt := List.length_pos_of_mem h
  rw [List.length_drop] at hlt
  have hdrop : (image archive).drop addr = archive.drop addr
      ++ List.replicate (alignBytes archive.length - archive.length) 0 := by
    rw [image, pad, List.drop_append_of_le_length (by omega)]
  have hin : 0 ≤ (addr : ℤ) ∧ 0 ∈ (image archive).drop (addr : ℤ).toNat := by
    rw [Int.toNat_natCast, hdrop]
    exact ⟨by omega, List.mem_append_left _ h⟩
  rw [cstring, if_pos hin, Int.toNat_natCast, hdrop, cstr_append h]

/-- The bytes of a number in the other order. -/
theorem bswap_ofLE {w : ℕ} {s : Bytes} (h : s.length = w) : bswap w (ofLE s) = ofBE s := by
  rw [bswap, ← h, leBytes_ofLE]

theorem v64_ofV64 {n : ℕ} (h : n < 256 ^ 8) : (CheckSum.ofV64 n).v64 = n := by
  rw [CheckSum.v64, CheckSum.ofV64, ofLE_leBytes, Nat.mod_eq_of_lt h]

theorem v64_lt (c : CheckSum) : c.v64 < 256 ^ 8 := by
  have hlt := ofLE_lt c.v8
  rwa [c.size] at hlt

/-- The header of the image. -/
theorem readHeader_eq (hr : InRange archive) : readHeader (image archive)
    = some ⟨MAGIC, int32 (strSec archive), int32 (contSec archive), nfiles archive⟩ := by
  have hheader := hr.header
  have hmagic : (slice archive 0 16).take 4 = ascii "PAKO" := by
    rw [← hr.magic]
    exact slice_slice archive (by omega : 0 + 4 ≤ 16)
  have hload : load (image archive) 0 16 = _ := load_image (by omega : 0 + 16 ≤ archive.length)
  rw [readHeader, hload, Option.map_some, hmagic, slice_slice _ (by omega),
    slice_slice _ (by omega), slice_slice _ (by omega)]
  rfl

/-- The structure of an entry. -/
def fileOf (archive : Bytes) (i : ℕ) : File where
  fileMeta := ⟨ofLE (slice archive (entryOffset i) 4), fileSize archive i,
    ofLE (slice archive (entryOffset i + 8) 4), .ofV64 (entry archive i).checksum⟩
  filename := nameOffset archive i
  content := contentOffset archive i

/-- The first loop fills the structure of the entry. -/
theorem readFile_eq (hr : InRange archive) {i : ℕ} (hi : i < nfiles archive) :
    readFile (image archive) ⟨MAGIC, int32 (strSec archive), int32 (contSec archive),
      nfiles archive⟩ i = some (fileOf archive i) := by
  have hentry : 16 + i * 20 + 20 ≤ archive.length := hr.entries i hi
  have hname : strSec archive + ofLE (slice archive (16 + i * 20) 4) < 2 ^ 31 :=
    (hr.offsets i hi).2.1
  have hcontent : contSec archive + ofLE (slice archive (16 + i * 20 + 8) 4) < 2 ^ 31 :=
    (hr.offsets i hi).2.2
  have hsize : (slice archive (16 + i * 20 + 4) 4).length = 4 := length_slice (by omega)
  have hsum : (slice archive (16 + i * 20 + 12) 8).length = 8 := length_slice (by omega)
  have hfn : (slice archive (16 + i * 20) 20).take 4 = slice archive (16 + i * 20) 4 :=
    slice_slice archive (by omega : 0 + 4 ≤ 20)
  -- the size and the checksum are the big-endian fields
  have hmeta : readMeta (image archive) i = some (fileOf archive i).fileMeta := by
    rw [readMeta, load_image hentry, Option.map_some, hfn, slice_slice _ (by omega),
      slice_slice _ (by omega), slice_slice _ (by omega), int32_eq (by omega),
      int32_eq (by omega), bswap_ofLE hsize, bswap_ofLE hsum]
    rfl
  have hfilename : (strSec archive : ℤ) + (fileOf archive i).fileMeta.offFile
      = nameOffset archive i := (Nat.cast_add _ _).symm
  have hdata : (contSec archive : ℤ) + (fileOf archive i).fileMeta.offData
      = contentOffset archive i := (Nat.cast_add _ _).symm
  rw [readFile, int32_eq (by omega), int32_eq (by omega), hmeta, Option.bind_eq_bind,
    Option.bind_some, hfilename, hdata]
  show (cstring (image archive) (nameOffset archive i)).bind _ = _
  rw [cstring_image (hr.terminated i hi)]
  rfl

/-! ### The checksum -/

/-- A string stands in memory at an address. -/
def Holds (mem : Bytes) (addr : ℤ) (content : Bytes) : Prop :=
  ∀ o n : ℕ, o + n ≤ content.length → load mem (addr + o) n = some (slice content o n)

section

variable {mem content : Bytes} {addr : ℤ} (h : Holds mem addr content)
include h

/-- The first loop: after `k` words, `xor` is that of the first `k` segments. -/
theorem xorWords_eq {k : ℕ} (hk : k ≤ content.length / 8) {xor : CheckSum}
    (hxor : xor.v64 = (List.range k).foldl (fun x i => x ^^^ word 8 content i) 0) :
    ∃ xor', xorWords mem addr content.length (k * 8) xor = some (xor', content.length / 8 * 8)
      ∧ xor'.v64
        = (List.range (content.length / 8)).foldl (fun x i => x ^^^ word 8 content i) 0 := by
  induction hleft : content.length / 8 - k generalizing k xor with
  | zero =>
      have hend : k = content.length / 8 := by omega
      rw [xorWords, if_neg (by omega)]
      rw [hend] at hxor ⊢
      exact ⟨xor, rfl, hxor⟩
  | succ m ih =>
      have hload : load mem (addr + (k * 8 : ℕ)) 8 = some (slice content (k * 8) 8) :=
        h (k * 8) 8 (by omega)
      have hword : ofLE (slice content (k * 8) 8) = word 8 content k :=
        (word_eq (by omega)).symm
      have hnext : (CheckSum.ofV64 (xor.v64 ^^^ ofLE (slice content (k * 8) 8))).v64
          = (List.range (k + 1)).foldl (fun x i => x ^^^ word 8 content i) 0 := by
        have hlt : xor.v64 ^^^ ofLE (slice content (k * 8) 8) < 2 ^ 64 := by
          have hseg := ofLE_lt (slice content (k * 8) 8)
          rw [length_slice (by omega)] at hseg
          exact Nat.xor_lt_two_pow (v64_lt xor) hseg
        rw [v64_ofV64 hlt, hxor, hword, List.range_succ, List.foldl_append, List.foldl_cons,
          List.foldl_nil]
      rw [xorWords, if_pos (by omega), Nat.mul_div_cancel k (by omega), hload, Option.bind_some,
        ← Nat.succ_mul]
      exact ih (by omega) hnext (by omega)

/-- The second loop: after `k` bytes, `xor` has those of the last segment. -/
theorem xorTail_eq {v : Bytes} (hv : v.length = 8) {k : ℕ} (hk : k ≤ content.length % 8)
    {xor : CheckSum}
    (hxor : xor.v8 = xorBytes v (pad 8 ((content.drop (content.length / 8 * 8)).take k))) :
    ∃ xor', xorTail mem addr content.length (content.length / 8 * 8 + k) xor = some xor'
      ∧ xor'.v8 = xorBytes v (pad 8 (content.drop (content.length / 8 * 8))) := by
  have hdiv := Nat.div_add_mod content.length 8
  have hmod := Nat.mod_lt content.length (show 8 > 0 by omega)
  induction hleft : content.length % 8 - k generalizing k xor with
  | zero =>
      rw [xorTail, if_neg (by omega)]
      rw [List.take_of_length_le (by rw [List.length_drop]; omega)] at hxor
      exact ⟨xor, rfl, hxor⟩
  | succ m ih =>
      have hj : (content.length / 8 * 8 + k) % 8 = k := by omega
      have hload : load mem (addr + (content.length / 8 * 8 + k : ℕ)) 1
          = some (slice content (content.length / 8 * 8 + k) 1) :=
        h _ 1 (by omega)
      obtain ⟨b, hb⟩ : ∃ b, content[content.length / 8 * 8 + k]? = some b :=
        ⟨_, List.getElem?_eq_getElem (by omega)⟩
      have hslice : slice content (content.length / 8 * 8 + k) 1 = [b] := by
        rw [slice, List.take_one, List.head?_drop, hb]
        rfl
      rw [xorTail, if_pos (by omega), hj, show (content.length / 8 * 8 + k) / 8 * 8 + k
        = content.length / 8 * 8 + k by omega, hload, Option.bind_some, hslice]
      apply ih (k := k + 1) (by omega) _ (by omega)
      show xor.v8.modify k _ = _
      rw [hxor, xorBytes_pad_succ hv (by omega) (by rw [List.getElem?_drop, hb])]
      rfl

/-- Both loops together compute the xor of the segments. -/
theorem checkChecksum_eq {f : File} (haddr : f.content = addr)
    (hsize : f.fileMeta.filesize = content.length) :
    checkChecksum mem f = some (decide (xorSegments 8 content = f.fileMeta.checksum.v64)) := by
  have hmod := Nat.mod_lt content.length (show 8 > 0 by omega)
  obtain ⟨xor, hwords, hxor⟩ := xorWords_eq h (Nat.zero_le _)
    (show (CheckSum.ofV64 0).v64 = _ from v64_ofV64 (by omega))
  obtain ⟨xor', htail, hxor'⟩ := xorTail_eq h xor.size (Nat.zero_le _)
    (show xor.v8 = _ by rw [List.take_zero, ← xor.size, xorBytes_zero])
  have hv64 : xor'.v64 = xorSegments 8 content := by
    have hlen : (pad 8 (content.drop (content.length / 8 * 8))).length = 8 := by
      apply length_pad
      rw [List.length_drop]
      omega
    rw [CheckSum.v64, hxor', ofLE_xorBytes (by rw [xor.size, hlen]), ← CheckSum.v64, hxor,
      xorSegments_eq (by omega)]
  rw [Nat.zero_mul] at hwords
  rw [checkChecksum, haddr, hsize, Option.bind_eq_bind, hwords, Option.bind_some]
  show (xorTail mem addr content.length (content.length / 8 * 8 + 0) xor).bind _ = _
  rw [htail, Option.bind_some, hv64]
  rfl

end

/-- The content of an entry stands in the image. -/
theorem holds_image (hr : InRange archive) {i : ℕ} (hi : i < nfiles archive) :
    Holds (image archive) (contentOffset archive i) (entry archive i).content := by
  intro o n ho
  have hlen := hr.length_content hi
  have hcontent := hr.content i hi
  rw [← Nat.cast_add, load_image (by omega)]
  exact congrArg some (slice_slice archive (by omega)).symm

/-- One turn of the second loop writes the file, if its checksum is right. -/
theorem unpackFile_eq (hr : InRange archive) {i : ℕ} (hi : i < nfiles archive) :
    unpackFile (image archive) (fileOf archive i) = some (entry archive i).writes := by
  have hlen := hr.length_content hi
  have hsum : (fileOf archive i).fileMeta.checksum.v64 = (entry archive i).checksum := by
    apply v64_ofV64
    have hlt := ofBE_lt (slice archive (entryOffset i + 12) 8)
    rwa [length_slice] at hlt
    have hentry := hr.entries i hi
    omega
  have hname : cstring (image archive) (fileOf archive i).filename
      = some (entry archive i).name := cstring_image (hr.terminated i hi)
  have hcontent : load (image archive) (fileOf archive i).content
      (fileOf archive i).fileMeta.filesize = some (entry archive i).content :=
    load_image (hr.content i hi)
  rw [unpackFile, Option.bind_eq_bind, checkChecksum_eq (holds_image hr hi) rfl hlen.symm, hsum,
    Option.bind_some, hname, hcontent, Entry.writes]
  by_cases hchecked : (entry archive i).Checked
  · rw [if_pos hchecked, if_pos (decide_eq_true (show _ = _ from hchecked))]
    rfl
  · rw [if_neg hchecked, if_neg (mt of_decide_eq_true (show ¬ _ = _ from hchecked))]
    rfl

/-- `unpacker-struct.c` writes the files with the right checksums. -/
theorem unpackerStruct_eq (hr : InRange archive) :
    unpackerStruct archive = some ((entries archive).flatMap Entry.writes) := by
  have hfiles : (List.range (nfiles archive)).mapM (readFile (image archive)
      ⟨MAGIC, int32 (strSec archive), int32 (contSec archive), nfiles archive⟩)
        = some ((List.range (nfiles archive)).map (fileOf archive)) :=
    mapM_eq_some fun i hi => readFile_eq hr (List.mem_range.mp hi)
  have hws : ((List.range (nfiles archive)).map (fileOf archive)).mapM (unpackFile (image archive))
      = some ((List.range (nfiles archive)).map fun i => (entry archive i).writes) := by
    rw [List.mapM_map]
    exact mapM_eq_some fun i hi => unpackFile_eq hr (List.mem_range.mp hi)
  rw [unpackerStruct]
  simp only [Option.bind_eq_bind]
  rw [readHeader_eq hr, Option.bind_some, if_neg (not_not_intro rfl), hfiles, Option.bind_some,
    hws, Option.bind_some, entries, List.flatMap_map]
  rfl

/-! ## The directory -/

/-- What a directory has under a name after writes to different names. -/
theorem lookup_writeAll {ws : List (Bytes × Bytes)} (hdistinct : (ws.map Prod.fst).Nodup)
    {d : Directory} (hnew : ∀ w ∈ ws, d.lookup w.1 = none) (name content : Bytes) :
    (d.writeAll ws).lookup name = some content
      ↔ (name, content) ∈ ws ∨ d.lookup name = some content := by
  induction ws generalizing d with
  | nil => simp [Directory.writeAll]
  | cons w ws ih =>
      rw [List.map_cons, List.nodup_cons] at hdistinct
      have hwrite : d.write w = d.insert w.1 w.2 := by
        rw [Directory.write, hnew w List.mem_cons_self, Option.getD_none, List.drop_nil,
          List.append_nil]
      have hne : ∀ v ∈ ws, v.1 ≠ w.1 := by
        intro v hv heq
        exact hdistinct.1 (heq ▸ List.mem_map_of_mem hv)
      have hrest : ∀ v ∈ ws, (d.insert w.1 w.2).lookup v.1 = none := by
        intro v hv
        rw [AList.lookup_insert_ne (hne v hv)]
        exact hnew v (List.mem_cons_of_mem w hv)
      rw [Directory.writeAll, List.foldl_cons, hwrite]
      show (Directory.writeAll (d.insert w.1 w.2) ws).lookup name = _ ↔ _
      rw [ih hdistinct.2 hrest, List.mem_cons]
      by_cases hname : name = w.1
      · subst hname
        rw [AList.lookup_insert, hnew w List.mem_cons_self, Prod.ext_iff]
        simp [eq_comm, or_comm]
      · have hw : (name, content) ≠ w := by
          rintro rfl
          exact hname rfl
        rw [AList.lookup_insert_ne hname, or_iff_right_of_imp fun h => absurd h hw]

/-- The names of the files that are written are different. -/
theorem nodup_names (hw : WellFormed archive) :
    (((entries archive).flatMap Entry.writes).map Prod.fst).Nodup := by
  have hnames : ((entries archive).map Entry.name).Nodup := by
    rw [entries, List.map_map]
    refine List.Nodup.map_on (fun i hi j hj h => ?_) List.nodup_range
    exact hw.distinct i (List.mem_range.mp hi) j (List.mem_range.mp hj) h
  have hsub : ((entries archive).flatMap Entry.writes).map Prod.fst
      = ((entries archive).filter fun e => e.Checked).map Entry.name := by
    induction entries archive with
    | nil => rfl
    | cons e es ih =>
        rw [List.flatMap_cons, List.map_append, ih]
        by_cases he : e.Checked <;> simp [Entry.writes, he]
  rw [hsub]
  exact hnames.sublist ((List.filter_sublist).map Entry.name)

/-- The directory after all the writes. -/
theorem unpacked_writes (hw : WellFormed archive) :
    Unpacked archive (extract ((entries archive).flatMap Entry.writes)) := by
  intro name content
  rw [extract, lookup_writeAll (nodup_names hw) (fun _ _ => AList.lookup_empty _),
    AList.lookup_empty, List.mem_flatMap]
  have hmem : ∀ e : Entry, (name, content) ∈ e.writes
      ↔ e.Checked ∧ e.name = name ∧ e.content = content := by
    intro e
    by_cases he : e.Checked <;> simp [Entry.writes, he, eq_comm]
  simp [hmem]

/-! ## Both programs -/

/-- The names of a well-formed archive are short enough not to be cut. -/
theorem unpacker_wellFormed (hw : WellFormed archive) :
    unpacker archive = if ∀ e ∈ entries archive, e.content.length + 0x20 < 2 ^ 31
      then some ((entries archive).flatMap Entry.writes) else none := by
  have hwrites : (entries archive).flatMap Entry.cutWrites
      = (entries archive).flatMap Entry.writes := by
    apply List.flatMap_congr
    rw [entries, List.forall_mem_map]
    intro i hi
    have hplain := (hw.plain i (List.mem_range.mp hi)).2.1
    rw [Entry.cutWrites, cutName_eq_self (by omega), Entry.writes]
  rw [unpacker_eq hw.inRange, hwrites]

/-- A content that begins behind the header is never too long. -/
theorem fits_of_contentOffset (hw : WellFormed archive)
    (h : ∀ i < nfiles archive, 0x20 ≤ contentOffset archive i) :
    ∀ e ∈ entries archive, e.content.length + 0x20 < 2 ^ 31 := by
  rw [entries, List.forall_mem_map]
  intro i hi
  have hi := List.mem_range.mp hi
  have hoff := h i hi
  have hcontent := hw.content i hi
  have hshort := hw.short
  rw [hw.inRange.length_content hi]
  omega

/-- Both programs unpack the entries with the right checksums, unless a content is so long that
the size of its buffer in `unpacker.c` does not fit an `int`. -/
theorem unpackers_agree_iff (hw : WellFormed archive) :
    (∃ ws ws', unpacker archive = some ws ∧ unpackerStruct archive = some ws'
      ∧ (∀ name, (extract ws).lookup name = (extract ws').lookup name)
      ∧ Unpacked archive (extract ws) ∧ Unpacked archive (extract ws'))
    ↔ ∀ e ∈ entries archive, e.content.length + 0x20 < 2 ^ 31 := by
  rw [unpacker_wellFormed hw, unpackerStruct_eq hw.inRange]
  by_cases hfit : ∀ e ∈ entries archive, e.content.length + 0x20 < 2 ^ 31
  · rw [if_pos hfit]
    exact iff_of_true ⟨_, _, rfl, rfl, fun _ => rfl, unpacked_writes hw, unpacked_writes hw⟩ hfit
  · rw [if_neg hfit]
    refine iff_of_false ?_ hfit
    rintro ⟨ws, ws', hnone, -⟩
    exact Option.some_ne_none ws hnone.symm

/-- An archive with one file, `f2`, whose size is not a multiple of 8. -/
def f2 : Bytes :=
  [0x50, 0x41, 0x4B, 0x4F, 36, 0, 0, 0, 39, 0, 0, 0, 1, 0, 0, 0,
   0, 0, 0, 0, 0, 0, 0, 28, 0, 0, 0, 0, 0x23, 0x2c, 0x7d, 0x73, 0x0f, 0x07, 0x0a, 0x44,
   0x66, 0x32, 0,
   0x66, 0x32, 0x0a, 0x0a, 0x66, 0x32, 0x63, 0x6f, 0x6e, 0x74, 0x65, 0x6e, 0x74, 0x2e, 0x2e, 0x2e,
   0x2e, 0x2e, 0x0a, 0x61, 0x61, 0x61, 0x61, 0x62, 0x62, 0x62, 0x62, 0x0a]

theorem wellFormed_f2 : WellFormed f2 where
  magic := by decide
  short := by decide
  header := by decide
  entries := by decide
  terminated := by decide
  plain := by decide
  distinct := by decide
  content := by decide

theorem unpackers_agree_f2 : (entry f2 0).Checked
    ∧ ∃ ws ws', unpacker f2 = some ws ∧ unpackerStruct f2 = some ws'
      ∧ (∀ name, (extract ws).lookup name = (extract ws').lookup name)
      ∧ Unpacked f2 (extract ws) ∧ Unpacked f2 (extract ws') :=
  ⟨by decide, (unpackers_agree_iff wellFormed_f2).mpr (by decide)⟩

/-- The header, the entries and the names of an archive with the two files `a` and `b`.  The content
of `a` begins where the archive does, and has `2 ^ 31 - 32` bytes; that of `b` is empty. -/
def overlappingHead : Bytes :=
  [0x50, 0x41, 0x4B, 0x4F, 56, 0, 0, 0, 0, 0, 0, 0, 2, 0, 0, 0,
   0, 0, 0, 0, 0x7f, 0xff, 0xff, 0xe0, 0, 0, 0, 0, 0, 0, 0, 0, 0, 0, 0, 0,
   2, 0, 0, 0, 0, 0, 0, 0, 0, 0, 0, 0, 0, 0, 0, 0, 0, 0, 0, 0,
   0x61, 0, 0x62, 0]

/-- The archive, with `n` bytes behind the names. -/
def overlapping (n : ℕ) : Bytes := overlappingHead ++ List.replicate n 0

theorem slice_overlapping {n o k : ℕ} (h : o + k ≤ 60) :
    slice (overlapping n) o k = slice overlappingHead o k := slice_append h _

theorem nfiles_overlapping (n : ℕ) : nfiles (overlapping n) = 2 := by
  rw [nfiles, slice_overlapping (by omega)]
  rfl

/-- What the first entries of the archive say. -/
theorem fields_overlapping (n : ℕ) {i : ℕ} (hi : i < 2) :
    nameOffset (overlapping n) i = nameOffset overlappingHead i
      ∧ contentOffset (overlapping n) i = contentOffset overlappingHead i
      ∧ fileSize (overlapping n) i = fileSize overlappingHead i := by
  refine ⟨?_, ?_, ?_⟩
  · rw [nameOffset, nameOffset, strSec, strSec, entryOffset, slice_overlapping (by omega),
      slice_overlapping (by omega)]
  · rw [contentOffset, contentOffset, contSec, contSec, entryOffset, slice_overlapping (by omega),
      slice_overlapping (by omega)]
  · rw [fileSize, fileSize, entryOffset, slice_overlapping (by omega)]

theorem name_overlapping (n : ℕ) {i : ℕ} (hi : i < 2) :
    0 ∈ (overlapping n).drop (nameOffset (overlapping n) i)
      ∧ (entry (overlapping n) i).name = (entry overlappingHead i).name := by
  have hin : ∀ j < 2, nameOffset overlappingHead j ≤ overlappingHead.length
      ∧ 0 ∈ overlappingHead.drop (nameOffset overlappingHead j) := by decide
  have hdrop : (overlapping n).drop (nameOffset (overlapping n) i)
      = overlappingHead.drop (nameOffset overlappingHead i) ++ List.replicate n 0 := by
    rw [(fields_overlapping n hi).1, overlapping, List.drop_append_of_le_length (hin i hi).1]
  refine ⟨?_, ?_⟩
  · rw [hdrop]
    exact List.mem_append_left _ (hin i hi).2
  · show cstr _ = cstr _
    rw [hdrop, cstr_append (hin i hi).2]

theorem wellFormed_overlapping {n : ℕ} (hshort : 60 + n < 2 ^ 31) (hlong : 2 ^ 31 ≤ 60 + n + 0x20) :
    WellFormed (overlapping n) where
  magic := by
    rw [overlapping, List.take_append_of_le_length (by decide)]
    decide
  short := by
    rw [overlapping, List.length_append, List.length_replicate]
    exact hshort
  header := by
    rw [overlapping, List.length_append]
    exact Nat.le_add_right_of_le (by decide)
  entries := by
    rw [nfiles_overlapping, overlapping, List.length_append]
    intro i hi
    have hlen : overlappingHead.length = 60 := rfl
    rw [entryOffset]
    omega
  terminated := by
    rw [nfiles_overlapping]
    intro i hi
    exact (name_overlapping n hi).1
  plain := by
    have hplain : ∀ i < 2, Plain (entry overlappingHead i).name := by decide
    rw [nfiles_overlapping]
    intro i hi
    rw [(name_overlapping n hi).2]
    exact hplain i hi
  distinct := by
    have hdistinct : ∀ i < 2, ∀ j < 2,
        (entry overlappingHead i).name = (entry overlappingHead j).name → i = j := by decide
    rw [nfiles_overlapping]
    intro i hi j hj h
    rw [(name_overlapping n hi).2, (name_overlapping n hj).2] at h
    exact hdistinct i hi j hj h
  content := by
    have hsizes : ∀ i < 2,
        contentOffset overlappingHead i + fileSize overlappingHead i + 0x20 ≤ 2 ^ 31 := by decide
    rw [nfiles_overlapping, overlapping, List.length_append, List.length_replicate, ← overlapping]
    intro i hi
    have hlen : overlappingHead.length = 60 := rfl
    have hsize := hsizes i hi
    obtain ⟨-, hoff, hfile⟩ := fields_overlapping n hi
    omega

/-- With a content of `2 ^ 31 - 32` bytes, `unpacker.c` overflows before it writes anything, while
`unpacker-struct.c` writes the file `b`. -/
theorem unpackers_differ : WellFormed (overlapping 2147483587)
    ∧ unpacker (overlapping 2147483587) = none
    ∧ ∃ ws, unpackerStruct (overlapping 2147483587) = some ws
      ∧ (extract ws).lookup [0x62] = some [] := by
  have hw := wellFormed_overlapping (by omega : 60 + 2147483587 < 2 ^ 31) (by omega)
  generalize 2147483587 = n at hw ⊢
  refine ⟨hw, ?_, _, unpackerStruct_eq hw.inRange, ?_⟩
  · rw [unpacker_wellFormed hw, if_neg]
    intro hfit
    have hfirst := hfit (entry (overlapping n) 0)
      (List.mem_map_of_mem (List.mem_range.mpr (by rw [nfiles_overlapping]; omega)))
    rw [hw.inRange.length_content (by rw [nfiles_overlapping]; omega),
      (fields_overlapping n (by omega)).2.2] at hfirst
    exact absurd hfirst (by decide)
  · have hone : 1 < nfiles (overlapping n) := by
      rw [nfiles_overlapping]
      omega
    have hcontent : (entry (overlapping n) 1).content = [] := by
      apply List.eq_nil_of_length_eq_zero
      rw [hw.inRange.length_content hone, (fields_overlapping n (by omega)).2.2]
      decide
    have hsum : (entry (overlapping n) 1).checksum = 0 := by
      show ofBE (slice (overlapping n) 48 8) = 0
      rw [slice_overlapping (by omega)]
      decide
    have hchecked : (entry (overlapping n) 1).Checked := by
      rw [Entry.Checked, hcontent, hsum]
      rfl
    have hname : (entry (overlapping n) 1).name = [0x62] := by
      rw [(name_overlapping n (by omega)).2]
      decide
    exact (unpacked_writes hw _ _).mpr
      ⟨_, List.mem_map_of_mem (List.mem_range.mpr hone), hchecked, hname, hcontent⟩

end Pako
