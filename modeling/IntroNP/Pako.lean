/-
# The PAKO unpackers of Lab 2

A PAKO file has a header, one entry of 20 bytes for each packed file, a section with the names and
one with the contents.  `Lab/2/PAKO-File-Unpacker` has two programs that unpack it: `unpacker.c`
seeks and reads field after field, `unpacker-struct.c` reads the whole file into memory and looks
at it through structures.  Both write the files whose checksum is right.

* `Entry`, `entry`, `WellFormed`, `InRange` : the format;
* `unpacker` : the program of `unpacker.c`;
* `unpackerStruct` : the program of `unpacker-struct.c`;
* `Directory.write`, `extract` : what the writes leave in a directory.

A program is a list of the files that it opens and writes, with what it writes; it has none if it
overflows an `int` or leaves its memory.  The system calls are taken to transfer all that they are
asked for, and memory to suffice; what is printed, and the widths that are computed for it, is left
out.  A directory takes any name that is a single component of a path.
-/
import IntroNP.Words
import IntroNP.Tables

namespace Pako

/-! ## The format -/

/-- A packed file. -/
structure Entry where
  name : Bytes
  content : Bytes
  /-- The checksum that is stored for it. -/
  checksum : ℕ

/-- `n` bytes of the file from an offset on. -/
def slice (archive : Bytes) (offset n : ℕ) : Bytes := (archive.drop offset).take n

/-- The offset of the string section. -/
def strSec (archive : Bytes) : ℕ := ofLE (slice archive 4 4)

/-- The offset of the content section. -/
def contSec (archive : Bytes) : ℕ := ofLE (slice archive 8 4)

/-- The number of packed files. -/
def nfiles (archive : Bytes) : ℕ := ofLE (slice archive 12 4)

/-- The offset of an entry. -/
def entryOffset (i : ℕ) : ℕ := 16 + i * 20

/-- Where the name of an entry stands. -/
def nameOffset (archive : Bytes) (i : ℕ) : ℕ :=
  strSec archive + ofLE (slice archive (entryOffset i) 4)

/-- Where the content of an entry stands. -/
def contentOffset (archive : Bytes) (i : ℕ) : ℕ :=
  contSec archive + ofLE (slice archive (entryOffset i + 8) 4)

/-- The size of an entry, which is big-endian. -/
def fileSize (archive : Bytes) (i : ℕ) : ℕ := ofBE (slice archive (entryOffset i + 4) 4)

/-- Entry `i` of a PAKO file. -/
def entry (archive : Bytes) (i : ℕ) : Entry where
  name := cstr (archive.drop (nameOffset archive i))
  content := slice archive (contentOffset archive i) (fileSize archive i)
  checksum := ofBE (slice archive (entryOffset i + 12) 8)

/-- The packed files. -/
def entries (archive : Bytes) : List Entry := (List.range (nfiles archive)).map (entry archive)

/-- The name is a single component of a path, and not one of the two special ones. -/
def Plain (name : Bytes) : Prop :=
  1 ≤ name.length ∧ name.length ≤ 1023 ∧ ch '/' ∉ name ∧ name ≠ ascii "." ∧ name ≠ ascii ".."

instance (name : Bytes) : Decidable (Plain name) := inferInstanceAs (Decidable (_ ∧ _))

/-- A PAKO file with all that its entries refer to. -/
structure WellFormed (archive : Bytes) : Prop where
  magic : archive.take 4 = ascii "PAKO"
  short : archive.length < 2 ^ 31
  header : 16 ≤ archive.length
  entries : ∀ i < nfiles archive, entryOffset i + 20 ≤ archive.length
  /-- The name ends in the file. -/
  terminated : ∀ i < nfiles archive, 0 ∈ archive.drop (nameOffset archive i)
  plain : ∀ i < nfiles archive, Plain (entry archive i).name
  distinct : ∀ i < nfiles archive, ∀ j < nfiles archive,
    (entry archive i).name = (entry archive j).name → i = j
  content : ∀ i < nfiles archive,
    contentOffset archive i + fileSize archive i ≤ archive.length

/-- A PAKO file with all that its entries refer to, under any names. -/
structure InRange (archive : Bytes) : Prop where
  magic : archive.take 4 = ascii "PAKO"
  header : 16 ≤ archive.length
  entries : ∀ i < nfiles archive, entryOffset i + 20 ≤ archive.length
  terminated : ∀ i < nfiles archive, 0 ∈ archive.drop (nameOffset archive i)
  content : ∀ i < nfiles archive,
    contentOffset archive i + fileSize archive i ≤ archive.length
  /-- The offsets are of type `int`, and `int32_t`. -/
  offsets : ∀ i < nfiles archive, entryOffset i < 2 ^ 31
    ∧ nameOffset archive i < 2 ^ 31 ∧ contentOffset archive i < 2 ^ 31

/-- The stored checksum is the xor of the segments of 8 bytes. -/
def Entry.Checked (e : Entry) : Prop := xorSegments 8 e.content = e.checksum

instance (e : Entry) : Decidable e.Checked := inferInstanceAs (Decidable (_ = _))

/-- What is to be written for a packed file. -/
def Entry.writes (e : Entry) : List (Bytes × Bytes) :=
  if e.Checked then [(e.name, e.content)] else []

/-! ## unpacker.c -/

/-- The conversion to `int`, and to `int32_t`. -/
def int32 (n : ℕ) : ℤ :=
  if n % 2 ^ 32 < 2 ^ 31 then (n % 2 ^ 32 : ℕ) else (n % 2 ^ 32 : ℕ) - 2 ^ 32

/-- An open file and its offset. -/
structure Fd where
  file : Bytes
  pos : ℕ

/-- `readstr`: the whole buffer, zero behind what has been read.  `bytes + 0x20` must not overflow,
and the buffer must have room. -/
def readstr (fd : Fd) (offset bytes : ℤ) : Option (Bytes × Fd) :=
  if bytes < 0 ∨ 2 ^ 31 ≤ bytes + 0x20 then none
  else
    let pos := if 0 ≤ offset then offset.toNat else fd.pos
    let data := slice fd.file pos bytes.toNat
    some (pad (bytes.toNat + 0x20) data, ⟨fd.file, pos + data.length⟩)

/-- `readint`; a little-endian one always looks at eight bytes. -/
def readint (fd : Fd) (offset bytes : ℤ) (little : Bool) : Option (ℕ × Fd) :=
  if bytes = 4 ∨ bytes = 8 then
    (readstr fd offset bytes).map fun r =>
      (if little then ofLE (r.1.take 8)
        else (r.1.take bytes.toNat).foldl (fun r b => (r * 0x100 + b.toNat) % 2 ^ 64) 0, r.2)
  else none

/-- `MAX_SIZE`. -/
def maxSize : ℤ := 1024

/-- The loop over the words of a content. -/
def xorLoop (cont : Bytes) (fsize : ℕ) : ℕ :=
  (chunkIndices 8 fsize).foldl (fun xor j => xor ^^^ ofLE ((cont.drop (j * 8)).take 8)) 0

/-- One turn of the loop of `main`; its `i` and the offset are of type `int`. -/
def unpackEntry (strSec contSec : ℕ) (fd : Fd) (i : ℕ) : Option (List (Bytes × Bytes) × Fd) :=
  if 2 ^ 31 ≤ 0x10 + i * 0x14 then none
  else do
    let (fnOff, fd) ← readint ⟨fd.file, 0x10 + i * 0x14⟩ (-1) 4 true
    let (fsize, fd) ← readint fd (-1) 4 false
    let (contOff, fd) ← readint fd (-1) 4 true
    let (checksum, fd) ← readint fd (-1) 8 false
    let (file, fd) ← readstr fd (int32 (strSec + fnOff)) maxSize
    let (cont, fd) ← readstr fd (int32 (contSec + contOff)) (int32 fsize)
    return (if xorLoop cont fsize = checksum then [(cstr file, cont.take fsize)] else [], fd)

/-- The loop of `main`. -/
def unpackEntries (strSec contSec : ℕ) : Fd → List ℕ → Option (List (Bytes × Bytes))
  | _, [] => some []
  | fd, i :: is => do
      let (ws, fd) ← unpackEntry strSec contSec fd i
      let rest ← unpackEntries strSec contSec fd is
      return ws ++ rest

/-- `main` of `unpacker.c`: the files that it writes. -/
def unpacker (archive : Bytes) : Option (List (Bytes × Bytes)) := do
  let (strSec, fd) ← readint ⟨archive, 4⟩ (-1) 4 true
  let (contSec, fd) ← readint fd (-1) 4 true
  let (nfiles, fd) ← readint fd (-1) 4 true
  unpackEntries strSec contSec fd (List.range nfiles)

/-! ## unpacker-struct.c -/

/-- `MAGIC`. -/
def MAGIC : ℕ := 0x4F4B4150

/-- `n` bytes of memory from an address on. -/
def load (mem : Bytes) (addr : ℤ) (n : ℕ) : Option Bytes :=
  if 0 ≤ addr ∧ addr + n ≤ mem.length then some (slice mem addr.toNat n) else none

/-- The C string at an address. -/
def cstring (mem : Bytes) (addr : ℤ) : Option Bytes :=
  if 0 ≤ addr ∧ 0 ∈ mem.drop addr.toNat then some (cstr (mem.drop addr.toNat)) else none

/-- `__builtin_bswap32` and `__builtin_bswap64`. -/
def bswap (w n : ℕ) : ℕ := ofBE (leBytes w n)

/-- `CheckSum`, by its bytes `v8`. -/
structure CheckSum where
  v8 : Bytes
  size : v8.length = 8

/-- `v64`. -/
def CheckSum.v64 (c : CheckSum) : ℕ := ofLE c.v8

/-- A `CheckSum` whose `v64` is set. -/
def CheckSum.ofV64 (n : ℕ) : CheckSum := ⟨leBytes 8 n, length_leBytes 8 n⟩

/-- `Header`. -/
structure Header where
  magic : ℕ
  offStr : ℤ
  offDat : ℤ
  nFiles : ℕ

/-- `File_Meta`. -/
structure FileMeta where
  offFile : ℤ
  filesize : ℕ
  offData : ℤ
  checksum : CheckSum

/-- `File`; its pointers are addresses in the image of the archive. -/
structure File where
  fileMeta : FileMeta
  filename : ℤ
  content : ℤ

/-- The size that `readstr` allocates, a `size_t`. -/
def alignBytes (bytes : ℕ) : ℕ := ((bytes + 2 ^ 64 - 1) % 2 ^ 64 / 8 + 1) * 8 % 2 ^ 64

/-- The image of the archive in memory. -/
def image (archive : Bytes) : Bytes := pad (alignBytes archive.length) archive

/-- The `Header` at the beginning of the image. -/
def readHeader (filestr : Bytes) : Option Header :=
  (load filestr 0 16).map fun b =>
    ⟨ofLE (b.take 4), int32 (ofLE (slice b 4 4)), int32 (ofLE (slice b 8 4)), ofLE (slice b 12 4)⟩

/-- The `File_Meta` of an entry, with the byte order of its big-endian fields changed. -/
def readMeta (filestr : Bytes) (i : ℕ) : Option FileMeta :=
  (load filestr (16 + i * 20 : ℕ) 20).map fun b =>
    ⟨int32 (ofLE (b.take 4)), bswap 4 (ofLE (slice b 4 4)), int32 (ofLE (slice b 8 4)),
      .ofV64 (bswap 8 (ofLE (slice b 12 8)))⟩

/-- One turn of the first loop of `main`, which takes the length of the name. -/
def readFile (filestr : Bytes) (header : Header) (i : ℕ) : Option File := do
  let fileMeta ← readMeta filestr i
  let file : File := ⟨fileMeta, header.offStr + fileMeta.offFile, header.offDat + fileMeta.offData⟩
  let _ ← cstring filestr file.filename
  return file

/-- The first loop of `check_checksum`, over whole words: the xor and `j`. -/
def xorWords (filestr : Bytes) (content : ℤ) (filesize j : ℕ) (xor : CheckSum) :
    Option (CheckSum × ℕ) :=
  if j + 8 ≤ filesize then
    (load filestr (content + (j / 8 * 8 : ℕ)) 8).bind fun w =>
      xorWords filestr content filesize (j + 8) (.ofV64 (xor.v64 ^^^ ofLE w))
  else some (xor, j)
termination_by filesize - j

/-- `xor.v8[k] ^= b`. -/
def CheckSum.xorByte (c : CheckSum) (k : ℕ) (b : UInt8) : CheckSum :=
  ⟨c.v8.modify k fun x => x ^^^ b, by rw [List.length_modify, c.size]⟩

/-- The second loop of `check_checksum`, over the bytes that are left. -/
def xorTail (filestr : Bytes) (content : ℤ) (filesize j : ℕ) (xor : CheckSum) : Option CheckSum :=
  if j + 1 ≤ filesize then
    (load filestr (content + (j / 8 * 8 + j % 8 : ℕ)) 1).bind fun b =>
      xorTail filestr content filesize (j + 1) (xor.xorByte (j % 8) (b.headD 0))
  else some xor
termination_by filesize - j

/-- `check_checksum`. -/
def checkChecksum (filestr : Bytes) (f : File) : Option Bool := do
  let (xor, j) ← xorWords filestr f.content f.fileMeta.filesize 0 (.ofV64 0)
  let xor ← xorTail filestr f.content f.fileMeta.filesize j xor
  return xor.v64 = f.fileMeta.checksum.v64

/-- One turn of the second loop of `main`. -/
def unpackFile (filestr : Bytes) (f : File) : Option (List (Bytes × Bytes)) := do
  let checked ← checkChecksum filestr f
  if checked then
    let name ← cstring filestr f.filename
    let content ← load filestr f.content f.fileMeta.filesize
    return [(name, content)]
  else return []

/-- `main` of `unpacker-struct.c`: the files that it writes. -/
def unpackerStruct (archive : Bytes) : Option (List (Bytes × Bytes)) := do
  let filestr := image archive
  let header ← readHeader filestr
  if header.magic ≠ MAGIC then return []
  else
    let files ← (List.range header.nFiles).mapM (readFile filestr header)
    let ws ← files.mapM (unpackFile filestr)
    return ws.flatten

/-! ## The directory -/

/-- A directory: names and contents. -/
abbrev Directory := Table Bytes Bytes

/-- `openat` with `O_CREAT` but without `O_TRUNC`, and `write`: what a file has behind the written
bytes stays. -/
def Directory.write (d : Directory) (w : Bytes × Bytes) : Directory :=
  d.insert w.1 (w.2 ++ ((d.lookup w.1).getD []).drop w.2.length)

/-- A directory after some writes. -/
def Directory.writeAll (d : Directory) (ws : List (Bytes × Bytes)) : Directory :=
  ws.foldl Directory.write d

/-- An empty directory after some writes. -/
def extract (ws : List (Bytes × Bytes)) : Directory := Directory.writeAll ∅ ws

/-- What is unpacked from an archive: the entries with the right checksums. -/
def Unpacked (archive : Bytes) (d : Directory) : Prop :=
  ∀ name content, d.lookup name = some content
    ↔ ∃ e ∈ entries archive, e.Checked ∧ e.name = name ∧ e.content = content

end Pako
