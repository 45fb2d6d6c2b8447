/-
# The container of the file transfers

Both file transfer programs send their files as one byte string: for each file an `init_t`, which
is its number and its size as two little-endian 32-bit integers, and then its bytes, file after
file.  The server walks over that string with a pointer whose steps are the sizes it finds there.

* `concatenate` : the string that a client builds;
* `unpack` : the loop of a server, which fails where it would read behind the end it was given;
* `unpack_end` : where the loop stops, from what it has found;
* `unpack_concatenate_iff` : it finds exactly the files of the client if and only if it is given
  the length of the string.
-/
import IntroNP.Bytes

namespace FileContainer

/-- `init_t`. -/
structure Init where
  /-- `filename`, the number of the file. -/
  filename : ℕ
  /-- `filesize`. -/
  filesize : ℕ
  deriving DecidableEq

/-- `sizeof(init_t)`. -/
def sizeofInit : ℕ := 8

/-- An `init_t` in memory. -/
def Init.bytes (init : Init) : Bytes := leBytes 4 init.filename ++ leBytes 4 init.filesize

/-- The `init_t` that a pointer points to. -/
def Init.read (data : Bytes) (ptr : ℕ) : Init where
  filename := ofLE ((data.drop ptr).take 4)
  filesize := ofLE ((data.drop (ptr + 4)).take 4)

/-- The size of a file that has been read, a `uint32_t`. -/
def fileSize (file : Bytes) : ℕ := file.length % 2 ^ 32

/-- One file of the container, under its number. -/
def entry (file : Bytes) (idx : ℕ) : Bytes :=
  Init.bytes ⟨idx, fileSize file⟩ ++ file.take (fileSize file)

/-- `orig_data`: the files one after the other, numbered from 0. -/
def concatenate (files : List Bytes) : Bytes :=
  (files.zipIdx.map fun e => entry e.1 e.2).flatten

/-- The loop of the server from `ptr` on: the numbers and the contents that it writes to files,
and the value of `ptr` behind the loop.  It fails when it reads behind `orig_size` bytes. -/
def unpack (origData : Bytes) (origSize ptr : ℕ) : Option (List (ℕ × Bytes) × ℕ) :=
  if ptr < origSize then
    if origSize < ptr + sizeofInit then none
    -- the bytes that `write` takes
    else if origSize < ptr + sizeofInit + (Init.read origData ptr).filesize then none
    else (unpack origData origSize (ptr + sizeofInit + (Init.read origData ptr).filesize)).map
      fun r => (((Init.read origData ptr).filename,
        (origData.drop (ptr + sizeofInit)).take (Init.read origData ptr).filesize) :: r.1, r.2)
  else some ([], ptr)
termination_by origSize - ptr
decreasing_by simp only [sizeofInit]; omega

/-- The files with their numbers, as the loop of the server should find them. -/
def numbered (files : List Bytes) : List (ℕ × Bytes) := files.zipIdx.map Prod.swap

/-- What the container needs for some files, in bytes. -/
def containerSize (files : List Bytes) : ℕ :=
  (files.map fun file => sizeofInit + fileSize file).sum

/-! ## Lengths -/

@[simp] theorem length_bytes (init : Init) : init.bytes.length = sizeofInit := by
  simp [Init.bytes, sizeofInit]

theorem fileSize_le (file : Bytes) : fileSize file ≤ file.length := Nat.mod_le _ _

@[simp] theorem length_entry (file : Bytes) (idx : ℕ) :
    (entry file idx).length = sizeofInit + fileSize file := by
  rw [entry, List.length_append, length_bytes, List.length_take, Nat.min_eq_left (fileSize_le file)]

/-- What depends on the files only does not see their numbers. -/
theorem map_zipIdx (g : Bytes → ℕ) (files : List Bytes) :
    (files.zipIdx.map fun e => g e.1) = files.map g := by
  have hfst : files.zipIdx.map Prod.fst = files := by simp
  conv_rhs => rw [← hfst, List.map_map]
  rfl

/-- The length of the container. -/
theorem length_concatenate (files : List Bytes) :
    (concatenate files).length = containerSize files := by
  have hlen : List.length ∘ (fun e : Bytes × ℕ => entry e.1 e.2)
      = fun e => sizeofInit + fileSize e.1 := by
    funext e
    exact length_entry e.1 e.2
  rw [concatenate, List.length_flatten, List.map_map, hlen,
    map_zipIdx (fun file => sizeofInit + fileSize file), containerSize]

/-! ## The round trip -/

/-- A pointer that points to an `init_t` reads it. -/
theorem read_bytes {pre rest : Bytes} {init : Init} (hname : init.filename < 2 ^ 32)
    (hsize : init.filesize < 2 ^ 32) :
    Init.read (pre ++ (init.bytes ++ rest)) pre.length = init := by
  have hmod : ∀ n < 2 ^ 32, ofLE (leBytes 4 n) = n := by
    intro n hn
    rw [ofLE_leBytes]
    exact Nat.mod_eq_of_lt hn
  have hfst : ((pre ++ (init.bytes ++ rest)).drop pre.length).take 4 = leBytes 4 init.filename := by
    rw [List.drop_left, Init.bytes, List.append_assoc, List.take_left' (length_leBytes 4 _)]
  have hsnd : ((pre ++ (init.bytes ++ rest)).drop (pre.length + 4)).take 4
      = leBytes 4 init.filesize := by
    rw [← List.drop_drop, List.drop_left, Init.bytes, List.append_assoc,
      List.drop_left' (length_leBytes 4 _), List.take_left' (length_leBytes 4 _)]
  rw [Init.read, hfst, hsnd, hmod _ hname, hmod _ hsize]

/-- One turn of the loop, on one file of the container. -/
theorem unpack_entry {pre rest file : Bytes} {idx : ℕ} (hidx : idx < 2 ^ 32)
    (hfile : file.length < 2 ^ 32) :
    unpack (pre ++ (entry file idx ++ rest)) (pre ++ (entry file idx ++ rest)).length pre.length
      = (unpack (pre ++ (entry file idx ++ rest)) (pre ++ (entry file idx ++ rest)).length
          (pre ++ entry file idx).length).map fun r => ((idx, file) :: r.1, r.2) := by
  have hsize : fileSize file = file.length := Nat.mod_eq_of_lt hfile
  have hread : Init.read (pre ++ (entry file idx ++ rest)) pre.length = ⟨idx, file.length⟩ := by
    rw [entry, hsize, List.append_assoc]
    exact read_bytes hidx hfile
  -- the content stands behind the header of the entry
  have hcontent : ((pre ++ (entry file idx ++ rest)).drop (pre.length + sizeofInit)).take file.length
      = file := by
    rw [← List.drop_drop, List.drop_left, entry, hsize, List.take_length, List.append_assoc,
      List.drop_left' (length_bytes _), List.take_left]
  have hlen : (pre ++ (entry file idx ++ rest)).length
      = pre.length + (sizeofInit + file.length) + rest.length := by
    simp only [List.length_append, length_entry, hsize]
    omega
  have hnext : (pre ++ entry file idx).length = pre.length + sizeofInit + file.length := by
    simp only [List.length_append, length_entry, hsize]
    omega
  have hpos : 0 < sizeofInit := by decide
  rw [unpack, if_pos (by omega), if_neg (by omega)]
  simp only [hread, hcontent, hnext]
  rw [if_neg (by omega)]

/-- The loop on the files from a number on. -/
theorem unpack_zipIdx (files : List Bytes) (k : ℕ) (pre : Bytes) (htotal : k + files.length ≤ 2 ^ 32)
    (hfiles : ∀ file ∈ files, file.length < 2 ^ 32) :
    let data := pre ++ ((files.zipIdx k).map fun e => entry e.1 e.2).flatten
    unpack data data.length pre.length = some ((files.zipIdx k).map Prod.swap, data.length) := by
  induction files generalizing k pre with
  | nil =>
      intro data
      have hdata : data = pre := by simp [data]
      rw [hdata, unpack, if_neg (lt_irrefl _)]
      rfl
  | cons file files ih =>
      intro data
      simp only [List.length_cons] at htotal
      -- the entry moves to what the pointer has passed
      have hrest := ih (k + 1) (pre ++ entry file k) (by omega)
        fun f hf => hfiles f (List.mem_cons_of_mem _ hf)
      have hdata : data = pre ++ (entry file k ++
          ((files.zipIdx (k + 1)).map fun e => entry e.1 e.2).flatten) := by
        simp [data]
      simp only [List.append_assoc] at hrest
      rw [hdata, unpack_entry (by omega) (hfiles file List.mem_cons_self), hrest]
      rfl

/-- The loop finds the files of the client. -/
theorem unpack_concatenate {files : List Bytes} (htotal : files.length < 2 ^ 32)
    (hfiles : ∀ file ∈ files, file.length < 2 ^ 32) :
    unpack (concatenate files) (concatenate files).length 0
      = some (numbered files, (concatenate files).length) :=
  unpack_zipIdx files 0 [] (by omega) hfiles

/-- A pointer that has not failed has passed what the loop has found, and never the end. -/
theorem unpack_end {data : Bytes} {n ptr : ℕ} {found : List (ℕ × Bytes)} {stop : ℕ}
    (hlen : n ≤ data.length) (h : unpack data n ptr = some (found, stop)) :
    stop = ptr + (found.map fun e => sizeofInit + e.2.length).sum := by
  induction ptr using unpack.induct data n generalizing found stop with
  | case1 ptr hlt hover =>
      rw [unpack, if_pos hlt, if_pos hover] at h
      cases h
  | case2 ptr hlt hover hlong =>
      rw [unpack, if_pos hlt, if_neg hover, if_pos hlong] at h
      cases h
  | case3 ptr hlt hover hlong ih =>
      rw [unpack, if_pos hlt, if_neg hover, if_neg hlong, Option.map_eq_some_iff] at h
      obtain ⟨r, hr, heq⟩ := h
      obtain ⟨rfl, rfl⟩ := Prod.mk.inj heq
      -- the loop has checked that the content ends in the data
      have hbytes : ((data.drop (ptr + sizeofInit)).take (Init.read data ptr).filesize).length
          = (Init.read data ptr).filesize := by
        rw [List.length_take, List.length_drop]
        omega
      have htail := ih hr
      rw [List.map_cons, List.sum_cons, hbytes, htail]
      omega
  | case4 ptr hlt =>
      rw [unpack, if_neg hlt] at h
      cases h
      simp

/-- The loop finds the files of the client, and stops where it was told to, if and only if it was
told the length of the container. -/
theorem unpack_concatenate_iff {files : List Bytes} (htotal : files.length < 2 ^ 32)
    (hfiles : ∀ file ∈ files, file.length < 2 ^ 32) {n : ℕ} (hn : n ≤ (concatenate files).length) :
    unpack (concatenate files) n 0 = some (numbered files, n) ↔ n = containerSize files := by
  constructor
  · intro h
    have hstop := unpack_end hn h
    have hfull : ∀ file ∈ files, sizeofInit + file.length = sizeofInit + fileSize file := by
      intro file hfile
      rw [fileSize, Nat.mod_eq_of_lt (hfiles file hfile)]
    have hsum : ((numbered files).map fun e => sizeofInit + e.2.length).sum
        = containerSize files := by
      have hswap : ((numbered files).map fun e => sizeofInit + e.2.length)
          = files.zipIdx.map fun e => sizeofInit + e.1.length := by
        rw [numbered, List.map_map]
        rfl
      rw [hswap, map_zipIdx (fun file => sizeofInit + file.length), List.map_congr_left hfull,
        containerSize]
    omega
  · intro h
    rw [h, ← length_concatenate]
    exact unpack_concatenate htotal hfiles

end FileContainer
