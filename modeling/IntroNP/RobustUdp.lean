/-
# The robust UDP transfer of Lab 8

The client and the server of `Lab/8/src`, run against each other over UDP.  The client cuts
its compressed data into chunks numbered from 1, announces their total size in packet 0, and
sends every packet the last acknowledgement does not mark as received, round after round.  The
server stores new chunks, keeps a bit map of the packets it has seen in the payload of its one
reply, and sends that reply three times whenever its timer has run out.

* `Server.iterate` : one iteration of the server's receive loop; `saveToFile` : the reassembly;
* `Client.visit`, `Client.readResp`, `Client.eraseDone` : the client's send loop, its reception
  of a reply and the end of a round;
* `system` : both sides and the network.  The network keeps every datagram ever sent and
  delivers any of them at any time, which covers loss, duplication, delay and reordering.

The compression library, the file system and the clock are outside the model.  Whether the
acknowledgement timer has run out is part of the event, and so are the bytes that
`save_to_file` finds in its freshly allocated buffer.
-/
import Mathlib.Order.Interval.Finset.Nat
import IntroNP.Runs
import IntroNP.Bitmap
import IntroNP.Chunks

namespace RobustUdp

/-! ## Packets -/

/-- `TOTAL_SIZE`. -/
def totalSize : ℕ := 1200

/-- `HEADER_SIZE`. -/
def headerSize : ℕ := 28

/-- `DATA_SIZE`, without `USE_CHECKSUM`: the payload after the 4-byte sequence number. -/
def dataSize : ℕ := totalSize - headerSize - 4

/-- `UINT32_MAX`, which is also `UINT_MAX`. -/
def uint32Max : ℕ := 2 ^ 32 - 1

/-- A payload: exactly `DATA_SIZE` bytes. -/
abbrev Payload := {d : Bytes // d.length = dataSize}

/-- `hdr_t`, the only packet format of the protocol. -/
structure Hdr where
  /-- `data_seq`. -/
  dataSeq : ℕ
  /-- `data`. -/
  data : Payload
  deriving DecidableEq

/-- `data_t`: the bytes to send in one packet, which fit its payload. -/
structure DataT where
  /-- The `data_size` bytes at `data`. -/
  bytes : Bytes
  /-- They fit a payload. -/
  fits : bytes.length ≤ dataSize

/-- The payload `bzero` leaves. -/
def Payload.zero : Payload := ⟨List.replicate dataSize 0, List.length_replicate⟩

/-- `recvbit[k] = 1`, where `recvbit` is the bit set laid over the payload. -/
def Payload.set (d : Payload) (k : ℕ) : Payload := ⟨setBit d.1 k, by rw [length_setBit, d.2]⟩

/-- `donebit[k]` and `recvbit[k]`. -/
def Hdr.bit (h : Hdr) (k : ℕ) : Bool := getBit h.data.1 k

/-- `wrap_send`: the packet that carries the bytes, zero after them. -/
def wrapSend (dataSeq : ℕ) (data : DataT) : Hdr :=
  ⟨dataSeq, pad dataSize data.bytes, length_pad data.fits⟩

/-! ## The server -/

/-- Where the server's `main` stands: in its receive loop, between the loop and the end of
`save_to_file`, or in the loop that sends FIN. -/
inductive Phase where
  | receiving
  | saving
  | fin
  deriving DecidableEq

/-- The variables of the server's `main`. -/
structure Server where
  /-- `comp_size`, `UINT_MAX` while unknown. -/
  compSize : ℕ
  /-- `recv_size`. -/
  recvSize : ℕ
  /-- `data_map`. -/
  dataMap : Std.TreeMap ℕ Payload
  /-- `keep`. -/
  keep : Bool
  /-- `send_hdr`, whose payload is `recvbit`. -/
  sendHdr : Hdr
  /-- The place in `main`. -/
  phase : Phase
  /-- The buffer `save_to_file` hands to the decompressor, once it has run. -/
  saved : Option Bytes

/-- The server before its first iteration. -/
def Server.initial : Server where
  compSize := uint32Max
  recvSize := 0
  dataMap := ∅
  keep := false
  sendHdr := ⟨0, Payload.zero⟩
  phase := .receiving
  saved := none

/-- `recvbit[k]`. -/
def Server.recvbit (sv : Server) (k : ℕ) : Bool := sv.sendHdr.bit k

/-- The condition of the receive loop: `comp_size == UINT_MAX or recv_size < comp_size`. -/
def Server.continues (sv : Server) : Prop := sv.compSize = uint32Max ∨ sv.recvSize < sv.compSize

instance (sv : Server) : Decidable sv.continues := inferInstanceAs (Decidable (_ ∨ _))

/-- What the receive loop does with a packet: mark it in `recvbit`, then either read the
announced size (the first eight bytes of a `data_t`, cut to 32 bits) or store a new chunk. -/
def Server.record (sv : Server) (p : Hdr) : Server :=
  let sv := { sv with sendHdr := { sv.sendHdr with data := sv.sendHdr.data.set p.dataSeq } }
  if p.dataSeq = 0 then
    { sv with compSize := ofLE (p.data.1.take 8) % 2 ^ 32 }
  else if p.dataSeq ∈ sv.dataMap then
    sv
  else
    { sv with
      dataMap := sv.dataMap.insert p.dataSeq p.data
      recvSize := (sv.recvSize + dataSize) % 2 ^ 32 }

/-- The test that makes the acknowledgements frequent, with its subtraction modulo `2 ^ 64`. -/
def Server.updateKeep (sv : Server) : Server :=
  let left := (sv.compSize / dataSize + 2 ^ 64 - bitCount sv.sendHdr.data.1) % 2 ^ 64
  if !sv.keep && left < 100 then { sv with keep := true } else sv

/-- `do_reponse` sends its packet three times. -/
def doReponse (h : Hdr) : List Hdr := List.replicate 3 h

/-- One iteration of the receive loop on a received packet: the server after the loop test and
the datagrams it has sent.  The second argument says whether the acknowledgement timer
(10 ms if `keep`, else `SEND_TIME`) has run out. -/
def Server.iterate (sv : Server) (p : Hdr) (timer : Bool) : Server × List Hdr :=
  let sv := (sv.record p).updateKeep
  let out := if timer then doReponse sv.sendHdr else []
  if sv.continues then (sv, out) else ({ sv with phase := .saving }, out)

/-- The number of bytes `save_to_file` allocates, with `comp_size - 1` modulo `2 ^ 32`. -/
def saveBufferSize (compSize : ℕ) : ℕ :=
  (1 + (compSize + 2 ^ 32 - 1) % 2 ^ 32 / dataSize) * dataSize

/-- The copies of `save_to_file`, in the order of `data_map`: chunk `seq` goes to offset
`(seq - 1) * DATA_SIZE`. -/
def saveWrites (dataMap : Std.TreeMap ℕ Payload) : List (ℕ × Bytes) :=
  (dataMap.toList.filter (fun e => e.1 ≠ 0)).map (fun e => ((e.1 - 1) * dataSize, e.2.1))

/-- The reassembly of `save_to_file` in a buffer with the given contents. -/
def saveToFile (buf : Bytes) (dataMap : Std.TreeMap ℕ Payload) : Bytes :=
  writeAll buf (saveWrites dataMap)

/-- The server after `save_to_file`, which clears the map, and after the assignment that turns
its reply into FIN. -/
def Server.save (sv : Server) (buf : Bytes) : Server :=
  { sv with
    saved := some (saveToFile buf sv.dataMap)
    dataMap := ∅
    sendHdr := { sv.sendHdr with dataSeq := uint32Max }
    phase := .fin }

/-! ## The client -/

/-- Where the client's `main` stands: in the `for` loop of a send round with the entries it has
still to visit, in `read_resps`, or after one of its two exits. -/
inductive ClientPc where
  | sending (todo : List (ℕ × DataT))
  | reading
  | exitFin
  | exitEmpty

/-- The variables of the client's send loop. -/
structure Client where
  /-- `data_map`, in the order of its keys. -/
  dataMap : List (ℕ × DataT)
  /-- `s_res`, whose payload is `donebit`. -/
  sRes : Hdr
  /-- The place in `main`. -/
  pc : ClientPc

/-- The `data_t zero` that announces the size: a `size_t` and a null pointer. -/
def zeroData (compSize : ℕ) : DataT :=
  ⟨leBytes 8 compSize ++ List.replicate 8 0, by simp [dataSize, totalSize, headerSize]⟩

/-- Chunk `i` of the compressed data. -/
def chunkData (compData : Bytes) (i : ℕ) : DataT :=
  ⟨chunk dataSize compData i, length_chunk_le dataSize compData i⟩

/-- The client's `data_map` before the send loop: the announcement under 0 and chunk `i` under
`i + 1`. -/
def initialMap (compData : Bytes) : List (ℕ × DataT) :=
  (0, zeroData compData.length) ::
    (chunkIndices dataSize compData.length).map (fun i => (i + 1, chunkData compData i))

/-- The client before its first round: `s_res` is zero initialised. -/
def Client.initial (compData : Bytes) : Client where
  dataMap := initialMap compData
  sRes := ⟨0, Payload.zero⟩
  pc := .sending (initialMap compData)

/-- `donebit[k]`. -/
def Client.donebit (cl : Client) (k : ℕ) : Bool := cl.sRes.bit k

/-- The keys still in `data_map`. -/
def Client.keys (cl : Client) : List ℕ := cl.dataMap.map Prod.fst

/-- One step of the send round: the next entry is sent unless its bit is set; after the last
one the client goes on to read replies. -/
def Client.visit (cl : Client) : Option (Client × List Hdr) :=
  match cl.pc with
  | .sending [] => some ({ cl with pc := .reading }, [])
  | .sending ((key, data) :: todo) =>
      let out := if cl.donebit key then [] else [wrapSend key data]
      some ({ cl with pc := .sending todo }, out)
  | _ => none

/-- One reply received by `read_resps`: it replaces the last one, and FIN ends the program. -/
def Client.readResp (cl : Client) (res : Hdr) : Option Client :=
  match cl.pc with
  | .reading =>
      some { cl with sRes := res, pc := if res.dataSeq = uint32Max then .exitFin else .reading }
  | _ => none

/-- The end of `read_resps`, when `recv` times out: every entry whose bit is set is erased, and
the loop goes on unless nothing is left. -/
def Client.eraseDone (cl : Client) : Option Client :=
  match cl.pc with
  | .reading =>
      let left := cl.dataMap.filter (fun e => !cl.donebit e.1)
      some { cl with dataMap := left, pc := if left.isEmpty then .exitEmpty else .sending left }
  | _ => none

/-- The client has terminated. -/
def Client.terminated (cl : Client) : Prop := cl.pc = .exitFin ∨ cl.pc = .exitEmpty

/-! ## Both sides and the network -/

/-- The two processes and every datagram ever sent in either direction. -/
structure State where
  /-- The client. -/
  client : Client
  /-- The server. -/
  server : Server
  /-- What the client has sent. -/
  toServer : List Hdr
  /-- What the server has sent. -/
  toClient : List Hdr

/-- What can happen next. -/
inductive Event where
  /-- The client visits the next entry of its send round. -/
  | clientVisit
  /-- The client receives a reply. -/
  | clientRecv (res : Hdr)
  /-- The client's `recv` times out. -/
  | clientTimeout
  /-- The server receives a packet; the acknowledgement timer has run out or not. -/
  | serverRecv (p : Hdr) (timer : Bool)
  /-- The server finishes `save_to_file`, whose buffer held these bytes. -/
  | serverSave (buf : Bytes)

/-- What an event does.  Delivered datagrams stay in flight, so each may be delivered again, in
any order, late, or never. -/
def next (s : State) : Event → Option State
  | .clientVisit =>
      s.client.visit.map fun r => { s with client := r.1, toServer := r.2 ++ s.toServer }
  | .clientRecv res =>
      if res ∈ s.toClient then (s.client.readResp res).map fun cl => { s with client := cl }
      else none
  | .clientTimeout => s.client.eraseDone.map fun cl => { s with client := cl }
  | .serverRecv p timer =>
      if p ∈ s.toServer then
        match s.server.phase with
        | .receiving =>
            let r := s.server.iterate p timer
            some { s with server := r.1, toClient := r.2 ++ s.toClient }
        | .saving => none
        | .fin => some { s with toClient := doReponse s.server.sendHdr ++ s.toClient }
      else none
  | .serverSave buf =>
      if s.server.phase = .saving ∧ buf.length = saveBufferSize s.server.compSize then
        some { s with server := s.server.save buf }
      else none

/-- One client that transfers the compressed data to one server. -/
def system (compData : Bytes) : Machine State Event Unit :=
  Machine.silent ⟨Client.initial compData, Server.initial, [], []⟩ next

end RobustUdp
