/-
# The broadcast transfer of Lab 10

The client and the server of `Lab/10/Broadcast-XDP-File-Transfer`, which talk over raw sockets
with packets of one format.  Every packet is broadcast from a broadcast address, so that both
stations may receive it, the one that has sent it included.  The client sends the packets that
the last packet it has read does not mark, and reads; then it erases what that packet marks.  The
server takes the size from packet 0, stores the other packets, and broadcasts a bit map of what it
has seen every half second.

* `checksum`, `send` : the check value of a packet, and what is put on the air;
* `Server.record`, `Server.iterate` : an iteration of the receive loop;
* `Client.visit`, `Client.readResp`, `Client.eraseDone` : the loop of the client;
* `system` : both stations and the air, where every packet stays and may be received again by
  either of them, in any order, or never.

The sender of a packet stands in no field of it; the model carries it along.  The files that the
server writes in the end and the clock are outside of the model: whether the half second has
passed is part of the event.
-/
import IntroNP.Runs
import IntroNP.Bitmap
import IntroNP.Chunks
import IntroNP.Tables

namespace BroadcastXdp

/-! ## Packets -/

/-- `PACKET_SIZE`. -/
def packetSize : ℕ := 1500

/-- `HEADER_SIZE`: an IP header, the sequence number and the check value. -/
def headerSize : ℕ := 20 + 4 + 4

/-- `DATA_SIZE`. -/
def dataSize : ℕ := packetSize - headerSize - 4 - 4

/-- `UINT32_MAX`, which is also `UINT_MAX`. -/
def uint32Max : ℕ := 2 ^ 32 - 1

/-- `MOD_ADLER`. -/
def modAdler : ℕ := 1000000007

/-- `data`: exactly `DATA_SIZE` bytes. -/
abbrev Payload := {d : Bytes // d.length = dataSize}

/-- `pkt_t`, without the IP header. -/
structure Pkt where
  /-- `sess_seq`. -/
  sessSeq : ℕ
  /-- `checksum`. -/
  checksum : ℕ
  /-- `data`. -/
  data : Payload
  deriving DecidableEq

/-- `adler32`; its variables stay below `2 ^ 32`, and the shift drops what does not. -/
def adler32 (data : Bytes) : ℕ :=
  let r := data.foldl
    (fun r x => ((r.1 + x.toNat) % modAdler, (r.2 + (r.1 + x.toNat) % modAdler) % modAdler)) (1, 0)
  (r.2 <<< 16) % 2 ^ 32 ||| r.1

/-- `checksum`. -/
def checksum (packet : Pkt) : ℕ := adler32 packet.data.1 ^^^ packet.sessSeq

/-- `send` fills in the check value. -/
def send (pkt : Pkt) : Pkt := { pkt with checksum := checksum pkt }

/-- The bit set that is laid over the payload. -/
def Pkt.bit (pkt : Pkt) (k : ℕ) : Bool := getBit pkt.data.1 k

/-- The payload of zeros. -/
def Payload.zero : Payload := ⟨List.replicate dataSize 0, List.length_replicate⟩

/-- Who has sent a packet. -/
inductive Station
  | client
  | server
  deriving DecidableEq

/-- A packet on the air. -/
structure Frame where
  sender : Station
  pkt : Pkt
  deriving DecidableEq

/-- What a step does that matters to the other station. -/
inductive Effect
  | nothing
  /-- The client erases these keys. -/
  | erases (keys : List ℕ)
  /-- The server takes the size from this packet. -/
  | takesSize (f : Frame)
  /-- The server stores the payload of this packet. -/
  | takesChunk (f : Frame)
  deriving DecidableEq

/-! ## The server -/

/-- Where the server's `main` stands: in its receive loop, or in the loop that broadcasts the
end. -/
inductive Phase
  | receiving
  | fin
  deriving DecidableEq

/-- The variables of the server's `main`. -/
structure Server where
  /-- `orig_size`, `UINT_MAX` while unknown. -/
  origSize : ℕ
  /-- `recv_size`. -/
  recvSize : ℕ
  /-- `data_map`. -/
  dataMap : Table ℕ Payload
  /-- `send_pkt`, whose payload is `recvbit`. -/
  sendPkt : Pkt
  /-- `recv_pkt`, which has no value before the first packet. -/
  recvPkt : Option Frame
  /-- The place in `main`. -/
  phase : Phase

/-- The server before its first iteration. -/
def Server.initial : Server where
  origSize := uint32Max
  recvSize := 0
  dataMap := ∅
  sendPkt := ⟨0, 0, Payload.zero⟩
  recvPkt := none
  phase := .receiving

/-- The condition of the receive loop. -/
def Server.continues (sv : Server) : Prop := sv.origSize = uint32Max ∨ sv.recvSize < sv.origSize

instance (sv : Server) : Decidable sv.continues := inferInstanceAs (Decidable (_ ∨ _))

/-- `recvbit[k] = 1`. -/
def Server.mark (sv : Server) (k : ℕ) : Server :=
  { sv with sendPkt := { sv.sendPkt with
    data := ⟨setBit sv.sendPkt.data.1 k, by rw [length_setBit, sv.sendPkt.data.2]⟩ } }

/-- What the loop does with a packet; a bit outside of `recvbit` is undefined. -/
def Server.record (sv : Server) (f : Frame) : Option (Server × Effect) :=
  if 8 * dataSize ≤ f.pkt.sessSeq then none
  else
    let sv := sv.mark f.pkt.sessSeq
    if f.pkt.sessSeq = 0 then
      if sv.origSize = uint32Max then
        -- the first eight bytes of a `data_t`, cut to 32 bits
        some ({ sv with origSize := ofLE (f.pkt.data.1.take 8) % 2 ^ 32 }, .takesSize f)
      else some (sv, .nothing)
    else if f.pkt.sessSeq ∈ sv.dataMap then some (sv, .nothing)
    else some ({ sv with
      dataMap := sv.dataMap.insert f.pkt.sessSeq f.pkt.data
      recvSize := (sv.recvSize + dataSize) % 2 ^ 32 }, .takesChunk f)

/-- The server behind its loop. -/
def Server.finish (sv : Server) : Server :=
  { sv with sendPkt := { sv.sendPkt with sessSeq := uint32Max }, phase := .fin }

/-- One iteration of the loop with `f` in `recv_pkt`; `due` says that the half second has passed.
The server after the test of the loop, what it sends, and the effect. -/
def Server.iterate (sv : Server) (f : Frame) (due : Bool) : Option (Server × List Pkt × Effect) :=
  let sv := { sv with recvPkt := some f }
  if checksum f.pkt = f.pkt.checksum then
    (sv.record f).map fun r =>
      (if r.1.continues then r.1 else r.1.finish, if due then [send r.1.sendPkt] else [], r.2)
  else some (sv, [], .nothing)

/-! ## The client -/

/-- `data_t`: the bytes to send in one packet. -/
structure DataT where
  bytes : Bytes
  fits : bytes.length ≤ dataSize

/-- Where the client's `main` stands: in a round of packets with the entries that it has still to
visit, in `read_resps`, or at one of its two ends. -/
inductive ClientPc
  | sending (todo : List (ℕ × DataT))
  | reading
  | exitFin
  | exitEmpty

/-- The variables of the client's loop. -/
structure Client where
  /-- `data_map`, in the order of its keys. -/
  dataMap : List (ℕ × DataT)
  /-- `s_res`, whose payload is `donebit`; it is zero before the first packet. -/
  sRes : Option Frame
  /-- The place in `main`. -/
  pc : ClientPc

/-- `orig_data`: for each file its number, its size in 32 bits, and as many of its bytes. -/
def origData (files : List Bytes) : Bytes :=
  (files.zipIdx.map fun e =>
    leBytes 4 e.2 ++ leBytes 4 e.1.length ++ e.1.take (e.1.length % 2 ^ 32)).flatten

/-- The `data_t zero` that carries the size: a `size_t` and a null pointer. -/
def zeroData (origSize : ℕ) : DataT :=
  ⟨leBytes 8 origSize ++ List.replicate 8 0, by simp [dataSize, packetSize, headerSize]⟩

/-- Chunk `i` of the data. -/
def chunkData (data : Bytes) (i : ℕ) : DataT := ⟨chunk dataSize data i, length_chunk_le dataSize data i⟩

/-- `data_map` before the loop. -/
def initialMap (data : Bytes) : List (ℕ × DataT) :=
  (0, zeroData data.length) ::
    (chunkIndices dataSize data.length).map fun i => (i + 1, chunkData data i)

/-- The packet that is sent for an entry, zero behind its bytes. -/
def wrap (e : ℕ × DataT) : Pkt := send ⟨e.1, 0, pad dataSize e.2.bytes, length_pad e.2.fits⟩

/-- The client before its first round. -/
def Client.initial (files : List Bytes) : Client where
  dataMap := initialMap (origData files)
  sRes := none
  pc := .sending (initialMap (origData files))

/-- `donebit[k]`. -/
def Client.donebit (cl : Client) (k : ℕ) : Bool :=
  match cl.sRes with
  | some f => f.pkt.bit k
  | none => false

/-- One turn of the round: an entry is sent unless its bit is set. -/
def Client.visit (cl : Client) : Option (Client × List Pkt) :=
  match cl.pc with
  | .sending [] => some ({ cl with pc := .reading }, [])
  | .sending (e :: todo) =>
      some ({ cl with pc := .sending todo }, if cl.donebit e.1 then [] else [wrap e])
  | _ => none

/-- One packet read by `read_resps`. -/
def Client.readResp (cl : Client) (f : Frame) : Option Client :=
  match cl.pc with
  | .reading =>
      if checksum f.pkt = f.pkt.checksum then
        some { cl with
          sRes := some f
          pc := if f.pkt.sessSeq = uint32Max then .exitFin else .reading }
      else some cl
  | _ => none

/-- The end of `read_resps` when nothing has come for a second: the entries whose bit is set are
erased, and the loop goes on unless nothing is left. -/
def Client.eraseDone (cl : Client) : Option (Client × List ℕ) :=
  match cl.pc with
  | .reading =>
      let left := cl.dataMap.filter fun e => !cl.donebit e.1
      some ({ cl with dataMap := left, pc := if left.isEmpty then .exitEmpty else .sending left },
        (cl.dataMap.filter fun e => cl.donebit e.1).map Prod.fst)
  | _ => none

/-! ## Both stations and the air -/

/-- The stations and every packet that has been sent. -/
structure State where
  client : Client
  server : Server
  air : List Frame

/-- What can happen next; a number chooses a packet on the air. -/
inductive Event
  | clientVisit
  | clientRecv (i : ℕ)
  /-- The client's `recv` times out. -/
  | clientTimeout
  | serverRecv (i : ℕ) (due : Bool)
  /-- The server's `recvfrom` times out; its result -1 is true, and the old packet is processed. -/
  | serverTimeout (due : Bool)
  /-- The server broadcasts the end. -/
  | serverFin
  deriving DecidableEq

/-- The packet that an event hands to the server's loop. -/
def State.processed (s : State) : Event → Option Frame
  | .serverRecv i _ => s.air[i]?
  | .serverTimeout _ => s.server.recvPkt
  | _ => none

/-- The packets of a station, put on the air. -/
def State.broadcast (s : State) (sender : Station) (pkts : List Pkt) : State :=
  { s with air := s.air ++ pkts.map fun pkt => ⟨sender, pkt⟩ }

/-- An iteration of the server's loop. -/
def State.serve (s : State) (f : Frame) (due : Bool) : Option (State × Effect) :=
  if s.server.phase = .receiving then
    (s.server.iterate f due).map fun r =>
      (State.broadcast { s with server := r.1 } .server r.2.1, r.2.2)
  else none

/-- What an event does. -/
def next (s : State) : Event → Option (State × Effect)
  | .clientVisit => s.client.visit.map fun r =>
      (State.broadcast { s with client := r.1 } .client r.2, .nothing)
  | .clientRecv i => do
      let f ← s.air[i]?
      let cl ← s.client.readResp f
      return ({ s with client := cl }, .nothing)
  | .clientTimeout => s.client.eraseDone.map fun r => ({ s with client := r.1 }, .erases r.2)
  | .serverRecv i due => (s.processed (.serverRecv i due)).bind fun f => s.serve f due
  | .serverTimeout due => (s.processed (.serverTimeout due)).bind fun f => s.serve f due
  | .serverFin =>
      if s.server.phase = .fin then some (s.broadcast .server [send s.server.sendPkt], .nothing)
      else none

/-- One client that transfers files to one server. -/
def system (files : List Bytes) : Machine State Event Effect where
  init := ⟨Client.initial files, Server.initial, []⟩
  next := next

end BroadcastXdp
