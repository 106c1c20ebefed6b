import BitTorrent.Proto.Message

/-!
# The peer wire codec

`PeerWireCodec::decode` and `encode` of `src/proto/codec.rs`.  A call of `decode` on the buffer `src`
is `none` if it panics, otherwise a `Decoded`: what it returned, what it left in the buffer, and how
many more bytes it asked for through `reserve`.

The decoder reads the first byte (19 starts a handshake), then the length prefix (0, 1 and 5 are
special), and only then the id byte; the five branches are the functions `decodeHandshake`,
`decodeFlag`, `decodeHave`, `decodeBitfield` and `decodePayload`.
-/

namespace Btt
open Bytes PeerMessage

structure PeerWireCodec where
  /-- maximum permitted number of bytes per frame -/
  max : Nat

/-- length (4), identifier (1), index (4), offset (4) and the greatest block -/
def PeerWireCodec.default : PeerWireCodec := ⟨4 + 1 + 8 + blockSizeMax⟩

/-- an `io::Error` of kind `InvalidData` -/
structure IoError where
  text : String
deriving DecidableEq

/-- a call of `decode` that returned -/
structure Decoded where
  result : Except IoError (Option PeerMessage)
  src : List UInt8
  reserved : Nat

/-- `Ok(None)` after `reserve(more)` -/
def Decoded.needMore (src : List UInt8) (more : Nat) : Decoded := ⟨.ok none, src, more⟩

/-- `Ok(Some(m))` with `rest` left in the buffer -/
def Decoded.got (m : PeerMessage) (rest : List UInt8) : Decoded := ⟨.ok (some m), rest, 0⟩

/-- `Err`; the buffer stays as it is -/
def Decoded.bad (text : String) (src : List UInt8) : Decoded := ⟨.error ⟨text⟩, src, 0⟩

def decodeHandshake (src : List UInt8) : Option Decoded :=
  if src.length < 68 then some (.needMore src (68 - src.length))
  else do
    let ident ← slice src 1 20
    if ident ≠ Handshake.bittorrentIdentifier then
      some (.bad "Unsupported Handshake Protocol identifier" src)
    else
      let (msg, rest) ← splitTo src 68
      let msg ← advance msg 20
      let reserved ← (slice msg 0 8).bind (ByteArr.tryFrom 8)
      let infoHash ← (slice msg 8 28).bind ShaHash.tryFrom
      let peerId ← (slice msg 28 48).bind ShaHash.tryFrom
      some (.got (.handshake ⟨reserved, infoHash, peerId⟩) rest)

/-- the message of length 1 with this id -/
def flagOf (id : UInt8) : Option PeerMessage :=
  if id = chokeId then some choke
  else if id = unchokeId then some unChoke
  else if id = interestedId then some interested
  else if id = notInterestedId then some notInterested
  else none

/-- length 1 -/
def decodeFlag (src : List UInt8) : Option Decoded :=
  if src.length < 5 then some (.needMore src 0)
  else do
    let id ← src[4]?
    match flagOf id with
    | some m => do
      let rest ← advance src 5
      some (.got m rest)
    | none => some (.bad s!"Unexpected Peer Message with length 1 and id {id}" src)

/-- length 5 -/
def decodeHave (src : List UInt8) : Option Decoded :=
  if src.length < 9 then some (.needMore src (9 - src.length))
  else do
    let id ← src[4]?
    if id = haveId then
      let (msg, rest) ← splitTo src 9
      let index ← (slice msg 5 9).bind readU32
      some (.got (.have_ index) rest)
    else some (.bad s!"Unexpected Peer Message with length 5 and id {id}" src)

/-- any other length with the id of a bitfield: the length counts bits -/
def decodeBitfield (length : Nat) (src : List UInt8) : Option Decoded :=
  let numberOfPieces := length - 1
  if numberOfPieces = 0 then some (.bad "Empty BitField message not supported" src)
  else
    let bitfieldBytesLen := numberOfPieces / 8 + (if numberOfPieces % 8 > 0 then 1 else 0)
    let msgBytesLength := bitfieldBytesLen + 5
    if src.length < msgBytesLength then some (.needMore src (msgBytesLength - src.length))
    else do
      let (msg, rest) ← splitTo src msgBytesLength
      let bytes ← sliceFrom msg 5
      some (.got (.bitfield ((BitField.fromBytes bytes).truncate numberOfPieces)) rest)

/-- the three words of a `Request` or a `Cancel` -/
def readRequest (msg : List UInt8) : Option PeerRequest := do
  let index ← (slice msg 5 9).bind readU32
  let begin_ ← (slice msg 9 13).bind readU32
  let length ← (slice msg 13 17).bind readU32
  some ⟨index, begin_, length⟩

def readPiece (msg : List UInt8) : Option Piece := do
  let index ← (slice msg 5 9).bind readU32
  let begin_ ← (slice msg 9 13).bind readU32
  let block ← sliceFrom msg 13
  some ⟨index, begin_, block⟩

/-- any other length and id -/
def decodePayload (length : Nat) (id : UInt8) (src : List UInt8) : Option Decoded :=
  let msgBytesLength := 4 + length
  if src.length < msgBytesLength then some (.needMore src (msgBytesLength - src.length))
  else if id = requestId then do
    let (msg, rest) ← splitTo src msgBytesLength
    let request ← readRequest msg
    some (.got (.request request) rest)
  else if id = pieceId then do
    let (msg, rest) ← splitTo src msgBytesLength
    let piece ← readPiece msg
    some (.got (.piece piece) rest)
  else if id = cancelId then do
    let (msg, rest) ← splitTo src msgBytesLength
    let request ← readRequest msg
    some (.got (.cancel request) rest)
  else if id = portId then do
    let (msg, rest) ← splitTo src msgBytesLength
    let port ← (sliceFrom msg 5).bind readU16
    some (.got (.port port) rest)
  else some (.bad s!"Unexpected Peer Message with length 1 and id {id}" src)

/-- the dispatch on the length prefix -/
def decodeLength (length : Nat) (src : List UInt8) : Option Decoded :=
  if length = 0 then do
    let rest ← advance src 4
    some (.got .keepAlive rest)
  else if length = 1 then decodeFlag src
  else if length = 5 then decodeHave src
  else do
    let id ← src[4]?
    if id = bitfieldId then decodeBitfield length src
    else decodePayload length id src

/-- `PeerWireCodec::decode`; the limit `max` is not read -/
def PeerWireCodec.decode (_ : PeerWireCodec) (src : List UInt8) : Option Decoded :=
  if src.length < 4 then some (.needMore src 0)
  else do
    let b ← src[0]?
    if b = handshakeId then decodeHandshake src
    else
      let length ← (slice src 0 4).bind readU32
      decodeLength length.toNat src

/-- `PeerWireCodec::encode`: the bytes are appended to `dst` -/
def PeerWireCodec.encode (_ : PeerWireCodec) (item : PeerMessage) (dst : List UInt8) : List UInt8 :=
  dst ++ item.asBytes

/-- encode the messages one after another -/
def PeerWireCodec.encodeAll (c : PeerWireCodec) (items : List PeerMessage) (dst : List UInt8) :
    List UInt8 :=
  items.foldl (fun d m => c.encode m d) dst

/-- call `decode` `n` times on one buffer: the results in order, and what is left -/
def PeerWireCodec.decodeTimes (c : PeerWireCodec) :
    Nat → List UInt8 → Option (List (Except IoError (Option PeerMessage)) × List UInt8)
  | 0, src => some ([], src)
  | n + 1, src => do
    let d ← c.decode src
    let (ms, rest) ← c.decodeTimes n d.src
    some (d.result :: ms, rest)

end Btt
