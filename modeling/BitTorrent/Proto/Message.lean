import BitTorrent.Util
import BitTorrent.BitField

/-!
# Peer wire messages

`PeerMessage` and its byte form `asBytes` (`src/proto/message.rs`).  Apart from the handshake a
message is a big-endian length prefix, a one-byte id and a payload; the prefix of a `Bitfield` counts
BITS, all others count bytes.
-/

namespace Btt
open Bytes

structure PeerRequest where
  index : UInt32
  begin_ : UInt32
  length : UInt32
deriving DecidableEq

/-- `src/piece.rs` -/
structure Piece where
  index : UInt32
  begin_ : UInt32
  block : List UInt8
deriving DecidableEq

/-- greatest allowed piece size -/
def blockSizeMax : Nat := 16777216

structure Handshake where
  reserved : ByteArr 8
  infoHash : ShaHash
  peerId : ShaHash
deriving DecidableEq

/-- `Handshake::new`: all reserved bytes zero -/
def Handshake.new (infoHash peerId : ShaHash) : Handshake :=
  ⟨⟨List.replicate 8 0, rfl⟩, infoHash, peerId⟩

/-- the bytes of "BitTorrent protocol" -/
def Handshake.bittorrentIdentifier : List UInt8 :=
  [66, 105, 116, 84, 111, 114, 114, 101, 110, 116, 32, 112, 114, 111, 116, 111, 99, 111, 108]

inductive PeerMessage where
  | keepAlive
  | choke
  | unChoke
  | interested
  | notInterested
  | have_ (index : UInt32)
  | bitfield (indexField : BitField)
  | request (request : PeerRequest)
  | cancel (request : PeerRequest)
  | piece (piece : Piece)
  | handshake (handshake : Handshake)
  | port (port : UInt16)
deriving DecidableEq

namespace PeerMessage

def chokeId : UInt8 := 0
def unchokeId : UInt8 := 1
def interestedId : UInt8 := 2
def notInterestedId : UInt8 := 3
def haveId : UInt8 := 4
def bitfieldId : UInt8 := 5
def requestId : UInt8 := 6
def pieceId : UInt8 := 7
def cancelId : UInt8 := 8
def portId : UInt8 := 9
def handshakeId : UInt8 := 19

/-- the payload of `Request` and `Cancel` -/
def requestBytes (r : PeerRequest) : List UInt8 :=
  writeU32 r.index ++ writeU32 r.begin_ ++ writeU32 r.length

/-- `as_bytes`; writing to a vector never fails -/
def asBytes : PeerMessage → List UInt8
  | keepAlive => writeU32 0
  | choke => writeU32 1 ++ [0]
  | unChoke => writeU32 1 ++ [1]
  | interested => writeU32 1 ++ [2]
  | notInterested => writeU32 1 ++ [3]
  | have_ index => writeU32 5 ++ [4] ++ writeU32 index
  | bitfield f => writeU32 (1 + UInt32.ofNat f.len) ++ [5] ++ f.toBytes
  | request r => writeU32 13 ++ [6] ++ requestBytes r
  | piece p => writeU32 (9 + UInt32.ofNat p.block.length) ++ [7] ++ writeU32 p.index
      ++ writeU32 p.begin_ ++ p.block
  | cancel r => writeU32 13 ++ [8] ++ requestBytes r
  | port p => writeU32 3 ++ [9] ++ writeU16 p
  | handshake h => [19] ++ Handshake.bittorrentIdentifier ++ h.reserved.toList ++ h.infoHash.asRef
      ++ h.peerId.asRef

/-- is this a `Bitfield`? -/
def isBitfield : PeerMessage → Bool
  | bitfield _ => true
  | _ => false

/-- a `Piece` carries at most `BLOCK_SIZE_MAX` bytes -/
def blockFits : PeerMessage → Bool
  | piece p => p.block.length ≤ blockSizeMax
  | _ => true

end PeerMessage

end Btt
