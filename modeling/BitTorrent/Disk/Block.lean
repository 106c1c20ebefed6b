import BitTorrent.Proto.Message
import BitTorrent.Peer.Peer
import BitTorrent.Torrent.MetaInfo

/-!
# Blocks

`BlockMetadata`, `Block` and their conversions from and to the wire types (`src/disk/block.rs`).
`u64` and `usize` are natural numbers; the casts `as u32` of the conversions wrap.
-/

namespace Btt

structure BlockMetadata where
  pieceIndex : Nat
  blockOffset : Nat
  blockLength : Nat
deriving DecidableEq

/-- `From<PeerRequest> for BlockMetadata` -/
def BlockMetadata.ofRequest (r : PeerRequest) : BlockMetadata :=
  ⟨r.index.toNat, r.begin_.toNat, r.length.toNat⟩

/-- `Into<PeerRequest> for BlockMetadata` -/
def BlockMetadata.toRequest (m : BlockMetadata) : PeerRequest :=
  ⟨UInt32.ofNat m.pieceIndex, UInt32.ofNat m.blockOffset, UInt32.ofNat m.blockLength⟩

structure Block where
  metadata : BlockMetadata
  blockData : List UInt8
deriving DecidableEq

def Block.isCorrectLen (b : Block) : Bool := b.blockData.length = b.metadata.blockLength

/-- `From<Piece> for Block` -/
def Block.ofPiece (p : Piece) : Block :=
  ⟨⟨p.index.toNat, p.begin_.toNat, p.block.length⟩, p.block⟩

/-- `Into<Piece> for Block` -/
def Block.toPiece (b : Block) : Piece :=
  ⟨UInt32.ofNat b.metadata.pieceIndex, UInt32.ofNat b.metadata.blockOffset, b.blockData⟩

/-- the errors the torrent code constructs (`src/disk/error.rs`); an I/O error carries its text -/
inductive TorrentError where
  | io (err : String)
  | existingTorrent (info : MetaInfo)
  | badBlock (block : BlockMetadata)
  | badPiece (index : Nat)
  | torrentNotFound (id : TorrentId)
deriving DecidableEq

/-- a block from the wire has the length its metadata says -/
theorem Block.length_ofPiece (p : Piece) :
    (Block.ofPiece p).blockData.length = (Block.ofPiece p).metadata.blockLength := rfl

end Btt
