import BitTorrent.Util
import BitTorrent.BitField

/-!
# A remote peer

`BitTorrentPeer` of `src/peer/mod.rs`: what is known about one remote of a torrent.  Instants are
nanoseconds; the send and receive statistics are never read and left out.
-/

namespace Btt

/-- the identity of a libp2p node: the bytes of its multihash -/
structure PeerId where
  multihash : List UInt8
deriving DecidableEq

structure TorrentId where
  val : Nat
deriving DecidableEq

abbrev Instant := Nat

inductive ChokeType where
  | choked
  | unChoked
deriving DecidableEq

inductive InterestType where
  | notInterested
  | interested
deriving DecidableEq

structure BitTorrentPeer where
  bittorrentId : ShaHash
  bitfield : Option BitField
  remoteChoke : ChokeType
  remoteInterest : InterestType
  clientChoke : ChokeType
  clientInterest : InterestType
  remoteHeartbeat : Instant
  clientHeartbeat : Instant
deriving DecidableEq

namespace BitTorrentPeer

/-- a connection starts out choked and not interested; `now` is the clock -/
def new (peerBttId : ShaHash) (now : Instant) : BitTorrentPeer where
  bittorrentId := peerBttId
  bitfield := none
  remoteChoke := .choked
  remoteInterest := .notInterested
  clientChoke := .choked
  clientInterest := .notInterested
  remoteHeartbeat := now
  clientHeartbeat := now

/-- whole seconds from `earlier` to `later` -/
def secsSince (later earlier : Instant) : Nat := (later - earlier) / 1000000000

def isRemoteTimeout (p : BitTorrentPeer) (timestamp : Instant) : Bool :=
  secsSince timestamp p.remoteHeartbeat > 120

def isClientTimeout (p : BitTorrentPeer) (timestamp : Instant) : Bool :=
  secsSince timestamp p.clientHeartbeat > 120

/-- does the peer have pieces that `other` is lacking? -/
def isHavingMissingPiecesFor (p : BitTorrentPeer) (other : BitField) : Bool :=
  match p.bitfield with
  | some f =>
    if f.len ≠ other.len then false
    else (f.inner.zip other.inner).any fun (bit, own) => bit && !own
  | none => false

def hasBitfield (p : BitTorrentPeer) : Bool := p.bitfield.isSome

def hasPiece (p : BitTorrentPeer) (pieceIndex : Nat) : Option Bool :=
  match p.bitfield with
  | some f => f.get pieceIndex
  | none => none

def isRemoteInterested (p : BitTorrentPeer) : Bool := p.remoteInterest = .interested
def isClientUnchokedOnRemote (p : BitTorrentPeer) : Bool := p.remoteChoke = .unChoked
def isClientInterested (p : BitTorrentPeer) : Bool := p.clientInterest = .interested
def isRemoteUnchokedOnClient (p : BitTorrentPeer) : Bool := p.clientChoke = .unChoked

/-- are requests of the client answered by the remote? -/
def remoteCanSeed (p : BitTorrentPeer) : Bool :=
  p.isClientUnchokedOnRemote && p.isClientInterested && p.hasBitfield

/-- are requests of the remote answered by the client? -/
def remoteCanLeech (p : BitTorrentPeer) : Bool :=
  p.isRemoteUnchokedOnClient && p.isRemoteInterested

def remoteCanSeedPiece (p : BitTorrentPeer) (pieceIndex : Nat) : Bool :=
  p.remoteCanSeed && (p.hasPiece pieceIndex).getD false

/-- the piece at the index is owned now; `none` without a bitfield, otherwise whether the index was in
bounds -/
def addPiece (p : BitTorrentPeer) (pieceIndex : Nat) : Option Bool × BitTorrentPeer :=
  match p.bitfield with
  | some f =>
    if pieceIndex < f.len then (some true, { p with bitfield := some (f.set pieceIndex true) })
    else (some false, p)
  | none => (none, p)

def setBitfield (p : BitTorrentPeer) (f : BitField) : BitTorrentPeer := { p with bitfield := some f }

theorem remoteCanSeedPiece_iff (p : BitTorrentPeer) (i : Nat) :
    p.remoteCanSeedPiece i = true ↔ p.remoteChoke = .unChoked ∧ p.clientInterest = .interested ∧
      ∃ f, p.bitfield = some f ∧ f.get i = some true := by
  unfold remoteCanSeedPiece remoteCanSeed isClientUnchokedOnRemote isClientInterested hasBitfield hasPiece
  cases p.bitfield with
  | none => simp
  | some f => simp [Option.getD_eq_iff, and_assoc]

/-- a `Have` never takes a piece away -/
theorem addPiece_remoteCanSeedPiece {p : BitTorrentPeer} {i j : Nat}
    (h : p.remoteCanSeedPiece i = true) : (p.addPiece j).2.remoteCanSeedPiece i = true := by
  rw [remoteCanSeedPiece_iff] at h
  obtain ⟨h1, h2, f, h3, h4⟩ := h
  unfold addPiece
  rw [h3]
  simp only
  split
  · rename_i hj
    rw [remoteCanSeedPiece_iff]
    refine ⟨h1, h2, f.set j true, rfl, ?_⟩
    rw [BitField.get_set]
    by_cases e : j = i
    · rw [if_pos e, if_pos hj]
    · rw [if_neg e]; exact h4
  · rw [remoteCanSeedPiece_iff]
    exact ⟨h1, h2, f, h3, h4⟩

end BitTorrentPeer

end Btt
