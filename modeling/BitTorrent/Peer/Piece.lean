import BitTorrent.Lib.Maps
import BitTorrent.Lib.Machine
import BitTorrent.Disk.Block

/-!
# The piece handler of a torrent

`PieceBuffer` drives one piece to completion, `TorrentPieceHandler` drives a torrent piece by piece
(`src/peer/piece.rs`).  Vectors are lists, pushed and popped at their end; the hash maps keyed by peers
are `AList`s.  What the code draws from outside, the shuffle of the missing pieces and the order in
which the hash map of peers is walked, is the argument `env` of `poll`.

`HandlerOp` and `step` put every operation the torrent pool performs on a handler into one machine.
-/

namespace Btt

/-- `BitTorrentRequestId`: the inbound substream a request came in on -/
structure RequestId where
  connecUniqueId : Nat
deriving DecidableEq

inductive PieceSelection where
  | random
  | rarest
deriving DecidableEq

inductive BlockErr where
  | notRequested (peer : PeerId) (block : Block)
  | invalidBlock (peer : PeerId) (expected : BlockMetadata) (block : Block)
deriving DecidableEq

structure NextBlock where
  torrentId : TorrentId
  blockMetadata : BlockMetadata
  peerId : PeerId
deriving DecidableEq

/-! ## the buffer of the current piece -/

structure PieceBuffer where
  torrentId : TorrentId
  missingBlocks : List BlockMetadata
  pendingBlocks : AList fun _ : PeerId => BlockMetadata
  pieceIndex : Nat
  blocks : SortedMap Block
  peers : List PeerId
  pieceLength : Nat
  totalBlocks : Nat
  lastBlockSize : Nat

namespace PieceBuffer

/-- 16 KiB per block -/
def blockSize : Nat := 16384

/-- the blocks of a piece: full ones, and a truncated one if the length is no multiple -/
def blocksOf (pieceIndex pieceLength : Nat) : List BlockMetadata :=
  (List.range (pieceLength / blockSize)).map (fun index => ⟨pieceIndex, index * blockSize, blockSize⟩)
    ++ (if pieceLength % blockSize > 0 then
        [⟨pieceIndex, pieceLength - pieceLength % blockSize, pieceLength % blockSize⟩]
      else [])

def new (pieceIndex pieceLength : Nat) (torrentId : TorrentId) (peers : List PeerId) : PieceBuffer where
  torrentId := torrentId
  missingBlocks := blocksOf pieceIndex pieceLength
  pendingBlocks := ∅
  pieceIndex := pieceIndex
  blocks := SortedMap.empty
  peers := peers
  pieceLength := pieceLength
  totalBlocks := (blocksOf pieceIndex pieceLength).length
  lastBlockSize := pieceLength % blockSize

/-- the next block to download, from the last peer that is not busy -/
def next (b : PieceBuffer) : Option NextBlock × PieceBuffer :=
  match b.peers.getLast? with
  | some peer =>
    match b.missingBlocks.getLast? with
    | some block =>
      (some ⟨b.torrentId, block, peer⟩,
        { b with
          peers := b.peers.dropLast
          missingBlocks := b.missingBlocks.dropLast
          pendingBlocks := b.pendingBlocks.insert peer block })
    | none => (none, b)
  | none => (none, b)

/-- a peer in `peers` is taken out there and nowhere else; otherwise its pending block is missing
again -/
def removePeer (b : PieceBuffer) (peer : PeerId) : Option PeerId × PieceBuffer :=
  if peer ∈ b.peers then (some peer, { b with peers := b.peers.erase peer })
  else
    match b.pendingBlocks.lookup peer with
    | some block =>
      (some peer,
        { b with
          pendingBlocks := b.pendingBlocks.erase peer
          missingBlocks := b.missingBlocks ++ [block] })
    | none => (none, b)

def isFullPiece (b : PieceBuffer) : Bool := b.blocks.len = b.totalBlocks

def addBlock (b : PieceBuffer) (peer : PeerId) (block : Block) :
    Except BlockErr BlockMetadata × PieceBuffer :=
  match b.pendingBlocks.lookup peer with
  | some expected =>
    if block.metadata = expected then
      (.ok expected,
        { b with
          pendingBlocks := b.pendingBlocks.erase peer
          blocks := b.blocks.insert block.metadata.blockOffset block
          peers := b.peers ++ [peer] })
    else
      (.error (.invalidBlock peer expected block),
        { b with
          pendingBlocks := b.pendingBlocks.erase peer
          missingBlocks := b.missingBlocks ++ [expected]
          peers := b.peers ++ [peer] })
  | none => (.error (.notRequested peer block), b)

/-- one block out of the buffer: the stored blocks in order of their offsets -/
def tryFinalizePiece (b : PieceBuffer) : Except TorrentError Block :=
  if b.blocks.vals.all Block.isCorrectLen then
    .ok ⟨⟨b.pieceIndex, 0, b.pieceLength⟩, b.blocks.vals.flatMap Block.blockData⟩
  else .error (.badPiece b.pieceIndex)

end PieceBuffer

/-! ## the handler -/

/-- what `TorrentPieceHandler::poll` returns; endgame mode is not implemented -/
inductive HandlerState where
  | waitingPeers
  | leechBlock (next : Option NextBlock)
  | pieceFinished (res : Except TorrentError Block)
  | finished
  | seed

structure TorrentPieceHandler where
  id : TorrentId
  selectionStrategy : PieceSelection
  pieceBuffer : Option PieceBuffer
  pendingSeedBlocks : List (PeerId × RequestId × BlockMetadata)
  bitfield : BitField
  pieceLength : Nat
  lastPieceLength : Nat
  peers : AList fun _ : PeerId => BitTorrentPeer
  finished : Bool

/-- the shuffle `poll` draws, and the order in which it walks the peers -/
structure PollEnv where
  shuffle : Arrangement Nat
  order : Arrangement (Sigma fun _ : PeerId => BitTorrentPeer)

namespace TorrentPieceHandler

def new (id : TorrentId) (selectionStrategy : PieceSelection) (bitfield : BitField)
    (pieceLength lastPieceLength : Nat) : TorrentPieceHandler where
  id := id
  selectionStrategy := selectionStrategy
  pieceBuffer := none
  pendingSeedBlocks := []
  bitfield := bitfield
  pieceLength := pieceLength
  lastPieceLength := lastPieceLength
  peers := ∅
  finished := bitfield.all

/-- a peer that can seed the current piece joins the buffer, unless its id is tracked already -/
def insertPeer (h : TorrentPieceHandler) (id : PeerId) (peer : BitTorrentPeer) : TorrentPieceHandler :=
  { h with
    pieceBuffer := h.pieceBuffer.map fun b =>
      if peer.remoteCanSeedPiece b.pieceIndex = true ∧ id ∉ h.peers then
        { b with peers := b.peers ++ [id] }
      else b
    peers := h.peers.insert id peer }

/-- `mem::replace` on a field of a tracked peer: the old value, `none` if the peer is not tracked -/
def replacePeer {α : Type} (h : TorrentPieceHandler) (id : PeerId) (old : BitTorrentPeer → α)
    (new : BitTorrentPeer → BitTorrentPeer) : Option α × TorrentPieceHandler :=
  match h.peers.lookup id with
  | some p => (some (old p), { h with peers := h.peers.insert id (new p) })
  | none => (none, h)

def setClientChokeForPeer (h : TorrentPieceHandler) (id : PeerId) (choke : ChokeType) :=
  h.replacePeer id (·.clientChoke) ({ · with clientChoke := choke })

def setClientInterest (h : TorrentPieceHandler) (id : PeerId) (interest : InterestType) :=
  h.replacePeer id (·.clientInterest) ({ · with clientInterest := interest })

def setInterestOnRemote (h : TorrentPieceHandler) (id : PeerId) (interest : InterestType) :=
  h.replacePeer id (·.remoteInterest) ({ · with remoteInterest := interest })

def setRemoteHeartbeat (h : TorrentPieceHandler) (id : PeerId) (heartbeat : Instant) :=
  h.replacePeer id (·.remoteHeartbeat) ({ · with remoteHeartbeat := heartbeat })

def setClientHeartbeat (h : TorrentPieceHandler) (id : PeerId) (heartbeat : Instant) :=
  h.replacePeer id (·.clientHeartbeat) ({ · with clientHeartbeat := heartbeat })

/-- `get_peer_mut(id)` and `set_bitfield` -/
def setPeerBitfield (h : TorrentPieceHandler) (id : PeerId) (f : BitField) :=
  h.replacePeer id (·.bitfield) (·.setBitfield f)

/-- `get_peer_mut(id)` and `add_piece` -/
def addPeerPiece (h : TorrentPieceHandler) (id : PeerId) (pieceIndex : Nat) :=
  h.replacePeer id (fun p => (p.addPiece pieceIndex).1) (fun p => (p.addPiece pieceIndex).2)

/-- the remote chokes or unchokes the client; an unchoking peer joins the buffer without any check
whether it is there already -/
def setChokeOnRemote (h : TorrentPieceHandler) (id : PeerId) (choke : ChokeType) :
    Option ChokeType × TorrentPieceHandler :=
  match h.peers.lookup id with
  | some p =>
    let p' := { p with remoteChoke := choke }
    (some p.remoteChoke,
      { h with
        peers := h.peers.insert id p'
        pieceBuffer := h.pieceBuffer.map fun b =>
          match choke with
          | .choked => (b.removePeer id).2
          | .unChoked =>
            if p'.remoteCanSeedPiece b.pieceIndex then { b with peers := b.peers ++ [id] } else b })
  | none => (none, h)

def hasPiece (h : TorrentPieceHandler) (pieceIndex : Nat) : Bool := (h.bitfield.get pieceIndex).getD false

def removePeer (h : TorrentPieceHandler) (id : PeerId) : Option BitTorrentPeer × TorrentPieceHandler :=
  match h.peers.lookup id with
  | some p =>
    (some p,
      { h with
        peers := h.peers.erase id
        pieceBuffer := h.pieceBuffer.map fun b => (b.removePeer id).2 })
  | none => (none, h)

def isReadyToSeedBlock (h : TorrentPieceHandler) (peer : PeerId) : Bool :=
  !h.pendingSeedBlocks.any fun (p, _, _) => p = peer

def insertBlockSeed (h : TorrentPieceHandler) (peer : PeerId) (block : BlockMetadata) (id : RequestId) :
    TorrentPieceHandler :=
  { h with pendingSeedBlocks := h.pendingSeedBlocks ++ [(peer, id, block)] }

/-- take out the first pending entry that satisfies the test -/
def takePendingSeed (h : TorrentPieceHandler) (test : PeerId × RequestId × BlockMetadata → Bool) :
    Option (PeerId × RequestId × BlockMetadata) × TorrentPieceHandler :=
  match h.pendingSeedBlocks.find? test with
  | some e => (some e, { h with pendingSeedBlocks := h.pendingSeedBlocks.eraseP test })
  | none => (none, h)

def removePendingSeedByRequest (h : TorrentPieceHandler) (id : RequestId) :
    Option (PeerId × BlockMetadata) × TorrentPieceHandler :=
  let r := h.takePendingSeed fun (_, i, _) => i = id
  (r.1.map fun (peer, _, block) => (peer, block), r.2)

def clearPendingSeedBlock (h : TorrentPieceHandler) (block : BlockMetadata) :
    Option (PeerId × RequestId) × TorrentPieceHandler :=
  let r := h.takePendingSeed fun (_, _, m) => m = block
  (r.1.map fun (peer, id, _) => (peer, id), r.2)

/-- the piece at the index is owned now -/
def setPiece (h : TorrentPieceHandler) (pieceIndex : Nat) : TorrentPieceHandler :=
  if pieceIndex < h.bitfield.len then { h with bitfield := h.bitfield.set pieceIndex true } else h

def addBlock (h : TorrentPieceHandler) (peer : PeerId) (block : Block) :
    Except BlockErr BlockMetadata × TorrentPieceHandler :=
  match h.pieceBuffer with
  | some b =>
    let r := b.addBlock peer block
    (r.1, { h with pieceBuffer := some r.2 })
  | none => (.error (.notRequested peer block), h)

/-! ### selecting the next piece -/

def missingPieceIndices (h : TorrentPieceHandler) : List Nat :=
  (List.range h.bitfield.len).filter fun i =>
    h.bitfield.get i = some false ∧ h.pieceBuffer.map PieceBuffer.pieceIndex ≠ some i

def pieceLengthAt (h : TorrentPieceHandler) (pieceIndex : Nat) : Nat :=
  if pieceIndex = h.bitfield.len - 1 then h.lastPieceLength else h.pieceLength

/-- the ids of the peers for the piece, collected into an `Option`: `none` as soon as one peer cannot
seed it -/
def seedersOf (h : TorrentPieceHandler) (env : PollEnv) (pieceIndex : Nat) : Option (List PeerId) :=
  (env.order.run h.peers.entries).mapM fun e =>
    if e.2.remoteCanSeedPiece pieceIndex then some e.1 else none

def bufferFor (h : TorrentPieceHandler) (pieceIndex : Nat) (peers : List PeerId) : PieceBuffer :=
  PieceBuffer.new pieceIndex (h.pieceLengthAt pieceIndex) h.id peers

def nextRandomPiece (h : TorrentPieceHandler) (env : PollEnv) : Option PieceBuffer :=
  (env.shuffle.run h.missingPieceIndices).findSome? fun i =>
    (h.seedersOf env i).map fun peers => h.bufferFor i peers

/-- the loop over the shuffled missing pieces; `acc` is the rarest piece so far with its peers -/
def rarestLoop (h : TorrentPieceHandler) (env : PollEnv) :
    List Nat → Option (Nat × List PeerId) → Option (Nat × List PeerId)
  | [], acc => acc
  | i :: is, acc =>
    match h.seedersOf env i with
    | some peers =>
      if peers.length = 1 then some (i, peers)
      else
        match acc with
        | some (_, rarest) =>
          if peers.length < rarest.length then rarestLoop h env is (some (i, peers))
          else rarestLoop h env is acc
        | none => rarestLoop h env is (some (i, peers))
    | none => rarestLoop h env is acc

def nextLeastCommonPiece (h : TorrentPieceHandler) (env : PollEnv) : Option PieceBuffer :=
  if h.peers.vals.any BitTorrentPeer.remoteCanSeed then
    (h.rarestLoop env (env.shuffle.run h.missingPieceIndices) none).map fun (i, peers) =>
      h.bufferFor i peers
  else none

def nextPieceBuffer (h : TorrentPieceHandler) (env : PollEnv) : Option PieceBuffer :=
  match h.selectionStrategy with
  | .random => h.nextRandomPiece env
  | .rarest => h.nextLeastCommonPiece env

def poll (h : TorrentPieceHandler) (env : PollEnv) : HandlerState × TorrentPieceHandler :=
  match h.pieceBuffer with
  | some b =>
    if b.isFullPiece then
      let h' := { h with pieceBuffer := none }
      match b.tryFinalizePiece with
      | .ok block => (.pieceFinished (.ok block), h'.setPiece block.metadata.pieceIndex)
      | .error e => (.pieceFinished (.error e), h')
    else (.leechBlock b.next.1, { h with pieceBuffer := some b.next.2 })
  | none =>
    if h.finished then (.seed, h)
    else if h.bitfield.all then (.finished, { h with finished := true })
    else
      match h.nextPieceBuffer env with
      | some b => (.leechBlock b.next.1, { h with pieceBuffer := some b.next.2 })
      | none => (.waitingPeers, h)

end TorrentPieceHandler

/-! ## the machine -/

inductive HandlerOp where
  | insertPeer (id : PeerId) (peer : BitTorrentPeer)
  | removePeer (id : PeerId)
  | setClientChokeForPeer (id : PeerId) (choke : ChokeType)
  | setClientInterest (id : PeerId) (interest : InterestType)
  | setChokeOnRemote (id : PeerId) (choke : ChokeType)
  | setInterestOnRemote (id : PeerId) (interest : InterestType)
  | setRemoteHeartbeat (id : PeerId) (heartbeat : Instant)
  | setClientHeartbeat (id : PeerId) (heartbeat : Instant)
  | setPeerBitfield (id : PeerId) (f : BitField)
  | addPeerPiece (id : PeerId) (pieceIndex : Nat)
  | insertBlockSeed (peer : PeerId) (block : BlockMetadata) (id : RequestId)
  | removePendingSeedByRequest (id : RequestId)
  | clearPendingSeedBlock (block : BlockMetadata)
  | setPiece (pieceIndex : Nat)
  | addBlock (peer : PeerId) (piece : Piece)
  | poll (env : PollEnv)

namespace TorrentPieceHandler

/-- one operation; blocks come from the wire, through `From<Piece>` -/
def step (h : TorrentPieceHandler) : HandlerOp → TorrentPieceHandler
  | .insertPeer id peer => h.insertPeer id peer
  | .removePeer id => (h.removePeer id).2
  | .setClientChokeForPeer id c => (h.setClientChokeForPeer id c).2
  | .setClientInterest id i => (h.setClientInterest id i).2
  | .setChokeOnRemote id c => (h.setChokeOnRemote id c).2
  | .setInterestOnRemote id i => (h.setInterestOnRemote id i).2
  | .setRemoteHeartbeat id t => (h.setRemoteHeartbeat id t).2
  | .setClientHeartbeat id t => (h.setClientHeartbeat id t).2
  | .setPeerBitfield id f => (h.setPeerBitfield id f).2
  | .addPeerPiece id i => (h.addPeerPiece id i).2
  | .insertBlockSeed peer block id => h.insertBlockSeed peer block id
  | .removePendingSeedByRequest id => (h.removePendingSeedByRequest id).2
  | .clearPendingSeedBlock block => (h.clearPendingSeedBlock block).2
  | .setPiece i => h.setPiece i
  | .addBlock peer piece => (h.addBlock peer (Block.ofPiece piece)).2
  | .poll env => (h.poll env).2

end TorrentPieceHandler

end Btt
