import BitTorrent.Peer.Piece

/-!
# Torrents and the torrent pool

`Torrent` and `TorrentPool` of `src/peer/torrent.rs`, `TorrentConfig` of `src/peer/builder.rs` and the
result types of `src/behavior.rs` the pool answers with.

The torrents live in a hash map; a method that looks for the torrent of a peer walks the map in an order
`w` of its own (`AList.walk`) and stops at the first torrent that answers.  `poll` reads the clock and
draws, for each torrent it visits, what the piece handler draws.
-/

namespace Btt

inductive TorrentState where
  | active
  | paused
  | stopped
deriving DecidableEq

def TorrentState.isActive : TorrentState → Bool
  | .active => true
  | _ => false

inductive SeedLeechConfig where
  | seedOnly
  | leechOnly
  | seedAndLeech
deriving DecidableEq

def SeedLeechConfig.isLeeching (c : SeedLeechConfig) : Bool := !decide (c = .seedOnly)

inductive HandshakeError where
  | infoHashMismatch (peer : PeerId) (torrent : Option TorrentId)
  | infoHashNotFound (peer : PeerId) (infoHash : ShaHash)
  | invalidPeer (peer : PeerId) (torrent : Option TorrentId)
deriving DecidableEq

inductive PeerError where
  | notFound (peer : PeerId)
deriving DecidableEq

/-- `KeepAliveOk::Remote` -/
structure KeepAliveOk where
  torrent : TorrentId
  peer : PeerId
  oldHeartbeat : Instant
  newHeartbeat : Instant
deriving DecidableEq

inductive InterestOk where
  | interested (peer : PeerId)
  | notInterested (peer : PeerId)
deriving DecidableEq

/-! ## the configuration of a torrent -/

structure TorrentConfig where
  infoHash : ShaHash
  state : TorrentState
  bitfield : BitField
  pieceLength : Nat
  lastPieceLength : Nat
  seedLeech : SeedLeechConfig

section
variable (sha1 : List UInt8 → ShaHash)

/-- `none` is the panic in `last_piece_length` -/
def TorrentConfig.newLeech (torrent : MetaInfo) (state : TorrentState) : Option TorrentConfig :=
  torrent.info.lastPieceLength.map fun lastPieceLength =>
    { infoHash := torrent.infoHash.digest sha1
      state := state
      bitfield := .newAllClear torrent.info.pieces.length
      pieceLength := torrent.info.pieceLength
      lastPieceLength := lastPieceLength
      seedLeech := .seedAndLeech }

def TorrentConfig.newSeed (torrent : MetaInfo) (state : TorrentState) : Option TorrentConfig :=
  torrent.info.lastPieceLength.map fun lastPieceLength =>
    { infoHash := torrent.infoHash.digest sha1
      state := state
      bitfield := .newAllSet torrent.info.pieces.length
      pieceLength := torrent.info.pieceLength
      lastPieceLength := lastPieceLength
      seedLeech := .seedOnly }

end

/-! ## one torrent -/

structure Torrent where
  id : TorrentId
  infoHash : ShaHash
  pieceHandler : TorrentPieceHandler
  seedLeech : SeedLeechConfig
  state : TorrentState

/-- the observable states of a poll -/
inductive TorrentPoolState where
  | idle
  | waiting (torrent : TorrentId)
  | pieceReady (res : Except TorrentError (TorrentId × Block))
  | finished (torrent : TorrentId)
  | keepAlive (torrent : TorrentId) (peer : PeerId)
  | timeout (torrent : TorrentId) (peer : PeerId)
  | nextBlock (next : NextBlock)

namespace Torrent

/-- run a method of the piece handler -/
def handle {α : Type} (t : Torrent) (f : TorrentPieceHandler → α × TorrentPieceHandler) : α × Torrent :=
  ((f t.pieceHandler).1, { t with pieceHandler := (f t.pieceHandler).2 })

def removePeer (t : Torrent) (peer : PeerId) := t.handle (·.removePeer peer)
def addBlock (t : Torrent) (peer : PeerId) (block : Block) := t.handle (·.addBlock peer block)
def setPiece (t : Torrent) (pieceIndex : Nat) : Torrent :=
  { t with pieceHandler := t.pieceHandler.setPiece pieceIndex }
def bitfield (t : Torrent) : BitField := t.pieceHandler.bitfield
def onKeepAliveByRemote (t : Torrent) (peer : PeerId) (heartbeat : Instant) :=
  t.handle (·.setRemoteHeartbeat peer heartbeat)
def onChokeByRemote (t : Torrent) (peer : PeerId) (choke : ChokeType) :=
  t.handle (·.setChokeOnRemote peer choke)
def onInterestByRemote (t : Torrent) (peer : PeerId) (interest : InterestType) :=
  t.handle (·.setInterestOnRemote peer interest)
def setClientInterest (t : Torrent) (peer : PeerId) (interest : InterestType) :=
  t.handle (·.setClientInterest peer interest)
def setChokeForRemote (t : Torrent) (peer : PeerId) (choke : ChokeType) :=
  t.handle (·.setClientChokeForPeer peer choke)

/-- `None` for an untracked peer, and also for a tracked one without a bitfield; nothing changes then -/
def onRemoteHave (t : Torrent) (peer : PeerId) (pieceIndex : Nat) : Option Bool × Torrent :=
  let r := t.handle (·.addPeerPiece peer pieceIndex)
  match r.1.join with
  | some bit => (some bit, r.2)
  | none => (none, t)

def canSeedPieceTo (t : Torrent) (peer : PeerId) (pieceIndex : Nat) : Bool :=
  match t.pieceHandler.peers.lookup peer with
  | some p =>
    t.pieceHandler.hasPiece pieceIndex && p.remoteCanLeech && t.pieceHandler.isReadyToSeedBlock peer
  | none => false

def containsPeer (t : Torrent) (peer : PeerId) : Bool := peer ∈ t.pieceHandler.peers

def isActive (t : Torrent) : Bool := t.state.isActive

/-- heartbeats first, in the order the peers are walked, then the piece handler; `clock` is the instant
read when a `KeepAlive` goes out -/
def poll (t : Torrent) (now clock : Instant) (env : PollEnv) : TorrentPoolState × Torrent :=
  match (env.order.run t.pieceHandler.peers.entries).find? fun e =>
      e.2.isClientTimeout now || e.2.isRemoteTimeout now with
  | some e =>
    if e.2.isClientTimeout now then
      (.keepAlive t.id e.1, (t.handle (·.setClientHeartbeat e.1 clock)).2)
    else (.timeout t.id e.1, t)
  | none =>
    let t' := (t.handle (·.poll env)).2
    match (t.pieceHandler.poll env).1 with
    | .waitingPeers => (.waiting t.id, t')
    | .leechBlock (some block) => (.nextBlock block, t')
    | .leechBlock none => (.waiting t.id, t')
    | .pieceFinished res => (.pieceReady (res.map fun block => (t.id, block)), t')
    | .finished => (.finished t.id, { t' with seedLeech := .seedOnly })
    | .seed => (.idle, t')

/-- the torrent's turn in the poll of the pool; `none` goes on to the next torrent -/
def visit (now clock : Instant) (env : TorrentId → PollEnv) (t : Torrent) : Option TorrentPoolState × Torrent :=
  if t.isActive then
    match t.poll now clock (env t.id) with
    | (.idle, t') => (none, t')
    | (.waiting _, t') => (none, t')
    | (ready, t') => (some ready, t')
  else (none, t)

end Torrent

/-! ## the pool -/

abbrev Torrents := AList fun _ : TorrentId => Torrent

/-- the order in which a method walks the torrents -/
abbrev Walk := Arrangement (Sigma fun _ : TorrentId => Torrent)

structure TorrentPool where
  localPeerHash : ShaHash
  torrents : Torrents
  maxActiveTorrents : Nat
  initialPieceSelectionStrategy : PieceSelection
  nextUniqueTorrent : Nat

/-- what the pool reads of `BitTorrentConfig` -/
structure BitTorrentConfig where
  maxActiveTorrents : Option Nat
  initialPieceSelection : Option PieceSelection
  peerHash : Option ShaHash

/-- `BitTorrentConfig::default` -/
def BitTorrentConfig.default : BitTorrentConfig := ⟨some 5, some .random, none⟩

namespace TorrentPool

/-- `random` is the hash drawn if the configuration has none -/
def new (random : ShaHash) (config : BitTorrentConfig) : TorrentPool where
  localPeerHash := config.peerHash.getD random
  torrents := ∅
  maxActiveTorrents := config.maxActiveTorrents.getD 5
  initialPieceSelectionStrategy := config.initialPieceSelection.getD .random
  nextUniqueTorrent := 0

/-- the state returned is the computed one, the state stored is the configured one -/
def addTorrent (pool : TorrentPool) (torrent : TorrentConfig) :
    Except ShaHash (TorrentId × TorrentState) × TorrentPool :=
  if pool.torrents.vals.any fun x => x.infoHash = torrent.infoHash then (.error torrent.infoHash, pool)
  else
    let state :=
      if torrent.state.isActive then
        if (pool.torrents.vals.filter Torrent.isActive).length < pool.maxActiveTorrents then .active
        else .paused
      else torrent.state
    let id : TorrentId := ⟨pool.nextUniqueTorrent⟩
    let handler := TorrentPieceHandler.new id pool.initialPieceSelectionStrategy torrent.bitfield
      torrent.pieceLength torrent.lastPieceLength
    (.ok (id, state),
      { pool with
        nextUniqueTorrent := pool.nextUniqueTorrent + 1
        torrents := pool.torrents.insert id ⟨id, torrent.infoHash, handler, torrent.seedLeech, torrent.state⟩ })

/-- walk the torrents until one answers; the answer comes with the id of its torrent -/
def walk {α : Type} (pool : TorrentPool) (w : Walk) (f : Torrent → Option α × Torrent) :
    Option (TorrentId × α) × TorrentPool :=
  let r := AList.walk (fun t => ((f t).1.map fun a => (t.id, a), (f t).2)) (w.run pool.torrents.entries)
    pool.torrents
  (r.1, { pool with torrents := r.2 })

/-- change one torrent, if it is in the pool -/
def modify {α : Type} (pool : TorrentPool) (id : TorrentId) (f : Torrent → α × Torrent) :
    Option α × TorrentPool :=
  match pool.torrents.lookup id with
  | some t => (some (f t).1, { pool with torrents := pool.torrents.insert id (f t).2 })
  | none => (none, pool)

def unchokeRemote (pool : TorrentPool) (w : Walk) (peer : PeerId) : Option TorrentId × TorrentPool :=
  let r := pool.walk w (·.setChokeForRemote peer .unChoked)
  (r.1.map Prod.fst, r.2)

def chokeRemote (pool : TorrentPool) (w : Walk) (peer : PeerId) : Option TorrentId × TorrentPool :=
  let r := pool.walk w (·.setChokeForRemote peer .choked)
  (r.1.map Prod.fst, r.2)

/-- can the remote contribute to the torrent's completion? -/
def isRemoteInteresting (pool : TorrentPool) (torrentId : TorrentId) (peer : PeerId) : Bool :=
  match pool.torrents.lookup torrentId with
  | some t =>
    t.seedLeech.isLeeching &&
      match t.pieceHandler.peers.lookup peer with
      | some p => p.isHavingMissingPiecesFor t.bitfield
      | none => false
  | none => false

def setClientInterest (pool : TorrentPool) (torrentId : TorrentId) (peer : PeerId) (interest : InterestType) :
    Option InterestType × TorrentPool :=
  let r := pool.modify torrentId (·.setClientInterest peer interest)
  (r.1.join, r.2)

/-- the first torrent in the walk with the info hash -/
def getForInfoHash (pool : TorrentPool) (w : Walk) (infoHash : ShaHash) : Option Torrent :=
  ((w.run pool.torrents.entries).find? fun e => e.2.infoHash = infoHash).map (·.2)

def isAssociated (pool : TorrentPool) (peer : PeerId) : Bool := pool.torrents.vals.any (·.containsPeer peer)

def onHandshakeRequest (pool : TorrentPool) (w : Walk) (peer : PeerId) (handshake : Handshake)
    (now : Instant) : Except HandshakeError Handshake × TorrentPool :=
  if pool.isAssociated peer then (.error (.invalidPeer peer none), pool)
  else
    let r := pool.walk w fun t =>
      if t.infoHash = handshake.infoHash then
        (some (), { t with pieceHandler := t.pieceHandler.insertPeer peer (.new handshake.peerId now) })
      else (none, t)
    match r.1 with
    | some _ => (.ok (.new handshake.infoHash pool.localPeerHash), r.2)
    | none => (.error (.infoHashMismatch peer none), r.2)

/-- here no check asks whether the peer is associated with a torrent already; the answer is the bitfield
to send -/
def onHandshakeResponse (pool : TorrentPool) (peer : PeerId) (torrentId : TorrentId) (handshake : Handshake)
    (now : Instant) : Except HandshakeError (PeerId × BitField) × TorrentPool :=
  match pool.torrents.lookup torrentId with
  | some t =>
    if t.infoHash = handshake.infoHash then
      (.ok (peer, t.bitfield),
        { pool with
          torrents := pool.torrents.insert torrentId
            { t with pieceHandler := t.pieceHandler.insertPeer peer (.new handshake.peerId now) } })
    else (.error (.infoHashMismatch peer (some torrentId)), pool)
  | none => (.error (.invalidPeer peer (some torrentId)), pool)

def onChokeByRemote (pool : TorrentPool) (w : Walk) (peer : PeerId) (choke : ChokeType) :
    Option (TorrentId × ChokeType) × TorrentPool :=
  pool.walk w (·.onChokeByRemote peer choke)

def onKeepAliveByRemote (pool : TorrentPool) (w : Walk) (peer : PeerId) (newHeartbeat : Instant) :
    Except PeerError KeepAliveOk × TorrentPool :=
  let r := pool.walk w (·.onKeepAliveByRemote peer newHeartbeat)
  match r.1 with
  | some (torrent, oldHeartbeat) => (.ok ⟨torrent, peer, oldHeartbeat, newHeartbeat⟩, r.2)
  | none => (.error (.notFound peer), r.2)

def onInterestByRemote (pool : TorrentPool) (w : Walk) (peer : PeerId) (interest : InterestType) :
    Except PeerError InterestOk × TorrentPool :=
  let r := pool.walk w (·.onInterestByRemote peer interest)
  match r.1 with
  | some _ =>
    match interest with
    | .interested => (.ok (.interested peer), r.2)
    | .notInterested => (.ok (.notInterested peer), r.2)
  | none => (.error (.notFound peer), r.2)

/-- the torrent that takes the request, `none` if no torrent can seed the piece to the peer -/
def onPieceRequest (pool : TorrentPool) (w : Walk) (peer : PeerId) (metadata : BlockMetadata)
    (requestId : RequestId) : Option TorrentId × TorrentPool :=
  let r := pool.walk w fun t =>
    if t.canSeedPieceTo peer metadata.pieceIndex then
      (some (), { t with pieceHandler := t.pieceHandler.insertBlockSeed peer metadata requestId })
    else (none, t)
  (r.1.map Prod.fst, r.2)

def onBlockResponse (pool : TorrentPool) (torrentId : TorrentId) (peer : PeerId) (block : Block) :
    Except BlockErr BlockMetadata × TorrentPool :=
  let r := pool.modify torrentId (·.addBlock peer block)
  (r.1.getD (.error (.notRequested peer block)), r.2)

def onCancelRequest (pool : TorrentPool) (w : Walk) (id : RequestId) :
    Option (PeerId × BlockMetadata) × TorrentPool :=
  let r := pool.walk w fun t => t.handle (·.removePendingSeedByRequest id)
  (r.1.map Prod.snd, r.2)

def onBlockRead (pool : TorrentPool) (torrentId : TorrentId) (block : BlockMetadata) :
    Option (PeerId × RequestId) × TorrentPool :=
  let r := pool.modify torrentId fun t => t.handle (·.clearPendingSeedBlock block)
  (r.1.join, r.2)

def onRemoteHave (pool : TorrentPool) (w : Walk) (peer : PeerId) (pieceIndex : Nat) :
    Option Bool × TorrentPool :=
  let r := pool.walk w (·.onRemoteHave peer pieceIndex)
  (r.1.map Prod.snd, r.2)

def setPeerBitfield (pool : TorrentPool) (peer : PeerId) (torrentId : TorrentId) (bitfield : BitField) :
    Bool × TorrentPool :=
  let r := pool.modify torrentId fun t => t.handle (·.setPeerBitfield peer bitfield)
  (r.1.join.isSome, r.2)

/-- the bitfield of the torrent the peer is tracked on -/
def onBitfieldRequest (pool : TorrentPool) (w : Walk) (peer : PeerId) (bitfield : BitField) :
    Option BitField × TorrentPool :=
  let r := pool.walk w fun t =>
    let r := t.handle (·.setPeerBitfield peer bitfield)
    (r.1.map fun _ => t.bitfield, r.2)
  (r.1.map Prod.snd, r.2)

def removePeer (pool : TorrentPool) (w : Walk) (peer : PeerId) : Option BitTorrentPeer × TorrentPool :=
  let r := pool.walk w (·.removePeer peer)
  (r.1.map Prod.snd, r.2)

/-- `get_mut(id)` and `set_piece` -/
def setPiece (pool : TorrentPool) (torrentId : TorrentId) (pieceIndex : Nat) : TorrentPool :=
  (pool.modify torrentId fun t => ((), t.setPiece pieceIndex)).2

/-- the active torrents one after the other, until one is neither idle nor waiting -/
def poll (pool : TorrentPool) (w : Walk) (now clock : Instant) (env : TorrentId → PollEnv) :
    TorrentPoolState × TorrentPool :=
  let r := pool.walk w (Torrent.visit now clock env)
  ((r.1.map Prod.snd).getD .idle, r.2)

end TorrentPool

/-! ## the machine -/

inductive PoolOp where
  | addTorrent (torrent : TorrentConfig)
  | unchokeRemote (w : Walk) (peer : PeerId)
  | chokeRemote (w : Walk) (peer : PeerId)
  | setClientInterest (torrentId : TorrentId) (peer : PeerId) (interest : InterestType)
  | onHandshakeRequest (w : Walk) (peer : PeerId) (handshake : Handshake) (now : Instant)
  | onHandshakeResponse (peer : PeerId) (torrentId : TorrentId) (handshake : Handshake) (now : Instant)
  | onChokeByRemote (w : Walk) (peer : PeerId) (choke : ChokeType)
  | onKeepAliveByRemote (w : Walk) (peer : PeerId) (newHeartbeat : Instant)
  | onInterestByRemote (w : Walk) (peer : PeerId) (interest : InterestType)
  | onPieceRequest (w : Walk) (peer : PeerId) (metadata : BlockMetadata) (requestId : RequestId)
  | onBlockResponse (torrentId : TorrentId) (peer : PeerId) (piece : Piece)
  | onCancelRequest (w : Walk) (id : RequestId)
  | onBlockRead (torrentId : TorrentId) (block : BlockMetadata)
  | onRemoteHave (w : Walk) (peer : PeerId) (pieceIndex : Nat)
  | setPeerBitfield (peer : PeerId) (torrentId : TorrentId) (bitfield : BitField)
  | onBitfieldRequest (w : Walk) (peer : PeerId) (bitfield : BitField)
  | removePeer (w : Walk) (peer : PeerId)
  | setPiece (torrentId : TorrentId) (pieceIndex : Nat)
  | poll (w : Walk) (now clock : Instant) (env : TorrentId → PollEnv)

namespace TorrentPool

def step (pool : TorrentPool) : PoolOp → TorrentPool
  | .addTorrent torrent => (pool.addTorrent torrent).2
  | .unchokeRemote w peer => (pool.unchokeRemote w peer).2
  | .chokeRemote w peer => (pool.chokeRemote w peer).2
  | .setClientInterest torrentId peer interest => (pool.setClientInterest torrentId peer interest).2
  | .onHandshakeRequest w peer handshake now => (pool.onHandshakeRequest w peer handshake now).2
  | .onHandshakeResponse peer torrentId handshake now =>
    (pool.onHandshakeResponse peer torrentId handshake now).2
  | .onChokeByRemote w peer choke => (pool.onChokeByRemote w peer choke).2
  | .onKeepAliveByRemote w peer newHeartbeat => (pool.onKeepAliveByRemote w peer newHeartbeat).2
  | .onInterestByRemote w peer interest => (pool.onInterestByRemote w peer interest).2
  | .onPieceRequest w peer metadata requestId => (pool.onPieceRequest w peer metadata requestId).2
  | .onBlockResponse torrentId peer piece => (pool.onBlockResponse torrentId peer (Block.ofPiece piece)).2
  | .onCancelRequest w id => (pool.onCancelRequest w id).2
  | .onBlockRead torrentId block => (pool.onBlockRead torrentId block).2
  | .onRemoteHave w peer pieceIndex => (pool.onRemoteHave w peer pieceIndex).2
  | .setPeerBitfield peer torrentId bitfield => (pool.setPeerBitfield peer torrentId bitfield).2
  | .onBitfieldRequest w peer bitfield => (pool.onBitfieldRequest w peer bitfield).2
  | .removePeer w peer => (pool.removePeer w peer).2
  | .setPiece torrentId pieceIndex => pool.setPiece torrentId pieceIndex
  | .poll w now clock env => (pool.poll w now clock env).2

end TorrentPool

end Btt
