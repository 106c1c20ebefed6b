import Mathlib.Data.Finset.Basic
import BitTorrent.Disk.Manager
import BitTorrent.Peer.Pool

/-!
# The network behaviour

`BitTorrent` of `src/behavior.rs`: the torrent pool, the disk manager, and the queue of events for the
swarm.  Calls of the user and events of the handlers change the pool and queue answers; `poll` hands out
queued events, then drives the pool, then the disk.

* `BehaviourOp`, `step`   the calls from outside, and `poll` cut into its three moves: hand out the head
                          of the queue, one turn of the pool loop, one turn of the disk loop;
* `poll`                  the whole function;
* `poll_run`              a call of `poll` is a run of the three moves.

`none` is a panic, or a call that has not returned within the turns it was followed.
-/

namespace Btt
open Run

/-- the binary form of an address -/
structure Multiaddr where
  bytes : List UInt8
deriving DecidableEq

/-! ## events -/

/-- the events sent to a handler (`src/handler.rs`) -/
inductive BitTorrentHandlerIn where
  | disconnect
  | reset (requestId : RequestId)
  | handshakeReq (handshake : Handshake) (userData : TorrentId)
  | handshakeRes (handshake : Handshake) (requestId : RequestId)
  | bitfieldReq (indexField : BitField) (userData : TorrentId)
  | bitfieldRes (indexField : BitField) (requestId : RequestId)
  | choke (inner : ChokeType)
  | interest (inner : InterestType)
  | getPieceReq (request : PeerRequest) (userData : TorrentId)
  | getPieceRes (piece : Piece) (requestId : RequestId)
  | have_ (index : UInt32)
  | keepAlive
deriving DecidableEq

/-- the events a handler reports; `TorrentErr` is ignored, so its error is left out -/
inductive BitTorrentHandlerEvent where
  | handshakeReq (handshake : Handshake) (requestId : RequestId)
  | handshakeRes (handshake : Handshake) (userData : TorrentId)
  | bitfieldReq (indexField : BitField) (requestId : RequestId)
  | bitfieldRes (indexField : BitField) (userData : TorrentId)
  | getPieceReq (request : PeerRequest) (requestId : RequestId)
  | getPieceRes (piece : Piece) (userData : TorrentId)
  | cancelPiece (request : PeerRequest) (requestId : RequestId)
  | choke (inner : ChokeType)
  | interest (inner : InterestType)
  | have_ (index : UInt32)
  | torrentErr
  | keepAlive (timestamp : Instant)
deriving DecidableEq

structure BitfieldOk where
  torrent : TorrentId
  peer : PeerId
deriving DecidableEq

structure ChokeOk where
  torrent : TorrentId
  peer : PeerId
  oldChokeTy : ChokeType
  newChokeTy : ChokeType
deriving DecidableEq

structure HaveOk where
  peer : PeerId
  piece : UInt32
deriving DecidableEq

inductive HaveErr where
  | notFound (peer : PeerId)
  | invalidIndex (index : UInt32)
deriving DecidableEq

structure BlockOk where
  peer : PeerId
  blockMetadata : BlockMetadata
  torrent : TorrentId
deriving DecidableEq

/-- `SeedBlockOk::CancelledByRemote` -/
structure CancelledByRemote where
  peer : PeerId
  blockMetadata : BlockMetadata
deriving DecidableEq

inductive SeedBlockErr where
  | remoteNotAllowed (peer : PeerId) (blockMetadata : BlockMetadata)
  | notFound (peer : PeerId)
deriving DecidableEq

inductive TorrentAddedOk where
  | newSeed (torrent : TorrentId) (state : TorrentState)
  | newLeech (torrent : TorrentId) (state : TorrentState)
deriving DecidableEq

/-- `TorrentAddedErr::AlreadyExist` -/
structure AlreadyExist where
  infoHash : ShaHash
  metaInfo : MetaInfo
deriving DecidableEq

inductive BitTorrentEvent where
  | handshakeResult (res : Except HandshakeError PeerId)
  | leechBlockResult (res : Except BlockErr BlockOk)
  | bitfieldResult (res : Except PeerError BitfieldOk)
  | seedBlockResult (res : Except SeedBlockErr CancelledByRemote)
  | diskResult (msg : DiskMessageOut)
  | keepAliveResult (res : Except PeerError KeepAliveOk)
  | chokeResult (res : Except PeerError ChokeOk)
  | interestResult (res : Except PeerError InterestOk)
  | haveResult (res : Except HaveErr HaveOk)
  | torrentFinished (torrent : TorrentId)
  | torrentAddedResult (res : Except AlreadyExist TorrentAddedOk)

inductive NetworkBehaviourAction where
  | dialPeer (peer : PeerId)
  | sendEvent (peer : PeerId) (event : BitTorrentHandlerIn)
  | generateEvent (event : BitTorrentEvent)

inductive ConnectedPoint where
  | dialer
  | listener (sendBackAddr : Multiaddr)

/-! ## the state -/

structure BitTorrent (File World : Type) where
  diskManager : DiskManager File World
  torrents : TorrentPool
  connectedPeers : Finset PeerId
  queuedEvents : List NetworkBehaviourAction
  knownPeers : AList fun _ : PeerId => Multiaddr × Finset ShaHash
  pendingHandshakes : AList fun _ : PeerId => ShaHash

/-- what one turn of the pool loop reads from outside -/
structure PoolEnv where
  walk : Walk
  clock : Instant
  env : TorrentId → PollEnv

/-- what one turn of the disk loop reads from outside: the orders of the files of a torrent and of its
peers, and the rounds the disk manager is followed -/
structure DiskEnv where
  files : Arrangement FileEntry
  peers : Arrangement PeerId
  rounds : Nat

/-- how a turn of a loop ends -/
inductive Turn where
  | again
  | leave
  | answer (action : NetworkBehaviourAction)

def Turn.action : Turn → Option NetworkBehaviourAction
  | .answer action => some action
  | _ => none

namespace BitTorrent
variable {File World Err : Type}

/-- `random` is the peer hash drawn if the configuration has none -/
def withConfig (random : ShaHash) (world : World) (config : BitTorrentConfig) : BitTorrent File World where
  diskManager := .withCapacity world 100
  torrents := .new random config
  connectedPeers := ∅
  queuedEvents := []
  knownPeers := ∅
  pendingHandshakes := ∅

def queue (b : BitTorrent File World) (actions : List NetworkBehaviourAction) : BitTorrent File World :=
  { b with queuedEvents := b.queuedEvents ++ actions }

/-! ## calls of the user -/

def addAddressTorrents (b : BitTorrent File World) (peer : PeerId) (address : Multiaddr)
    (torrents : List ShaHash) : Bool × BitTorrent File World :=
  match b.knownPeers.lookup peer with
  | some (_, known) =>
    (true, { b with knownPeers := b.knownPeers.insert peer (address, known ∪ torrents.toFinset) })
  | none => (false, { b with knownPeers := b.knownPeers.insert peer (address, torrents.toFinset) })

def handshakeKnownPeer (b : BitTorrent File World) (peer : PeerId) (torrent : ShaHash) :
    Except (PeerId × ShaHash) Unit × BitTorrent File World :=
  if peer ∈ b.pendingHandshakes ∨ peer ∈ b.connectedPeers then (.error (peer, torrent), b)
  else if peer ∈ b.knownPeers then
    (.ok (),
      { b.queue [.dialPeer peer] with pendingHandshakes := b.pendingHandshakes.insert peer torrent })
  else (.error (peer, torrent), b)

def sendHandshake (b : BitTorrent File World) (w : Walk) (infoHash : ShaHash) (peer : PeerId) :
    BitTorrent File World :=
  match b.torrents.getForInfoHash w infoHash with
  | some torrent =>
    b.queue [.sendEvent peer (.handshakeReq (.new infoHash b.torrents.localPeerHash) torrent.id)]
  | none => b.queue [.generateEvent (.handshakeResult (.error (.infoHashNotFound peer infoHash)))]

/-- the answer to a change of the client's choke -/
def answerChoke (b : BitTorrent File World) (peer : PeerId) (choke : ChokeType) :
    Option TorrentId × TorrentPool → BitTorrent File World
  | (some _, pool) => { b with torrents := pool }.queue [.sendEvent peer (.choke choke)]
  | (none, pool) =>
    { b with torrents := pool }.queue [.generateEvent (.chokeResult (.error (.notFound peer)))]

def chokePeer (b : BitTorrent File World) (w : Walk) (peer : PeerId) : BitTorrent File World :=
  b.answerChoke peer .choked (b.torrents.chokeRemote w peer)

def unchokePeer (b : BitTorrent File World) (w : Walk) (peer : PeerId) : BitTorrent File World :=
  b.answerChoke peer .unChoked (b.torrents.unchokeRemote w peer)

/-- hand a configured torrent to the pool, and its metainfo to the disk if the pool takes it -/
def addTorrent (b : BitTorrent File World) (torrent : MetaInfo) (config : TorrentConfig)
    (added : TorrentId → TorrentState → TorrentAddedOk) : BitTorrent File World :=
  match b.torrents.addTorrent config with
  | (.ok (id, state), pool) =>
    { b with torrents := pool, diskManager := b.diskManager.addTorrent id torrent }.queue
      [.generateEvent (.torrentAddedResult (.ok (added id state)))]
  | (.error infoHash, pool) =>
    { b with torrents := pool }.queue [.generateEvent (.torrentAddedResult (.error ⟨infoHash, torrent⟩))]

section
variable (sha1 : List UInt8 → ShaHash)

def addLeech (b : BitTorrent File World) (torrent : MetaInfo) (state : TorrentState) :
    Option (BitTorrent File World) :=
  (TorrentConfig.newLeech sha1 torrent state).map fun config => b.addTorrent torrent config .newLeech

def addSeed (b : BitTorrent File World) (torrent : MetaInfo) (state : TorrentState) :
    Option (BitTorrent File World) :=
  (TorrentConfig.newSeed sha1 torrent state).map fun config => b.addTorrent torrent config .newSeed

end

/-! ## events of the swarm -/

def injectConnected (b : BitTorrent File World) (w : Walk) (peer : PeerId) (endpoint : ConnectedPoint) :
    BitTorrent File World :=
  let b :=
    match endpoint with
    | .dialer =>
      match b.pendingHandshakes.lookup peer with
      | some hash => { b with pendingHandshakes := b.pendingHandshakes.erase peer }.sendHandshake w hash peer
      | none => b
    | .listener sendBackAddr => (b.addAddressTorrents peer sendBackAddr []).2
  { b with connectedPeers := insert peer b.connectedPeers }

def injectDisconnected (b : BitTorrent File World) (w : Walk) (peer : PeerId) : BitTorrent File World :=
  { b with torrents := (b.torrents.removePeer w peer).2, connectedPeers := b.connectedPeers.erase peer }

/-- an event of the handler of `peer`; `now` is the clock a new peer starts with -/
def injectNodeEvent (b : BitTorrent File World) (w : Walk) (now : Instant) (peer : PeerId) :
    BitTorrentHandlerEvent → BitTorrent File World
  | .handshakeReq handshake requestId =>
    match b.torrents.onHandshakeRequest w peer handshake now with
    | (.ok handshake, pool) =>
      { b with torrents := pool }.queue [.sendEvent peer (.handshakeRes handshake requestId)]
    | (.error err, pool) =>
      { b with torrents := pool }.queue
        [.generateEvent (.handshakeResult (.error err)), .sendEvent peer .disconnect]
  | .handshakeRes handshake userData =>
    match b.torrents.onHandshakeResponse peer userData handshake now with
    | (.ok (handshake, indexField), pool) =>
      { b with torrents := pool }.queue
        [.sendEvent peer (.bitfieldReq indexField userData), .generateEvent (.handshakeResult (.ok handshake))]
    | (.error e, pool) => { b with torrents := pool }.queue [.generateEvent (.handshakeResult (.error e))]
  | .bitfieldReq indexField requestId =>
    match b.torrents.onBitfieldRequest w peer indexField with
    | (some indexField, pool) =>
      { b with torrents := pool }.queue [.sendEvent peer (.bitfieldRes indexField requestId)]
    | (none, pool) => { b with torrents := pool }.queue [.sendEvent peer .disconnect]
  | .bitfieldRes indexField userData =>
    match b.torrents.setPeerBitfield peer userData indexField with
    | (true, pool) =>
      -- an interest message goes out by itself if the remote has something we want
      if pool.isRemoteInteresting userData peer then
        { b with torrents := (pool.setClientInterest userData peer .interested).2 }.queue
          [.generateEvent (.bitfieldResult (.ok ⟨userData, peer⟩)), .sendEvent peer (.interest .interested)]
      else { b with torrents := pool }
    | (false, pool) =>
      { b with torrents := pool }.queue [.generateEvent (.bitfieldResult (.error (.notFound peer)))]
  | .getPieceReq request requestId =>
    match b.torrents.onPieceRequest w peer (.ofRequest request) requestId with
    | (some id, pool) =>
      { b with torrents := pool, diskManager := b.diskManager.readBlock id (.ofRequest request) }
    | (none, pool) =>
      { b with torrents := pool }.queue
        [.sendEvent peer (.reset requestId),
          .generateEvent (.seedBlockResult (.error (.remoteNotAllowed peer (.ofRequest request))))]
  | .getPieceRes piece userData =>
    match b.torrents.onBlockResponse userData peer (.ofPiece piece) with
    | (.ok blockMetadata, pool) =>
      { b with torrents := pool }.queue
        [.generateEvent (.leechBlockResult (.ok ⟨peer, blockMetadata, userData⟩))]
    | (.error err, pool) => { b with torrents := pool }.queue [.generateEvent (.leechBlockResult (.error err))]
  | .cancelPiece request requestId =>
    match b.torrents.onCancelRequest w requestId with
    | (some _, pool) =>
      { b with torrents := pool }.queue
        [.generateEvent (.seedBlockResult (.ok ⟨peer, .ofRequest request⟩))]
    | (none, pool) =>
      { b with torrents := pool }.queue [.generateEvent (.seedBlockResult (.error (.notFound peer)))]
  | .choke inner =>
    match b.torrents.onChokeByRemote w peer inner with
    | (some (torrentId, oldChokeTy), pool) =>
      { b with torrents := pool }.queue
        [.generateEvent (.chokeResult (.ok ⟨torrentId, peer, oldChokeTy, inner⟩))]
    | (none, pool) =>
      { b with torrents := pool }.queue [.generateEvent (.chokeResult (.error (.notFound peer)))]
  | .interest inner =>
    let r := b.torrents.onInterestByRemote w peer inner
    { b with torrents := r.2 }.queue [.generateEvent (.interestResult r.1)]
  | .have_ index =>
    match b.torrents.onRemoteHave w peer index.toNat with
    | (some true, pool) =>
      { b with torrents := pool }.queue [.generateEvent (.haveResult (.ok ⟨peer, index⟩))]
    | (some false, pool) =>
      { b with torrents := pool }.queue [.generateEvent (.haveResult (.error (.invalidIndex index)))]
    | (none, pool) =>
      { b with torrents := pool }.queue [.generateEvent (.haveResult (.error (.notFound peer)))]
  | .keepAlive timestamp =>
    let r := b.torrents.onKeepAliveByRemote w peer timestamp
    { b with torrents := r.2 }.queue [.generateEvent (.keepAliveResult r.1)]
  | .torrentErr => b

/-! ## the poll -/

/-- one turn of the pool loop; nothing is done about a peer that timed out, nor about a piece that
could not be assembled -/
def pollPool (b : BitTorrent File World) (now : Instant) (e : PoolEnv) : Turn × BitTorrent File World :=
  match b.torrents.poll e.walk now e.clock e.env with
  | (.idle, pool) => (.leave, { b with torrents := pool })
  | (.timeout _ _, pool) => (.again, { b with torrents := pool })
  | (.pieceReady (.ok (torrentId, piece)), pool) =>
    (.again, { b with torrents := pool, diskManager := b.diskManager.writeBlock torrentId piece })
  | (.pieceReady (.error _), pool) => (.again, { b with torrents := pool })
  | (.keepAlive _ peer, pool) => (.answer (.sendEvent peer .keepAlive), { b with torrents := pool })
  | (.waiting _, pool) => (.leave, { b with torrents := pool })
  | (.finished torrentId, pool) =>
    (.answer (.generateEvent (.torrentFinished torrentId)), { b with torrents := pool })
  | (.nextBlock block, pool) =>
    (.answer (.sendEvent block.peerId (.getPieceReq block.blockMetadata.toRequest block.torrentId)),
      { b with torrents := pool })

/-- an answer of the disk manager; a failed write is not handled -/
def onDiskMessage (b : BitTorrent File World) (peers : Arrangement PeerId) :
    DiskMessageOut → Turn × BitTorrent File World
  | .torrentSynced id => (.again, b.queue [.generateEvent (.diskResult (.torrentSynced id))])
  | .blockRead torrent block =>
    match b.torrents.onBlockRead torrent block.metadata with
    | (some (peer, requestId), pool) =>
      (.again, { b with torrents := pool }.queue [.sendEvent peer (.getPieceRes block.toPiece requestId)])
    | (none, pool) => (.again, { b with torrents := pool })
  | .pieceWritten torrentId block =>
    match b.torrents.torrents.lookup torrentId with
    | some torrent =>
      (.again, { b with torrents := b.torrents.setPiece torrentId block.metadata.pieceIndex }.queue
        ((peers.run torrent.pieceHandler.peers.keys).map fun peer =>
          .sendEvent peer (.have_ (UInt32.ofNat block.metadata.pieceIndex))))
    | none => (.again, b)
  | .readBlockError id err => (.answer (.generateEvent (.diskResult (.readBlockError id err))), b)
  | .torrentAdded _ => (.again, b)
  | .torrentRemoved _ _ => (.again, b)
  | .torrentError _ _ => (.again, b)
  | .writeBlockError _ _ => (.again, b)
  | .movedTorrent _ _ => (.again, b)

section
variable (fs : FileSystem File World Err) (sha1 : List UInt8 → ShaHash)

/-- one turn of the disk loop -/
def pollDisk (b : BitTorrent File World) (e : DiskEnv) : Option (Turn × BitTorrent File World) :=
  match b.diskManager.poll fs sha1 e.files e.rounds with
  | .ready msg dm => some ({ b with diskManager := dm }.onDiskMessage e.peers msg)
  | .pending dm => some (.leave, { b with diskManager := dm })
  | .panic => none
  | .spinning _ => none

def poolLoop (now : Instant) :
    List PoolEnv → BitTorrent File World → Option (Option NetworkBehaviourAction × BitTorrent File World)
  | [], _ => none
  | e :: es, b =>
    match b.pollPool now e with
    | (.again, b) => poolLoop now es b
    | (.leave, b) => some (none, b)
    | (.answer action, b) => some (some action, b)

def diskLoop :
    List DiskEnv → BitTorrent File World → Option (Option NetworkBehaviourAction × BitTorrent File World)
  | [], _ => none
  | e :: es, b =>
    match b.pollDisk fs sha1 e with
    | none => none
    | some (.again, b) => diskLoop es b
    | some (.leave, b) => some (none, b)
    | some (.answer action, b) => some (some action, b)

/-- the rounds of the outer loop, each with what its two loops read from outside -/
def poll (now : Instant) :
    List (List PoolEnv × List DiskEnv) → BitTorrent File World →
      Option (Poll NetworkBehaviourAction × BitTorrent File World)
  | [], _ => none
  | (pools, disks) :: rounds, b =>
    match b.queuedEvents with
    | event :: events => some (.ready event, { b with queuedEvents := events })
    | [] =>
      match poolLoop now pools b with
      | none => none
      | some (some action, b) => some (.ready action, b)
      | some (none, b) =>
        match diskLoop fs sha1 disks b with
        | none => none
        | some (some action, b) => some (.ready action, b)
        | some (none, b) => if b.queuedEvents.isEmpty then some (.pending, b) else poll now rounds b

end

end BitTorrent

/-! ## the machine -/

inductive BehaviourOp where
  | addAddressTorrents (peer : PeerId) (address : Multiaddr) (torrents : List ShaHash)
  | handshakeKnownPeer (peer : PeerId) (torrent : ShaHash)
  | chokePeer (w : Walk) (peer : PeerId)
  | unchokePeer (w : Walk) (peer : PeerId)
  | addLeech (torrent : MetaInfo) (state : TorrentState)
  | addSeed (torrent : MetaInfo) (state : TorrentState)
  | injectConnected (w : Walk) (peer : PeerId) (endpoint : ConnectedPoint)
  | injectDisconnected (w : Walk) (peer : PeerId)
  | injectNodeEvent (w : Walk) (now : Instant) (peer : PeerId) (event : BitTorrentHandlerEvent)
  | popEvent
  | pollPool (now : Instant) (e : PoolEnv)
  | pollDisk (e : DiskEnv)

/-- the moves of `poll` -/
def BehaviourOp.isPoll : BehaviourOp → Bool
  | .popEvent => true
  | .pollPool _ _ => true
  | .pollDisk _ => true
  | _ => false

namespace BitTorrent
variable {File World Err : Type}

section
variable (fs : FileSystem File World Err) (sha1 : List UInt8 → ShaHash)

def step (b : BitTorrent File World) : BehaviourOp → Option (BitTorrent File World)
  | .addAddressTorrents peer address torrents => some (b.addAddressTorrents peer address torrents).2
  | .handshakeKnownPeer peer torrent => some (b.handshakeKnownPeer peer torrent).2
  | .chokePeer w peer => some (b.chokePeer w peer)
  | .unchokePeer w peer => some (b.unchokePeer w peer)
  | .addLeech torrent state => b.addLeech sha1 torrent state
  | .addSeed torrent state => b.addSeed sha1 torrent state
  | .injectConnected w peer endpoint => some (b.injectConnected w peer endpoint)
  | .injectDisconnected w peer => some (b.injectDisconnected w peer)
  | .injectNodeEvent w now peer event => some (b.injectNodeEvent w now peer event)
  | .popEvent => some { b with queuedEvents := b.queuedEvents.tail }
  | .pollPool now e => some (b.pollPool now e).2
  | .pollDisk e => (b.pollDisk fs sha1 e).map Prod.snd

/-- the machine: after a panic nothing happens any more -/
def next (s : Option (BitTorrent File World)) (op : BehaviourOp) : Option (BitTorrent File World) :=
  s.bind fun b => b.step fs sha1 op

/-- what a move of `poll` hands to the swarm -/
def output (b : BitTorrent File World) : BehaviourOp → Option NetworkBehaviourAction
  | .popEvent => b.queuedEvents.head?
  | .pollPool now e => (b.pollPool now e).1.action
  | .pollDisk e => (b.pollDisk fs sha1 e).bind fun r => r.1.action
  | _ => none

/-- everything a run hands to the swarm -/
def trace : Option (BitTorrent File World) → List BehaviourOp → List NetworkBehaviourAction
  | _, [] => []
  | s, op :: ops => (s.bind fun b => b.output fs sha1 op).toList ++ trace (s.bind fun b => b.step fs sha1 op) ops

end

/-! ## a poll is a run -/

section
variable {fs : FileSystem File World Err} {sha1 : List UInt8 → ShaHash}

theorem next_some (b : BitTorrent File World) (op : BehaviourOp) :
    next fs sha1 (some b) op = b.step fs sha1 op := rfl

/-- an invariant of the steps that do not panic holds of every state reached -/
theorem exec_some {I : BitTorrent File World → Prop}
    (hstep : ∀ b b' op, I b → b.step fs sha1 op = some b' → I b') {b b' : BitTorrent File World} (hb : I b)
    {ops : List BehaviourOp} (h : exec (next fs sha1) (some b) ops = some b') : I b' :=
  exec_inv_some (next fs sha1) (fun _ _ => rfl) hstep hb h

theorem output_of_step_none {b : BitTorrent File World} {op : BehaviourOp} (h : b.step fs sha1 op = none) :
    b.output fs sha1 op = none := by
  cases op with
  | popEvent => cases h
  | pollPool now e => cases h
  | pollDisk e =>
    show (b.pollDisk fs sha1 e).bind _ = none
    rw [Option.map_eq_none_iff.mp h, Option.bind_none]
  | _ => rfl

theorem trace_append (s : Option (BitTorrent File World)) (a c : List BehaviourOp) :
    trace fs sha1 s (a ++ c) = trace fs sha1 s a ++ trace fs sha1 (exec (next fs sha1) s a) c := by
  induction a generalizing s with
  | nil => rfl
  | cons op ops ih =>
    rw [List.cons_append, trace, trace, ih, List.append_assoc]
    rfl

/-- `ops` are moves of `poll` that lead from `b` to `b'` and hand out `out` -/
structure Moves (fs : FileSystem File World Err) (sha1 : List UInt8 → ShaHash) (b : BitTorrent File World)
    (ops : List BehaviourOp) (out : List NetworkBehaviourAction) (b' : BitTorrent File World) : Prop where
  poll : ∀ op ∈ ops, op.isPoll = true
  run : exec (next fs sha1) (some b) ops = some b'
  trace : trace fs sha1 (some b) ops = out

theorem Moves.single {b b' : BitTorrent File World} {op : BehaviourOp} (hop : op.isPoll = true)
    (hstep : b.step fs sha1 op = some b') : Moves fs sha1 b [op] (b.output fs sha1 op).toList b' := by
  refine ⟨?_, hstep, ?_⟩
  · intro o ho
    rw [List.mem_singleton.mp ho]
    exact hop
  · exact List.append_nil _

theorem Moves.trans {a b c : BitTorrent File World} {ops ops' : List BehaviourOp}
    {out out' : List NetworkBehaviourAction} (h : Moves fs sha1 a ops out b) (h' : Moves fs sha1 b ops' out' c) :
    Moves fs sha1 a (ops ++ ops') (out ++ out') c := by
  refine ⟨?_, ?_, ?_⟩
  · intro op hop
    rcases List.mem_append.mp hop with hop | hop
    · exact h.poll op hop
    · exact h'.poll op hop
  · rw [exec_append, h.run, h'.run]
  · rw [trace_append, h.run, h.trace, h'.trace]

theorem poolLoop_run {now : Instant} {es : List PoolEnv} {b b' : BitTorrent File World}
    {out : Option NetworkBehaviourAction} (h : poolLoop now es b = some (out, b')) :
    ∃ ops, Moves fs sha1 b ops out.toList b' := by
  induction es generalizing b with
  | nil => cases h
  | cons e es ih =>
    have hmove : Moves fs sha1 b [.pollPool now e] (b.pollPool now e).1.action.toList (b.pollPool now e).2 :=
      Moves.single rfl rfl
    unfold poolLoop at h
    split at h <;> rename_i hturn <;> rw [hturn] at hmove
    · obtain ⟨ops, hops⟩ := ih h
      exact ⟨_, hmove.trans hops⟩
    · cases h
      exact ⟨_, hmove⟩
    · cases h
      exact ⟨_, hmove⟩

theorem diskLoop_run {es : List DiskEnv} {b b' : BitTorrent File World}
    {out : Option NetworkBehaviourAction} (h : diskLoop fs sha1 es b = some (out, b')) :
    ∃ ops, Moves fs sha1 b ops out.toList b' := by
  induction es generalizing b with
  | nil => cases h
  | cons e es ih =>
    have hmove : ∀ r, b.pollDisk fs sha1 e = some r →
        Moves fs sha1 b [.pollDisk e] r.1.action.toList r.2 := by
      intro r hr
      have hstep : b.step fs sha1 (.pollDisk e) = some r.2 := by
        show (b.pollDisk fs sha1 e).map Prod.snd = _
        rw [hr, Option.map_some]
      have hout : b.output fs sha1 (.pollDisk e) = r.1.action := by
        show (b.pollDisk fs sha1 e).bind _ = _
        rw [hr, Option.bind_some]
      rw [← hout]
      exact Moves.single rfl hstep
    unfold diskLoop at h
    split at h
    · cases h
    · rename_i hturn
      obtain ⟨ops, hops⟩ := ih h
      exact ⟨_, (hmove _ hturn).trans hops⟩
    · rename_i hturn
      cases h
      exact ⟨_, hmove _ hturn⟩
    · rename_i hturn
      cases h
      exact ⟨_, hmove _ hturn⟩

/-- **A poll is a run of its moves** that hands out what the poll returns, and nothing else. -/
theorem poll_run {now : Instant} {rounds : List (List PoolEnv × List DiskEnv)} {b b' : BitTorrent File World}
    {r : Poll NetworkBehaviourAction} (h : poll fs sha1 now rounds b = some (r, b')) :
    ∃ ops, Moves fs sha1 b ops r.toList b' := by
  induction rounds generalizing b with
  | nil => cases h
  | cons round rounds ih =>
    unfold poll at h
    split at h
    · rename_i event events hq
      cases h
      have hmove : Moves fs sha1 b [.popEvent] b.queuedEvents.head?.toList
          { b with queuedEvents := b.queuedEvents.tail } := Moves.single rfl rfl
      rw [hq] at hmove
      exact ⟨_, hmove⟩
    · split at h
      · cases h
      · rename_i action c hpool
        cases h
        exact poolLoop_run hpool
      · rename_i c hpool
        obtain ⟨ops, hops⟩ : ∃ ops, Moves fs sha1 b ops [] c := poolLoop_run hpool
        split at h
        · cases h
        · rename_i action d hdisk
          cases h
          obtain ⟨ops', hops'⟩ := diskLoop_run hdisk
          exact ⟨_, hops.trans hops'⟩
        · rename_i d hdisk
          obtain ⟨ops', hops'⟩ := diskLoop_run hdisk
          split at h
          · cases h
            exact ⟨_, hops.trans hops'⟩
          · obtain ⟨ops'', hops''⟩ := ih h
            exact ⟨_, (hops.trans hops').trans hops''⟩

end

end BitTorrent

end Btt
