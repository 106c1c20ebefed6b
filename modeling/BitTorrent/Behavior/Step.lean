import BitTorrent.Behavior.Behavior
import BitTorrent.Disk.Writes

/-!
# What one step of the behaviour does to the pool and the disk

* `poolOps b op`     the operations of the torrent pool the step `op` performs;
* `step_reacts`      what a call or an event does: to the pool, the queue of events, the disk;
* `torrents_step`    the pool after a step is the pool after these operations;
* `writes_step`      writes to disk come from pieces the pool has ready;
* `Grounded.step`    the pool stays grounded.
-/

namespace Btt
open Run

/-- the answer to a request for a block -/
def NetworkBehaviourAction.isPieceRes : NetworkBehaviourAction → Bool
  | .sendEvent _ (.getPieceRes _ _) => true
  | _ => false

namespace BitTorrent
variable {File World Err : Type}

/-- the remote has something the torrent wants, so the client tells it so -/
def declaresInterest (pool : TorrentPool) (torrentId : TorrentId) (peer : PeerId) (bitfield : BitField) : Bool :=
  (pool.setPeerBitfield peer torrentId bitfield).1 &&
    (pool.setPeerBitfield peer torrentId bitfield).2.isRemoteInteresting torrentId peer

def eventOps (b : BitTorrent File World) (w : Walk) (now : Instant) (peer : PeerId) :
    BitTorrentHandlerEvent → List PoolOp
  | .handshakeReq handshake _ => [.onHandshakeRequest w peer handshake now]
  | .handshakeRes handshake userData => [.onHandshakeResponse peer userData handshake now]
  | .bitfieldReq indexField _ => [.onBitfieldRequest w peer indexField]
  | .bitfieldRes indexField userData =>
    if declaresInterest b.torrents userData peer indexField then
      [.setPeerBitfield peer userData indexField, .setClientInterest userData peer .interested]
    else [.setPeerBitfield peer userData indexField]
  | .getPieceReq request requestId => [.onPieceRequest w peer (.ofRequest request) requestId]
  | .getPieceRes piece userData => [.onBlockResponse userData peer piece]
  | .cancelPiece _ requestId => [.onCancelRequest w requestId]
  | .choke inner => [.onChokeByRemote w peer inner]
  | .interest inner => [.onInterestByRemote w peer inner]
  | .have_ index => [.onRemoteHave w peer index.toNat]
  | .torrentErr => []
  | .keepAlive timestamp => [.onKeepAliveByRemote w peer timestamp]

def messageOps : DiskMessageOut → List PoolOp
  | .blockRead torrent block => [.onBlockRead torrent block.metadata]
  | .pieceWritten torrentId block => [.setPiece torrentId block.metadata.pieceIndex]
  | _ => []

section
variable (fs : FileSystem File World Err) (sha1 : List UInt8 → ShaHash)

/-- the answer of the disk manager to a turn of the disk loop -/
def diskAnswer (b : BitTorrent File World) (e : DiskEnv) : Option DiskMessageOut :=
  match b.diskManager.poll fs sha1 e.files e.rounds with
  | .ready msg _ => some msg
  | _ => none

def poolOps (b : BitTorrent File World) : BehaviourOp → List PoolOp
  | .chokePeer w peer => [.chokeRemote w peer]
  | .unchokePeer w peer => [.unchokeRemote w peer]
  | .addLeech torrent state => ((TorrentConfig.newLeech sha1 torrent state).map PoolOp.addTorrent).toList
  | .addSeed torrent state => ((TorrentConfig.newSeed sha1 torrent state).map PoolOp.addTorrent).toList
  | .injectDisconnected w peer => [.removePeer w peer]
  | .injectNodeEvent w now peer event => b.eventOps w now peer event
  | .pollPool now e => [.poll e.walk now e.clock e.env]
  | .pollDisk e => ((b.diskAnswer fs sha1 e).map messageOps).getD []
  | _ => []

end

/-! ## calls and events -/

/-- the disk manager is left alone, or given one message that is no write -/
def Feeds (dm dm' : DiskManager File World) : Prop :=
  dm' = dm ∨ ∃ msg, dm' = dm.push msg ∧ ∀ t block, msg ≠ .writeBlock t block

/-- `b'` is `b` with the pool `pool`, new events that answer no request for a block, and at most one message
for the disk -/
structure Reacts (b : BitTorrent File World) (pool : TorrentPool) (b' : BitTorrent File World) : Prop where
  torrents : b'.torrents = pool
  events : ∃ actions, b'.queuedEvents = b.queuedEvents ++ actions ∧ ∀ a ∈ actions, a.isPieceRes = false
  disk : Feeds b.diskManager b'.diskManager

section
variable (b : BitTorrent File World) {pool pool' : TorrentPool} (h : pool' = pool)
include h

theorem reacts_pool : Reacts b pool' { b with torrents := pool } :=
  ⟨h.symm, ⟨[], (List.append_nil _).symm, by simp⟩, Or.inl rfl⟩

theorem reacts_push {msg : DiskMessageIn} (hmsg : ∀ t block, msg ≠ .writeBlock t block) :
    Reacts b pool' { b with torrents := pool, diskManager := b.diskManager.push msg } :=
  ⟨h.symm, ⟨[], (List.append_nil _).symm, by simp⟩, Or.inr ⟨msg, rfl, hmsg⟩⟩

end

theorem Reacts.queue {b c : BitTorrent File World} {pool : TorrentPool} (h : Reacts b pool c)
    {actions : List NetworkBehaviourAction} (ha : ∀ a ∈ actions, a.isPieceRes = false) :
    Reacts b pool (c.queue actions) := by
  obtain ⟨ht, ⟨old, hq, hold⟩, hd⟩ := h
  refine ⟨ht, ⟨old ++ actions, ?_, ?_⟩, hd⟩
  · show c.queuedEvents ++ actions = _
    rw [hq, List.append_assoc]
  · intro a hmem
    rcases List.mem_append.mp hmem with h | h
    · exact hold a h
    · exact ha a h

theorem reacts_answerChoke (b : BitTorrent File World) (peer : PeerId) (choke : ChokeType)
    (r : Option TorrentId × TorrentPool) : Reacts b r.2 (b.answerChoke peer choke r) := by
  unfold answerChoke
  split <;> exact (reacts_pool b rfl).queue (by simp [NetworkBehaviourAction.isPieceRes])

theorem reacts_addTorrent (b : BitTorrent File World) (torrent : MetaInfo) (config : TorrentConfig)
    (added : TorrentId → TorrentState → TorrentAddedOk) :
    Reacts b (b.torrents.step (.addTorrent config)) (b.addTorrent torrent config added) := by
  unfold addTorrent
  split <;> rename_i h
  · refine (reacts_push b (congrArg Prod.snd h) ?_).queue (by simp [NetworkBehaviourAction.isPieceRes])
    exact fun _ _ => nofun
  · exact (reacts_pool b (congrArg Prod.snd h)).queue (by simp [NetworkBehaviourAction.isPieceRes])

theorem reacts_injectConnected (b : BitTorrent File World) (w : Walk) (peer : PeerId)
    (endpoint : ConnectedPoint) : Reacts b b.torrents (b.injectConnected w peer endpoint) := by
  unfold injectConnected
  cases endpoint with
  | dialer =>
    simp only
    split
    · unfold sendHandshake
      split <;> exact ⟨rfl, ⟨[_], rfl, by simp [NetworkBehaviourAction.isPieceRes]⟩, Or.inl rfl⟩
    · exact ⟨rfl, ⟨[], (List.append_nil _).symm, by simp⟩, Or.inl rfl⟩
  | listener addr =>
    simp only
    unfold addAddressTorrents
    split <;> exact ⟨rfl, ⟨[], (List.append_nil _).symm, by simp⟩, Or.inl rfl⟩

theorem reacts_injectNodeEvent (b : BitTorrent File World) (w : Walk) (now : Instant) (peer : PeerId)
    (event : BitTorrentHandlerEvent) :
    Reacts b (exec TorrentPool.step b.torrents (b.eventOps w now peer event))
      (b.injectNodeEvent w now peer event) := by
  cases event with
  | bitfieldRes indexField userData =>
    unfold injectNodeEvent
    simp only
    split
    · rename_i pool h
      have hpool : b.torrents.step (.setPeerBitfield peer userData indexField) = pool := congrArg Prod.snd h
      split
      · rename_i hint
        refine (reacts_pool b ?_).queue (by simp [NetworkBehaviourAction.isPieceRes])
        rw [eventOps, declaresInterest, h, if_pos (by rw [hint]; rfl), ← hpool]
        rfl
      · rename_i hint
        refine reacts_pool b ?_
        rw [eventOps, declaresInterest, h, Bool.eq_false_iff.mpr hint]
        exact hpool
    · rename_i pool h
      refine (reacts_pool b ?_).queue (by simp [NetworkBehaviourAction.isPieceRes])
      rw [eventOps, declaresInterest, h]
      exact congrArg Prod.snd h
  | getPieceReq request requestId =>
    unfold injectNodeEvent
    simp only
    split <;> rename_i h
    · refine reacts_push b (congrArg Prod.snd h) ?_
      exact fun _ _ => nofun
    · exact (reacts_pool b (congrArg Prod.snd h)).queue (by simp [NetworkBehaviourAction.isPieceRes])
  | torrentErr => exact reacts_pool b rfl
  | interest inner => exact (reacts_pool b rfl).queue (by simp [NetworkBehaviourAction.isPieceRes])
  | keepAlive timestamp => exact (reacts_pool b rfl).queue (by simp [NetworkBehaviourAction.isPieceRes])
  | _ =>
    unfold injectNodeEvent
    simp only
    split <;> rename_i h <;>
      exact (reacts_pool b (congrArg Prod.snd h)).queue (by simp [NetworkBehaviourAction.isPieceRes])

/-! ## the moves of `poll` -/

theorem torrents_pollPool (b : BitTorrent File World) (now : Instant) (e : PoolEnv) :
    (b.pollPool now e).2.torrents = b.torrents.step (.poll e.walk now e.clock e.env) := by
  show _ = (b.torrents.poll e.walk now e.clock e.env).2
  unfold pollPool
  split <;> rename_i h <;> rw [h]

/-- a turn of the pool loop gives the disk manager the piece that is ready, if there is one -/
theorem diskManager_pollPool (b : BitTorrent File World) (now : Instant) (e : PoolEnv) :
    (b.pollPool now e).2.diskManager = b.diskManager ∨
      ∃ t block, (b.torrents.poll e.walk now e.clock e.env).1 = .pieceReady (.ok (t, block)) ∧
        (b.pollPool now e).2.diskManager = b.diskManager.writeBlock t block := by
  unfold pollPool
  split
  · exact Or.inl rfl
  · exact Or.inl rfl
  · rename_i t block pool h
    exact Or.inr ⟨t, block, by rw [h], rfl⟩
  all_goals exact Or.inl rfl

theorem torrents_onDiskMessage (b : BitTorrent File World) (peers : Arrangement PeerId) (msg : DiskMessageOut) :
    (b.onDiskMessage peers msg).2.torrents = exec TorrentPool.step b.torrents (messageOps msg) := by
  cases msg with
  | blockRead torrent block =>
    unfold onDiskMessage
    simp only
    split <;> rename_i h <;> exact (congrArg Prod.snd h).symm
  | pieceWritten torrentId block =>
    unfold onDiskMessage
    simp only
    split
    · rfl
    · rename_i h
      show b.torrents = (b.torrents.modify torrentId _).2
      rw [TorrentPool.modify, h]
  | _ => rfl

theorem diskManager_onDiskMessage (b : BitTorrent File World) (peers : Arrangement PeerId)
    (msg : DiskMessageOut) : (b.onDiskMessage peers msg).2.diskManager = b.diskManager := by
  cases msg with
  | blockRead torrent block =>
    unfold onDiskMessage
    simp only
    split <;> rfl
  | pieceWritten torrentId block =>
    unfold onDiskMessage
    simp only
    split <;> rfl
  | _ => rfl

/-! ## one step -/

section
variable {fs : FileSystem File World Err} {sha1 : List UInt8 → ShaHash} {b b' : BitTorrent File World}

/-- a turn of the disk loop: the manager answered and the answer was handled, or it had nothing -/
theorem pollDisk_cases {e : DiskEnv} {r : Turn × BitTorrent File World} (h : b.pollDisk fs sha1 e = some r) :
    (∃ msg dm, b.diskManager.poll fs sha1 e.files e.rounds = .ready msg dm ∧
      b.diskAnswer fs sha1 e = some msg ∧ r = { b with diskManager := dm }.onDiskMessage e.peers msg) ∨
    (∃ dm, b.diskManager.poll fs sha1 e.files e.rounds = .pending dm ∧ b.diskAnswer fs sha1 e = none ∧
      r = (.leave, { b with diskManager := dm })) := by
  unfold pollDisk at h
  unfold diskAnswer
  split at h
  · rename_i msg dm hp
    exact Or.inl ⟨msg, dm, hp, by rw [hp], (Option.some.inj h).symm⟩
  · rename_i dm hp
    exact Or.inr ⟨dm, hp, by rw [hp], (Option.some.inj h).symm⟩
  · cases h
  · cases h

/-- everything but a move of `poll` is a reaction -/
theorem step_reacts {op : BehaviourOp} (hop : op.isPoll = false) (h : b.step fs sha1 op = some b') :
    Reacts b (exec TorrentPool.step b.torrents (b.poolOps fs sha1 op)) b' := by
  cases op with
  | addAddressTorrents peer address torrents =>
    cases h
    unfold addAddressTorrents
    split <;> exact ⟨rfl, ⟨[], (List.append_nil _).symm, by simp⟩, Or.inl rfl⟩
  | handshakeKnownPeer peer torrent =>
    cases h
    unfold handshakeKnownPeer
    split
    · exact reacts_pool b rfl
    · split
      · exact ⟨rfl, ⟨[.dialPeer peer], rfl, by simp [NetworkBehaviourAction.isPieceRes]⟩, Or.inl rfl⟩
      · exact reacts_pool b rfl
  | chokePeer w peer =>
    cases h
    exact reacts_answerChoke ..
  | unchokePeer w peer =>
    cases h
    exact reacts_answerChoke ..
  | addLeech torrent state =>
    obtain ⟨config, hc, rfl⟩ := Option.map_eq_some_iff.mp h
    rw [poolOps, hc]
    exact reacts_addTorrent ..
  | addSeed torrent state =>
    obtain ⟨config, hc, rfl⟩ := Option.map_eq_some_iff.mp h
    rw [poolOps, hc]
    exact reacts_addTorrent ..
  | injectConnected w peer endpoint =>
    cases h
    exact reacts_injectConnected ..
  | injectDisconnected w peer =>
    cases h
    exact ⟨rfl, ⟨[], (List.append_nil _).symm, by simp⟩, Or.inl rfl⟩
  | injectNodeEvent w now peer event =>
    cases h
    exact reacts_injectNodeEvent ..
  | popEvent => cases hop
  | pollPool now e => cases hop
  | pollDisk e => cases hop

theorem torrents_step {op : BehaviourOp} (h : b.step fs sha1 op = some b') :
    b'.torrents = exec TorrentPool.step b.torrents (b.poolOps fs sha1 op) := by
  cases op with
  | popEvent =>
    cases h
    rfl
  | pollPool now e =>
    cases h
    exact torrents_pollPool ..
  | pollDisk e =>
    obtain ⟨r, hr, rfl⟩ := Option.map_eq_some_iff.mp h
    rcases pollDisk_cases hr with ⟨msg, dm, -, hans, rfl⟩ | ⟨dm, -, hans, rfl⟩
    · rw [torrents_onDiskMessage, poolOps, hans]
      rfl
    · rw [poolOps, hans]
      rfl
  | _ => exact (step_reacts rfl h).torrents

theorem nextUniqueTorrent_step {op : BehaviourOp} (h : b.step fs sha1 op = some b') :
    b.torrents.nextUniqueTorrent ≤ b'.torrents.nextUniqueTorrent := by
  rw [torrents_step h]
  exact exec_inv (I := fun pool : TorrentPool => b.torrents.nextUniqueTorrent ≤ pool.nextUniqueTorrent)
    (fun pool op hI => hI.trans (pool.nextUniqueTorrent_step op)) (Nat.le_refl _) _

/-- writes stay among the torrents of `W`, if the pieces that get ready are of such torrents -/
theorem writes_step {W : TorrentId → Prop} {op : BehaviourOp} (hW : b.diskManager.Writes W)
    (hready : ∀ now e t block, op = .pollPool now e →
      (b.torrents.poll e.walk now e.clock e.env).1 = .pieceReady (.ok (t, block)) → W t)
    (h : b.step fs sha1 op = some b') : b'.diskManager.Writes W := by
  have hfeeds : Feeds b.diskManager b'.diskManager → b'.diskManager.Writes W := by
    rintro (e | ⟨msg, e, hmsg⟩) <;> rw [e]
    · exact hW
    · exact hW.push fun t block hm => (hmsg t block hm).elim
  cases op with
  | popEvent =>
    cases h
    exact hW
  | pollPool now e =>
    cases h
    rcases diskManager_pollPool b now e with hsame | ⟨t, block, hr, hpush⟩
    · rw [hsame]
      exact hW
    · rw [hpush]
      refine hW.push ?_
      rintro _ _ ⟨⟩
      exact hready now e t block rfl hr
  | pollDisk e =>
    obtain ⟨r, hr, rfl⟩ := Option.map_eq_some_iff.mp h
    have hpoll := DiskManager.poll_writes fs sha1 e.files e.rounds hW
    rcases pollDisk_cases hr with ⟨msg, dm, hp, -, rfl⟩ | ⟨dm, hp, -, rfl⟩
    · rw [hp] at hpoll
      rw [diskManager_onDiskMessage]
      exact hpoll.1
    · rw [hp] at hpoll
      exact hpoll
  | _ => exact hfeeds (step_reacts rfl h).disk

theorem diskAnswer_writes {W : TorrentId → Prop} (hW : b.diskManager.Writes W) {e : DiskEnv}
    {msg : DiskMessageOut} (h : b.diskAnswer fs sha1 e = some msg) : DiskManager.Answers W msg := by
  have hpoll := DiskManager.poll_writes fs sha1 e.files e.rounds hW
  unfold diskAnswer at h
  split at h
  · rename_i msg' dm hp
    cases h
    rw [hp] at hpoll
    exact hpoll.2
  · cases h

/-! ## grounded pools -/

/-- every torrent of the pool is grounded -/
def Grounded (b : BitTorrent File World) : Prop :=
  ∀ id T, b.torrents.torrents.lookup id = some T → b.torrents.Grounded id T

theorem Grounded.step {op : BehaviourOp} (hb : b.Grounded) (h : b.step fs sha1 op = some b') : b'.Grounded := by
  unfold Grounded
  rw [torrents_step h]
  exact exec_inv (I := fun pool : TorrentPool => ∀ id T, pool.torrents.lookup id = some T → pool.Grounded id T)
    (fun pool op hI => TorrentPool.grounded_step op hI) hb _

theorem grounded_withConfig (random : ShaHash) (world : World) (config : BitTorrentConfig) :
    (withConfig random world config : BitTorrent File World).Grounded := by
  intro id T h
  rw [show (withConfig random world config : BitTorrent File World).torrents.torrents = ∅ from rfl,
    AList.lookup_empty] at h
  cases h

end

/-! ## a small instance, for concrete runs -/

def poolTurn : BehaviourOp := .pollPool 0 ⟨.same, 0, fun _ => ⟨.same, .same⟩⟩
def diskTurn : BehaviourOp := .pollDisk ⟨.same, .same, 2⟩

/-- a remote shakes hands with a torrent of one byte, gets interested and is unchoked -/
def guest (peer : PeerId) : List BehaviourOp :=
  [.injectNodeEvent .same 0 peer (.handshakeReq (.new (firstByte []) (.replicate 9)) ⟨0⟩),
    .injectNodeEvent .same 0 peer (.interest .interested), .unchokePeer .same peer]

end BitTorrent

end Btt
