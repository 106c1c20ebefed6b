import BitTorrent.Behavior.Ownership
import BitTorrent.Lib.Balance

/-!
# What the behaviour says by itself

Requests for blocks, blocks, news of pieces, heartbeats and the report that a torrent is finished come from the moves
of `poll` alone: no call of the user and no event of a handler queues one.

* `ofCall`, `ofPoll`   the actions that calls queue; the actions that moves of `poll` alone bring;
* `queues_call`, `queues_event`   what a call and what an event queues;
* `news b op`          what the move `op` brings;
* `said_run`           what a run has handed out or queued of these, its moves have brought;
* `news_of_said`       so what it says newly, one of them has brought.
-/

namespace Btt
open Run

/-- what calls of the user and news of connections queue -/
def NetworkBehaviourAction.ofCall : NetworkBehaviourAction → Bool
  | .dialPeer _ => true
  | .sendEvent _ (.handshakeReq _ _) => true
  | .sendEvent _ (.choke _) => true
  | .generateEvent (.handshakeResult _) => true
  | .generateEvent (.chokeResult _) => true
  | .generateEvent (.torrentAddedResult _) => true
  | _ => false

/-- what moves of `poll` alone bring -/
def NetworkBehaviourAction.ofPoll : NetworkBehaviourAction → Bool
  | .sendEvent _ (.getPieceReq _ _) => true
  | .sendEvent _ (.getPieceRes _ _) => true
  | .sendEvent _ (.have_ _) => true
  | .sendEvent _ .keepAlive => true
  | .generateEvent (.torrentFinished _) => true
  | .generateEvent (.diskResult _) => true
  | _ => false

theorem NetworkBehaviourAction.ofPoll_of_ofCall {a : NetworkBehaviourAction} (h : a.ofCall = true) : a.ofPoll = false := by
  cases a with
  | dialPeer peer => rfl
  | sendEvent peer event => cases event <;> first | rfl | cases h
  | generateEvent event => cases event <;> first | rfl | cases h

namespace BitTorrent
variable {File World Err : Type}

section
variable {fs : FileSystem File World Err} {sha1 : List UInt8 → ShaHash} {b b' : BitTorrent File World}

/-! ## calls and events -/

/-- what a call of the user, or news of a connection, queues -/
theorem queues_call {op : BehaviourOp} (hop : op.isPoll = false)
    (hevent : ∀ w now peer event, op ≠ .injectNodeEvent w now peer event) (h : b.step fs sha1 op = some b') :
    ∃ actions, b'.queuedEvents = b.queuedEvents ++ actions ∧ ∀ a ∈ actions, a.ofCall = true := by
  have hnil : ∀ b' : BitTorrent File World, b'.queuedEvents = b.queuedEvents →
      ∃ actions, b'.queuedEvents = b.queuedEvents ++ actions ∧ ∀ a ∈ actions, a.ofCall = true :=
    fun b' e => ⟨[], e.trans (List.append_nil _).symm, List.forall_mem_nil _⟩
  have hone : ∀ {a : NetworkBehaviourAction}, a.ofCall = true → ∀ x ∈ [a], x.ofCall = true := by
    intro a ha x hx
    rw [List.mem_singleton.mp hx]
    exact ha
  have hadd : ∀ torrent config added, ∃ actions,
      (b.addTorrent torrent config added).queuedEvents = b.queuedEvents ++ actions ∧ ∀ a ∈ actions, a.ofCall = true := by
    intro torrent config added
    unfold addTorrent
    split <;> exact ⟨_, rfl, hone rfl⟩
  have hchoke : ∀ peer choke r, ∃ actions,
      (b.answerChoke peer choke r).queuedEvents = b.queuedEvents ++ actions ∧ ∀ a ∈ actions, a.ofCall = true := by
    intro peer choke r
    unfold answerChoke
    split <;> exact ⟨_, rfl, hone rfl⟩
  cases op with
  | addAddressTorrents peer address torrents =>
    cases h
    refine hnil _ ?_
    unfold addAddressTorrents
    split <;> rfl
  | handshakeKnownPeer peer torrent =>
    cases h
    unfold handshakeKnownPeer
    split
    · exact hnil _ rfl
    · split
      · exact ⟨[.dialPeer peer], rfl, hone rfl⟩
      · exact hnil _ rfl
  | chokePeer w peer =>
    cases h
    exact hchoke ..
  | unchokePeer w peer =>
    cases h
    exact hchoke ..
  | addLeech torrent state =>
    obtain ⟨config, -, rfl⟩ := Option.map_eq_some_iff.mp h
    exact hadd ..
  | addSeed torrent state =>
    obtain ⟨config, -, rfl⟩ := Option.map_eq_some_iff.mp h
    exact hadd ..
  | injectConnected w peer endpoint =>
    cases h
    unfold injectConnected
    cases endpoint with
    | dialer =>
      simp only
      split
      · unfold sendHandshake
        split <;> exact ⟨_, rfl, hone rfl⟩
      · exact hnil _ rfl
    | listener address =>
      refine hnil _ ?_
      show (b.addAddressTorrents peer address []).2.queuedEvents = _
      unfold addAddressTorrents
      split <;> rfl
  | injectDisconnected w peer =>
    cases h
    exact hnil _ rfl
  | injectNodeEvent w now peer event => exact (hevent w now peer event rfl).elim
  | popEvent => cases hop
  | pollPool now e => cases hop
  | pollDisk e => cases hop

/-- what an event queues is nothing of these -/
theorem queues_event (b : BitTorrent File World) (w : Walk) (now : Instant) (peer : PeerId)
    (event : BitTorrentHandlerEvent) : ∃ actions,
      (b.injectNodeEvent w now peer event).queuedEvents = b.queuedEvents ++ actions ∧
      ∀ a ∈ actions, a.ofPoll = false := by
  have hnil : ∃ actions, b.queuedEvents = b.queuedEvents ++ actions ∧ ∀ a ∈ actions, a.ofPoll = false :=
    ⟨[], (List.append_nil _).symm, List.forall_mem_nil _⟩
  cases event with
  | torrentErr => exact hnil
  | interest inner => exact ⟨_, rfl, by simp [NetworkBehaviourAction.ofPoll]⟩
  | keepAlive timestamp => exact ⟨_, rfl, by simp [NetworkBehaviourAction.ofPoll]⟩
  | bitfieldRes indexField userData =>
    unfold injectNodeEvent
    simp only
    split
    · split
      · exact ⟨_, rfl, by simp [NetworkBehaviourAction.ofPoll]⟩
      · exact hnil
    · exact ⟨_, rfl, by simp [NetworkBehaviourAction.ofPoll]⟩
  | getPieceReq request requestId =>
    unfold injectNodeEvent
    simp only
    split
    · exact hnil
    · exact ⟨_, rfl, by simp [NetworkBehaviourAction.ofPoll]⟩
  | _ =>
    unfold injectNodeEvent
    simp only
    split <;> exact ⟨_, rfl, by simp [NetworkBehaviourAction.ofPoll]⟩

/-! ## the moves of `poll` -/

end

/-- what an answer of the disk manager makes the behaviour say -/
def messageNews (b : BitTorrent File World) (peers : Arrangement PeerId) : DiskMessageOut → List NetworkBehaviourAction
  | .torrentSynced id => [.generateEvent (.diskResult (.torrentSynced id))]
  | .blockRead torrent block =>
    ((b.torrents.onBlockRead torrent block.metadata).1.map fun r =>
      NetworkBehaviourAction.sendEvent r.1 (.getPieceRes block.toPiece r.2)).toList
  | .pieceWritten torrentId block =>
    (b.torrents.torrents.lookup torrentId).elim [] fun torrent =>
      (peers.run torrent.pieceHandler.peers.keys).map fun peer =>
        .sendEvent peer (.have_ (UInt32.ofNat block.metadata.pieceIndex))
  | .readBlockError id err => [.generateEvent (.diskResult (.readBlockError id err))]
  | _ => []

section
variable (fs : FileSystem File World Err) (sha1 : List UInt8 → ShaHash)

/-- what a step makes the behaviour say, at once or later; handing out what was queued is nothing new -/
def news (b : BitTorrent File World) : BehaviourOp → List NetworkBehaviourAction
  | .pollPool now e => (b.pollPool now e).1.action.toList
  | .pollDisk e => ((b.diskAnswer fs sha1 e).map (b.messageNews e.peers)).getD []
  | _ => []

/-- how much of it passes a test -/
def newsOf (q : NetworkBehaviourAction → Bool) (s : Option (BitTorrent File World)) (op : BehaviourOp) : Nat :=
  s.elim 0 fun b => (b.news fs sha1 op).countP q

end

section
variable {fs : FileSystem File World Err} {sha1 : List UInt8 → ShaHash} {b b' : BitTorrent File World}
  {q : NetworkBehaviourAction → Bool}

theorem queuedEvents_pollPool (b : BitTorrent File World) (now : Instant) (e : PoolEnv) :
    (b.pollPool now e).2.queuedEvents = b.queuedEvents := by
  unfold pollPool
  split <;> rfl

theorem said_onDiskMessage (b : BitTorrent File World) (peers : Arrangement PeerId) (msg : DiskMessageOut) :
    (b.onDiskMessage peers msg).2.queuedEvents ++ (b.onDiskMessage peers msg).1.action.toList
      = b.queuedEvents ++ b.messageNews peers msg := by
  cases msg with
  | blockRead torrent block =>
    unfold onDiskMessage messageNews
    simp only
    split
    · rename_i peer requestId pool h
      rw [h]
      exact List.append_nil _
    · rename_i pool h
      rw [h]
      rfl
  | pieceWritten torrentId block =>
    unfold onDiskMessage messageNews
    simp only
    split
    · rename_i torrent h
      rw [h]
      exact List.append_nil _
    · rename_i h
      rw [h]
      rfl
  | torrentSynced id => exact List.append_nil _
  | _ => rfl

/-- what an answer makes the behaviour hand out at once is among it -/
theorem mem_messageNews_of_action {peers : Arrangement PeerId} {msg : DiskMessageOut} {a : NetworkBehaviourAction}
    (h : (b.onDiskMessage peers msg).1.action = some a) : a ∈ b.messageNews peers msg := by
  cases msg with
  | readBlockError id err =>
    cases h
    exact List.mem_singleton_self _
  | blockRead torrent block =>
    unfold onDiskMessage at h
    simp only at h
    split at h <;> cases h
  | pieceWritten torrentId block =>
    unfold onDiskMessage at h
    simp only at h
    split at h <;> cases h
  | _ => cases h

/-- **One step.**  What it hands out and leaves in the queue is what was there and what is new. -/
theorem said_step (hq : ∀ a, q a = true → a.ofPoll = true) {op : BehaviourOp} (h : b.step fs sha1 op = some b') :
    (b.output fs sha1 op).toList.countP q + b'.queuedEvents.countP q
      = b.queuedEvents.countP q + (b.news fs sha1 op).countP q := by
  -- a step that queues nothing of these, and hands nothing out
  have hquiet : (∃ actions, b'.queuedEvents = b.queuedEvents ++ actions ∧ ∀ a ∈ actions, a.ofPoll = false) →
      b'.queuedEvents.countP q = b.queuedEvents.countP q := by
    rintro ⟨actions, heq, hactions⟩
    have hnone : actions.countP q = 0 := by
      refine List.countP_eq_zero.mpr ?_
      intro a ha hqa
      exact Bool.false_ne_true ((hactions a ha).symm.trans (hq a hqa))
    rw [heq, List.countP_append, hnone, Nat.add_zero]
  cases op with
  | popEvent =>
    cases h
    show b.queuedEvents.head?.toList.countP q + b.queuedEvents.tail.countP q = b.queuedEvents.countP q + 0
    cases b.queuedEvents with
    | nil => rfl
    | cons a events =>
      show [a].countP q + events.countP q = ([a] ++ events).countP q
      rw [List.countP_append]
  | pollPool now e =>
    cases h
    rw [queuedEvents_pollPool, Nat.add_comm]
    rfl
  | pollDisk e =>
    obtain ⟨r, hr, rfl⟩ := Option.map_eq_some_iff.mp h
    rw [output, hr, Option.bind_some, Nat.add_comm, ← List.countP_append, ← List.countP_append, news]
    rcases pollDisk_cases hr with ⟨msg, dm, -, hans, rfl⟩ | ⟨dm, -, hans, rfl⟩
    · rw [hans, said_onDiskMessage]
      rfl
    · rw [hans]
      rfl
  | injectNodeEvent w now peer event =>
    cases h
    have hsame := hquiet (queues_event b w now peer event)
    show 0 + _ = _ + 0
    rw [hsame, Nat.zero_add, Nat.add_zero]
  | _ =>
    obtain ⟨actions, heq, hactions⟩ := queues_call rfl (by rintro _ _ _ _ ⟨⟩) h
    have hsame := hquiet ⟨actions, heq, fun a ha => NetworkBehaviourAction.ofPoll_of_ofCall (hactions a ha)⟩
    show 0 + _ = _ + 0
    rw [hsame, Nat.zero_add, Nat.add_zero]

/-- **A whole run.**  What it has handed out or queued of these is what its moves have brought. -/
theorem said_run (hq : ∀ a, q a = true → a.ofPoll = true) {ops : List BehaviourOp}
    (h : exec (next fs sha1) (some b) ops = some b') :
    (trace fs sha1 (some b) ops).countP q + b'.queuedEvents.countP q
      = b.queuedEvents.countP q + booked (next fs sha1) (newsOf fs sha1 q) (some b) ops := by
  induction ops using List.reverseRecOn generalizing b' with
  | nil =>
    cases h
    exact Nat.add_comm ..
  | append_singleton ops op ih =>
    obtain ⟨c, hc, hstep⟩ := exec_snoc_some h
    have hlast : booked (next fs sha1) (newsOf fs sha1 q) (some c) [op] = (c.news fs sha1 op).countP q :=
      Nat.add_zero _
    have hout : trace fs sha1 (some c) [op] = (c.output fs sha1 op).toList := List.append_nil _
    have h1 := ih hc
    have h2 := said_step hq hstep
    rw [trace_append, hc, List.countP_append, hout, booked_append, hc, hlast]
    omega

end

end BitTorrent

end Btt
