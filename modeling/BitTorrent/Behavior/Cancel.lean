import BitTorrent.Behavior.Step
import BitTorrent.Peer.Seeds

/-!
# Whom a cancel hits

A cancel is looked up by the number of the substream it came in on, over all torrents and all peers.  The
numbers of different connections have nothing to do with each other.

* `pendingUnder h r`    the pending request a handler finds under the number `r`;
* `CancelsOwn`          a cancel of `p` leaves the requests of others alone and removes its request for the block;
* `Cancellable`         what the pool must be like for that;
* `OnePerPeer.step`     no torrent has two pending requests of one peer;
* `cancel_own_iff`      a cancel hits the canceller's own request, whatever the order of the torrents, exactly if
                        the pool is like that;
* `BitTorrent.numbered` every connection numbers its inbound substreams from 0, one for every message.
-/

namespace Btt
open Run

/-! ## handlers -/

namespace TorrentPieceHandler

/-- the pending request with the number `r`, the oldest if there are several -/
def pendingUnder (h : TorrentPieceHandler) (r : RequestId) : Option (PeerId × RequestId × BlockMetadata) :=
  h.pendingSeedBlocks.find? fun (_, i, _) => i = r

/-- the pending requests of other peers -/
def others (h : TorrentPieceHandler) (p : PeerId) : List (PeerId × RequestId × BlockMetadata) :=
  h.pendingSeedBlocks.filter fun e => e.1 ≠ p

/-- no two pending requests are of the same peer -/
def OnePerPeer (h : TorrentPieceHandler) : Prop := (h.pendingSeedBlocks.map Prod.fst).Nodup

theorem pendingSeedBlocks_cancel (h : TorrentPieceHandler) (r : RequestId) :
    (h.removePendingSeedByRequest r).2.pendingSeedBlocks
      = h.pendingSeedBlocks.eraseP fun (_, i, _) => i = r := by
  rw [removePendingSeedByRequest, takePendingSeed_eq]

theorem countP_cancel {h : TorrentPieceHandler} {r : RequestId} {e : PeerId × RequestId × BlockMetadata}
    (he : h.pendingUnder r = some e) (q : PeerId × RequestId × BlockMetadata → Bool) :
    (h.removePendingSeedByRequest r).2.pendingSeedBlocks.countP q + (if q e = true then 1 else 0)
      = h.pendingSeedBlocks.countP q := by
  rw [pendingSeedBlocks_cancel]
  exact countP_eraseP he q

/-- the requests of others are untouched exactly if the one that is found is not among them -/
theorem others_cancel {h : TorrentPieceHandler} {r : RequestId} {e : PeerId × RequestId × BlockMetadata}
    (he : h.pendingUnder r = some e) (p : PeerId) :
    (h.removePendingSeedByRequest r).2.others p = h.others p ↔ e.1 = p := by
  have hsub : ((h.removePendingSeedByRequest r).2.others p).Sublist (h.others p) := by
    unfold others
    rw [pendingSeedBlocks_cancel]
    exact List.eraseP_sublist.filter _
  have hcount := countP_cancel he fun e => e.1 ≠ p
  rw [List.countP_eq_length_filter, List.countP_eq_length_filter] at hcount
  constructor
  · intro heq
    by_contra hne
    rw [if_pos (decide_eq_true hne)] at hcount
    have hlen := congrArg List.length heq
    unfold others at hlen
    omega
  · intro heq
    rw [if_neg (by simp [heq]), Nat.add_zero] at hcount
    exact hsub.eq_of_length hcount

/-- every request but the one that is found stays -/
theorem mem_cancel_of_ne {h : TorrentPieceHandler} {r : RequestId} {e x : PeerId × RequestId × BlockMetadata}
    (he : h.pendingUnder r = some e) (hx : x ∈ h.pendingSeedBlocks) (hne : x ≠ e) :
    x ∈ (h.removePendingSeedByRequest r).2.pendingSeedBlocks := by
  have hcount := countP_cancel he fun y => y = x
  rw [if_neg (by simp [Ne.symm hne]), Nat.add_zero] at hcount
  have hpos : 0 < h.pendingSeedBlocks.countP fun y => y = x :=
    List.countP_pos_iff.mpr ⟨x, hx, decide_eq_true rfl⟩
  obtain ⟨y, hy, heq⟩ := List.countP_pos_iff.mp (hcount ▸ hpos)
  exact of_decide_eq_true heq ▸ hy

/-- the one that is found is gone, and with it every request of its peer -/
theorem OnePerPeer.cancel {h : TorrentPieceHandler} (hone : h.OnePerPeer) {r : RequestId}
    {e x : PeerId × RequestId × BlockMetadata} (he : h.pendingUnder r = some e)
    (hx : x ∈ (h.removePendingSeedByRequest r).2.pendingSeedBlocks) : x.1 ≠ e.1 := by
  intro heq
  have hcount := countP_cancel he fun y => y.1 = e.1
  rw [if_pos (decide_eq_true rfl)] at hcount
  have hle : h.pendingSeedBlocks.countP (fun y => y.1 = e.1) ≤ 1 := by
    have hle := List.nodup_iff_count_le_one.mp hone e.1
    rw [List.count, List.countP_map] at hle
    exact hle
  have hpos : 0 < (h.removePendingSeedByRequest r).2.pendingSeedBlocks.countP fun y => y.1 = e.1 :=
    List.countP_pos_iff.mpr ⟨x, hx, decide_eq_true heq⟩
  omega

/-- only a peer without a pending request gets one -/
theorem OnePerPeer.step {h : TorrentPieceHandler} (hone : h.OnePerPeer) (hop : HandlerOp)
    (hnew : ∀ p m r, hop = .insertBlockSeed p m r → ∀ e ∈ h.pendingSeedBlocks, e.1 ≠ p) :
    (h.step hop).OnePerPeer := by
  unfold OnePerPeer at hone ⊢
  rcases h.step_cases hop with ⟨peers, buffer, e⟩ | ⟨p, m, r, rfl⟩ | ⟨test, e⟩ | ⟨i, rfl⟩ | ⟨env, rfl⟩
  · rw [e]
    exact hone
  · show ((h.pendingSeedBlocks ++ [(p, r, m)]).map Prod.fst).Nodup
    rw [List.map_append, List.map_singleton]
    refine hone.snoc ?_
    intro hp
    obtain ⟨x, hx, hxp⟩ := List.mem_map.mp hp
    exact hnew p m r rfl x hx hxp
  · rw [e]
    exact hone.sublist (List.eraseP_sublist.map _)
  · show ((h.setPiece i).pendingSeedBlocks.map Prod.fst).Nodup
    rw [setPiece_eq]
    exact hone
  · show ((h.poll env).2.pendingSeedBlocks.map Prod.fst).Nodup
    rcases h.poll_cases env with ⟨b, block, -, -, -, e⟩ | ⟨b, err, -, -, -, e⟩ | ⟨b, -, -, e⟩ | ⟨b, -, -, e⟩ |
      ⟨-, st, -, e⟩ | ⟨-, e⟩ <;> rw [e] <;> exact hone

end TorrentPieceHandler

/-! ## the pool -/

namespace TorrentPool
variable {pool : TorrentPool}

/-- what the number `r` finds belongs to `p`; and a pending request of `p` for the block is what it finds, in the
one torrent where it finds something -/
structure Cancellable (pool : TorrentPool) (p : PeerId) (m : BlockMetadata) (r : RequestId) : Prop where
  own : ∀ id T e, pool.torrents.lookup id = some T → T.pieceHandler.pendingUnder r = some e → e.1 = p
  found : ∀ id T e, pool.torrents.lookup id = some T → e ∈ T.pieceHandler.pendingSeedBlocks → e.1 = p → e.2.2 = m →
    T.pieceHandler.pendingUnder r = some e ∧
      ∀ id' T', pool.torrents.lookup id' = some T' → T'.hasPendingSeed r = true → id' = id

theorem cancellable_iff {p : PeerId} {m : BlockMetadata} {r : RequestId} : pool.Cancellable p m r ↔
    (∀ t ∈ pool.torrents.entries, ∀ e ∈ t.2.pieceHandler.pendingUnder r, e.1 = p) ∧
    ∀ t ∈ pool.torrents.entries, ∀ e ∈ t.2.pieceHandler.pendingSeedBlocks, e.1 = p → e.2.2 = m →
      t.2.pieceHandler.pendingUnder r = some e ∧
        ∀ t' ∈ pool.torrents.entries, t'.2.hasPendingSeed r = true → t'.1 = t.1 := by
  constructor
  · intro h
    refine ⟨?_, ?_⟩
    · intro t ht e he
      exact h.own t.1 t.2 e (AList.mem_entries.mp ht) he
    · intro t ht e he hp hm
      obtain ⟨hnum, honly⟩ := h.found t.1 t.2 e (AList.mem_entries.mp ht) he hp hm
      exact ⟨hnum, fun t' ht' => honly t'.1 t'.2 (AList.mem_entries.mp ht')⟩
  · rintro ⟨hown, hfound⟩
    refine ⟨?_, ?_⟩
    · intro id T e hT he
      exact hown ⟨id, T⟩ (AList.mem_entries.mpr hT) e he
    · intro id T e hT he hp hm
      obtain ⟨hnum, honly⟩ := hfound ⟨id, T⟩ (AList.mem_entries.mpr hT) e he hp hm
      exact ⟨hnum, fun id' T' hT' => honly ⟨id', T'⟩ (AList.mem_entries.mpr hT')⟩

instance (pool : TorrentPool) (p : PeerId) (m : BlockMetadata) (r : RequestId) :
    Decidable (pool.Cancellable p m r) := decidable_of_iff' _ cancellable_iff

theorem lookup_onCancelRequest (pool : TorrentPool) (w : Walk) (r : RequestId) (id : TorrentId) :
    (pool.onCancelRequest w r).2.torrents.lookup id
      = if pool.first w (·.hasPendingSeed r) = some id then
          (pool.torrents.lookup id).map (·.act (.removePendingSeedByRequest r))
        else pool.torrents.lookup id :=
  lookup_walk pool w (fun t => (t.handle_cancel r).1) (fun t => (t.handle_cancel r).2) id

theorem hasPendingSeed_iff {T : Torrent} {r : RequestId} :
    T.hasPendingSeed r = true ↔ ∃ e, T.pieceHandler.pendingUnder r = some e := by
  rw [← Option.isSome_iff_exists, TorrentPieceHandler.pendingUnder, List.find?_isSome, Torrent.hasPendingSeed,
    List.any_eq_true]

/-- every torrent can be the first of a walk -/
theorem first_front {test : Torrent → Bool} {id : TorrentId} {T : Torrent} (hT : pool.torrents.lookup id = some T)
    (htest : test T = true) : pool.first (.front fun e => e.1 = id) test = some id := by
  obtain ⟨post, hrun⟩ := AList.run_front hT
  unfold first
  rw [hrun, List.find?_cons]
  simp only [htest, Option.map_some]

/-- no torrent has two pending requests of one peer -/
theorem onePerPeer_step (hg : ∀ id T, pool.torrents.lookup id = some T → pool.Grounded id T)
    (hone : ∀ id T, pool.torrents.lookup id = some T → T.pieceHandler.OnePerPeer) (op : PoolOp) :
    ∀ id T, (pool.step op).torrents.lookup id = some T → T.pieceHandler.OnePerPeer := by
  intro id T' hT'
  rcases lookup_step hT' with ⟨T, hT, hfol⟩ | ⟨config, -, -, -, -, rfl⟩
  · rcases hfol.handler with e | ⟨hop, hdoes, e⟩
    · rw [e]
      exact hone id T hT
    · rw [e]
      refine (hone id T hT).step hop ?_
      rintro p m r rfl
      have hacc := does_insertBlockSeed hg hdoes
      cases op with
      | onPieceRequest w p' m' r' =>
        obtain ⟨hfirst, heq⟩ := hdoes
        cases heq
        rw [← onPieceRequest_first hg w p m r] at hfirst
        obtain ⟨S, peer, hS, -, -, -, hready, -⟩ := onPieceRequest_some hg hfirst
        rw [hT] at hS
        cases hS
        exact hready
      | _ => cases hacc
  · exact List.nodup_nil

end TorrentPool

/-! ## the behaviour -/

namespace BitTorrent
variable {File World Err : Type}

/-- a cancel of `p` for the block `m` leads from `b` to `b'`: the pending requests of every other peer are as
before, and none of `p` for the block is left -/
structure CancelsOwn (b : BitTorrent File World) (p : PeerId) (m : BlockMetadata) (b' : BitTorrent File World) :
    Prop where
  others : ∀ id, (b'.torrents.torrents.lookup id).map (·.pieceHandler.others p)
    = (b.torrents.torrents.lookup id).map (·.pieceHandler.others p)
  own : ∀ id T, b'.torrents.torrents.lookup id = some T →
    ∀ e ∈ T.pieceHandler.pendingSeedBlocks, e.1 = p → e.2.2 ≠ m

section
variable {fs : FileSystem File World Err} {sha1 : List UInt8 → ShaHash} {b b' : BitTorrent File World}

/-- no torrent has two pending requests of one peer -/
def OnePerPeer (b : BitTorrent File World) : Prop :=
  ∀ id T, b.torrents.torrents.lookup id = some T → T.pieceHandler.OnePerPeer

theorem OnePerPeer.step {op : BehaviourOp} (hg : b.Grounded) (hone : b.OnePerPeer)
    (h : b.step fs sha1 op = some b') : b'.OnePerPeer := by
  unfold OnePerPeer
  rw [torrents_step h]
  let I : TorrentPool → Prop := fun pool => (∀ id T, pool.torrents.lookup id = some T → pool.Grounded id T) ∧
    ∀ id T, pool.torrents.lookup id = some T → T.pieceHandler.OnePerPeer
  have hinv : I (exec TorrentPool.step b.torrents (b.poolOps fs sha1 op)) := by
    refine exec_inv ?_ ⟨hg, hone⟩ _
    rintro pool op ⟨hg, hone⟩
    exact ⟨TorrentPool.grounded_step op hg, TorrentPool.onePerPeer_step hg hone op⟩
  exact hinv.2

theorem torrents_cancelPiece (b : BitTorrent File World) (w : Walk) (now : Instant) (p : PeerId)
    (request : PeerRequest) (r : RequestId) :
    (b.injectNodeEvent w now p (.cancelPiece request r)).torrents = (b.torrents.onCancelRequest w r).2 :=
  (reacts_injectNodeEvent b w now p (.cancelPiece request r)).torrents

/-- a cancel that finds nothing, or something in another torrent, leaves the torrent as it is -/
theorem lookup_cancelPiece (b : BitTorrent File World) (w : Walk) (now : Instant) (p : PeerId)
    (request : PeerRequest) (r : RequestId) (id : TorrentId) :
    (b.injectNodeEvent w now p (.cancelPiece request r)).torrents.torrents.lookup id
      = if b.torrents.first w (·.hasPendingSeed r) = some id then
          (b.torrents.torrents.lookup id).map (·.act (.removePendingSeedByRequest r))
        else b.torrents.torrents.lookup id := by
  rw [torrents_cancelPiece, TorrentPool.lookup_onCancelRequest]

/-- a cancellable request is cancelled, whatever the order of the torrents -/
theorem cancelsOwn_of_cancellable (hone : b.OnePerPeer) {p : PeerId} {request : PeerRequest} {r : RequestId}
    (hc : b.torrents.Cancellable p (.ofRequest request) r) (w : Walk) (now : Instant) :
    CancelsOwn b p (.ofRequest request) (b.injectNodeEvent w now p (.cancelPiece request r)) := by
  refine ⟨?_, ?_⟩
  · intro id
    rw [lookup_cancelPiece]
    split
    · rename_i hfirst
      obtain ⟨T, hT, htest⟩ := TorrentPool.first_eq_some hfirst
      obtain ⟨e, he⟩ := TorrentPool.hasPendingSeed_iff.mp htest
      rw [hT, Option.map_some, Option.map_some, Option.map_some]
      exact congrArg some ((TorrentPieceHandler.others_cancel he p).mpr (hc.own id T e hT he))
    · rfl
  · intro id T' hT' x hx hp hm
    rw [lookup_cancelPiece] at hT'
    split at hT'
    · obtain ⟨T, hT, rfl⟩ := Option.map_eq_some_iff.mp hT'
      have hold : x ∈ T.pieceHandler.pendingSeedBlocks := by
        have hx : x ∈ (T.pieceHandler.removePendingSeedByRequest r).2.pendingSeedBlocks := hx
        rw [TorrentPieceHandler.pendingSeedBlocks_cancel] at hx
        exact List.mem_of_mem_eraseP hx
      exact (hone id T hT).cancel (hc.found id T x hT hold hp hm).1 hx rfl
    · rename_i hfirst
      obtain ⟨hnum, honly⟩ := hc.found id T' x hT' hx hp hm
      obtain ⟨id', hfirst'⟩ := TorrentPool.exists_first w (·.hasPendingSeed r) hT'
        (TorrentPool.hasPendingSeed_iff.mpr ⟨x, hnum⟩)
      obtain ⟨S, hS, htest⟩ := TorrentPool.first_eq_some hfirst'
      rw [honly id' S hS htest] at hfirst'
      exact hfirst hfirst'

/-- if the torrent `id` comes first, it is the one that is changed -/
theorem lookup_cancelPiece_front {p : PeerId} {request : PeerRequest} {r : RequestId} {now : Instant} {id : TorrentId}
    {T : Torrent} (hT : b.torrents.torrents.lookup id = some T) (htest : T.hasPendingSeed r = true) (i : TorrentId) :
    (b.injectNodeEvent (.front fun e => e.1 = id) now p (.cancelPiece request r)).torrents.torrents.lookup i
      = if i = id then some (T.act (.removePendingSeedByRequest r)) else b.torrents.torrents.lookup i := by
  rw [lookup_cancelPiece, TorrentPool.first_front hT htest]
  by_cases hi : i = id
  · rw [if_pos hi, if_pos (congrArg some hi.symm), hi, hT, Option.map_some]
  · rw [if_neg hi, if_neg (fun heq => hi (Option.some.inj heq).symm)]

/-- a cancel that hits its own request in every order of the torrents finds the request cancellable -/
theorem cancellable_of_cancelsOwn {p : PeerId} {request : PeerRequest} {r : RequestId} {now : Instant}
    (h : ∀ w, CancelsOwn b p (.ofRequest request) (b.injectNodeEvent w now p (.cancelPiece request r))) :
    b.torrents.Cancellable p (.ofRequest request) r := by
  refine ⟨?_, ?_⟩
  · intro id T e hT he
    have hothers := (h (.front fun e => e.1 = id)).others id
    rw [lookup_cancelPiece_front hT (TorrentPool.hasPendingSeed_iff.mpr ⟨e, he⟩), if_pos rfl, hT] at hothers
    exact (TorrentPieceHandler.others_cancel he p).mp (Option.some.inj hothers)
  · intro id T x hT hx hp hm
    have honly : ∀ id' T', b.torrents.torrents.lookup id' = some T' → T'.hasPendingSeed r = true → id' = id := by
      intro id' T' hT' htest
      by_contra hne
      refine (h (.front fun e => e.1 = id')).own id T ?_ x hx hp hm
      rw [lookup_cancelPiece_front hT' htest, if_neg (Ne.symm hne)]
      exact hT
    refine ⟨?_, honly⟩
    cases he : T.pieceHandler.pendingUnder r with
    | none =>
      -- nothing bears the number, so nothing is removed
      exfalso
      refine (h .same).own id T ?_ x hx hp hm
      rw [lookup_cancelPiece, if_neg ?_]
      · exact hT
      · intro hfirst
        obtain ⟨S, hS, htest⟩ := TorrentPool.first_eq_some hfirst
        rw [hT] at hS
        cases hS
        obtain ⟨e, he'⟩ := TorrentPool.hasPendingSeed_iff.mp htest
        rw [he] at he'
        cases he'
    | some e =>
      by_contra hne
      refine (h (.front fun e => e.1 = id)).own id (T.act (.removePendingSeedByRequest r)) ?_ x ?_ hp hm
      · rw [lookup_cancelPiece_front hT (TorrentPool.hasPendingSeed_iff.mpr ⟨e, he⟩), if_pos rfl]
      · exact TorrentPieceHandler.mem_cancel_of_ne he hx fun heq => hne (congrArg some heq.symm)

end

/-- **When a cancel hits its own request.**  In every state a run can reach, a cancel of `p` under the number `r`
leaves the pending requests of all others as they are and removes that of `p` for the block, whatever the order of
the torrents, exactly if in every torrent the oldest request with the number is of `p`, and a request of `p` for
the block is this one, in the only torrent with that number. -/
theorem cancel_own_iff (fs : FileSystem File World Err) (sha1 : List UInt8 → ShaHash) (random : ShaHash)
    (world : World) (config : BitTorrentConfig) (ops : List BehaviourOp) (b : BitTorrent File World)
    (hrun : exec (next fs sha1) (some (withConfig random world config)) ops = some b) (now : Instant) (p : PeerId)
    (request : PeerRequest) (r : RequestId) :
    (∀ w, CancelsOwn b p (.ofRequest request) (b.injectNodeEvent w now p (.cancelPiece request r))) ↔
      b.torrents.Cancellable p (.ofRequest request) r := by
  have hinv : b.Grounded ∧ b.OnePerPeer := by
    refine exec_some (I := fun b : BitTorrent File World => b.Grounded ∧ b.OnePerPeer) ?_ ?_ hrun
    · rintro b b' op ⟨hg, hone⟩ h
      exact ⟨hg.step h, hone.step hg h⟩
    · refine ⟨grounded_withConfig random world config, ?_⟩
      intro id T hT
      rw [show (withConfig random world config : BitTorrent File World).torrents.torrents = ∅ from rfl,
        AList.lookup_empty] at hT
      cases hT
  exact ⟨cancellable_of_cancelsOwn, fun hc w => cancelsOwn_of_cancellable hinv.2 hc w now⟩

/-! ## how connections number their requests -/

end BitTorrent

/-- the number an event comes with -/
def BitTorrentHandlerEvent.requestId : BitTorrentHandlerEvent → Option RequestId
  | .handshakeReq _ requestId => some requestId
  | .bitfieldReq _ requestId => some requestId
  | .getPieceReq _ requestId => some requestId
  | .cancelPiece _ requestId => some requestId
  | _ => none

/-- the message of the event came in on a substream of its own -/
def BitTorrentHandlerEvent.isInbound : BitTorrentHandlerEvent → Bool
  | .handshakeRes _ _ => false
  | .bitfieldRes _ _ => false
  | .getPieceRes _ _ => false
  | .torrentErr => false
  | _ => true

namespace BitTorrent
variable {File World Err : Type}

/-- every connection numbers its inbound messages in order; `next` are the numbers to come, and a new connection
starts at 0 -/
def numbered (next : PeerId → Nat) : List BehaviourOp → Bool
  | [] => true
  | .injectNodeEvent _ _ peer event :: ops =>
    (event.requestId.all fun r => r.connecUniqueId = next peer) &&
      numbered (if event.isInbound then Function.update next peer (next peer + 1) else next) ops
  | .injectDisconnected _ peer :: ops => numbered (Function.update next peer 0) ops
  | _ :: ops => numbered next ops

/-- it asks for a block, is cut off, comes back, and cancels: the second connection has come to the number the
request had on the first one -/
def cancelsAfterReturn : List BehaviourOp :=
  .addSeed oneByte .active :: guest ⟨[7]⟩ ++ [.injectNodeEvent .same 0 ⟨[7]⟩ (.getPieceReq ⟨0, 0, 1⟩ ⟨2⟩),
    .injectDisconnected .same ⟨[7]⟩] ++ guest ⟨[7]⟩

theorem cancel_own_after_return :
    numbered (fun _ => 0) (cancelsAfterReturn ++ [.injectNodeEvent .same 0 ⟨[7]⟩ (.cancelPiece ⟨0, 0, 1⟩ ⟨2⟩)]) = true ∧
    ∃ b, exec (next instantDisk firstByte) (some (withConfig (.replicate 0) () .default)) cancelsAfterReturn
        = some b ∧
      b.torrents.seeds ⟨⟨[7]⟩, ⟨2⟩, 0, 0⟩ = 1 ∧
      ∀ w, CancelsOwn b ⟨[7]⟩ (.ofRequest ⟨0, 0, 1⟩)
        (b.injectNodeEvent w 0 ⟨[7]⟩ (.cancelPiece ⟨0, 0, 1⟩ ⟨2⟩)) := by
  refine ⟨by decide, _, rfl, by decide, ?_⟩
  refine (cancel_own_iff instantDisk firstByte (.replicate 0) () .default cancelsAfterReturn _ rfl 0 ⟨[7]⟩ ⟨0, 0, 1⟩
    ⟨2⟩).mpr ?_
  decide

/-- two remotes ask for the block; one of them has sent a heartbeat before -/
def twoGuests : List BehaviourOp :=
  .addSeed oneByte .active :: guest ⟨[7]⟩ ++ guest ⟨[8]⟩ ++
    [.injectNodeEvent .same 0 ⟨[7]⟩ (.getPieceReq ⟨0, 0, 1⟩ ⟨2⟩), .injectNodeEvent .same 0 ⟨[8]⟩ (.keepAlive 0),
      .injectNodeEvent .same 0 ⟨[8]⟩ (.getPieceReq ⟨0, 0, 1⟩ ⟨3⟩)]

/-- the cancel of one removes the request of the other -/
theorem cancel_hits_other :
    numbered (fun _ => 0) (twoGuests ++ [.injectNodeEvent .same 0 ⟨[7]⟩ (.cancelPiece ⟨0, 0, 1⟩ ⟨3⟩)]) = true ∧
    ∃ b, exec (next instantDisk firstByte) (some (withConfig (.replicate 0) () .default)) twoGuests = some b ∧
      ¬ ∀ w, CancelsOwn b ⟨[7]⟩ (.ofRequest ⟨0, 0, 1⟩)
        (b.injectNodeEvent w 0 ⟨[7]⟩ (.cancelPiece ⟨0, 0, 1⟩ ⟨3⟩)) := by
  refine ⟨by decide, _, rfl, ?_⟩
  intro h
  have hothers := (h .same).others ⟨0⟩
  revert hothers
  decide

end BitTorrent

end Btt
