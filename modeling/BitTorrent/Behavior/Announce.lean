import BitTorrent.Behavior.News
import BitTorrent.Behavior.OnDisk
import BitTorrent.Disk.Verified

/-!
# Pieces that are announced

When the disk manager answers `PieceWritten`, every peer of the torrent is sent a `Have`.  Over a whole run nothing
else is announced, and nothing is announced twice.

* `announces`          the step processes the answer for a piece, and the torrent has the peer;
* `checked_of_written` what is reported written in a run has the hash its torrent lists;
* `announced_exactly`  a peer is sent a `Have` as often as a step announces the piece to it, and behind each `Have` is
                       a piece that was downloaded, checked and written.
-/

namespace Btt
open Run

/-- tells `peer` of the piece `index` -/
def NetworkBehaviourAction.tells (peer : PeerId) (index : UInt32) : NetworkBehaviourAction → Bool
  | .sendEvent p (.have_ i) => p = peer && i = index
  | _ => false

theorem NetworkBehaviourAction.tells_iff {peer : PeerId} {index : UInt32} {a : NetworkBehaviourAction} :
    a.tells peer index = true ↔ a = .sendEvent peer (.have_ index) := by
  constructor
  · intro h
    unfold tells at h
    split at h
    · obtain ⟨hp, hi⟩ := Bool.and_eq_true_iff.mp h
      rw [of_decide_eq_true hp, of_decide_eq_true hi]
    · cases h
  · rintro rfl
    simp [tells]

theorem NetworkBehaviourAction.ofPoll_of_tells {peer : PeerId} {index : UInt32} (a : NetworkBehaviourAction)
    (h : a.tells peer index = true) : a.ofPoll = true := by
  rw [tells_iff.mp h]
  rfl

namespace BitTorrent
variable {File World Err : Type}

section
variable (fs : FileSystem File World Err) (sha1 : List UInt8 → ShaHash)

/-- the answer is about a piece of a torrent that has the peer, and the piece goes by this index on the wire -/
def concerns (b : BitTorrent File World) (peer : PeerId) (index : UInt32) : DiskMessageOut → Bool
  | .pieceWritten t block =>
    (b.torrents.torrents.lookup t).any (fun T => decide (peer ∈ T.pieceHandler.peers)) &&
      decide (UInt32.ofNat block.metadata.pieceIndex = index)
  | _ => false

/-- the step processes such an answer -/
def announces (b : BitTorrent File World) (peer : PeerId) (index : UInt32) (op : BehaviourOp) : Bool :=
  (b.processed fs sha1 op).any (b.concerns peer index)

/-- how many steps of a run do -/
def announcements (peer : PeerId) (index : UInt32) (s : Option (BitTorrent File World)) (ops : List BehaviourOp) : Nat :=
  booked (next fs sha1) (fun s op => if s.any (fun b => b.announces fs sha1 peer index op) = true then 1 else 0) s ops

end

section
variable {fs : FileSystem File World Err} {sha1 : List UInt8 → ShaHash} {b b' : BitTorrent File World}

/-! ## what is new -/

/-- the news of a written piece reaches each peer of its torrent once -/
theorem countP_messageNews (b : BitTorrent File World) (peers : Arrangement PeerId) (msg : DiskMessageOut) (peer : PeerId)
    (index : UInt32) :
    (b.messageNews peers msg).countP (NetworkBehaviourAction.tells peer index)
      = if b.concerns peer index msg = true then 1 else 0 := by
  cases msg with
  | pieceWritten t block =>
    rw [messageNews, concerns]
    cases hT : b.torrents.torrents.lookup t with
    | none => rfl
    | some T =>
      rw [Option.elim_some, Option.any_some, List.countP_map]
      have hkeys : (peers.run T.pieceHandler.peers.keys).Nodup :=
        (peers.perm _).nodup_iff.mpr T.pieceHandler.peers.keys_nodup
      by_cases hi : UInt32.ofNat block.metadata.pieceIndex = index
      · have hcount : (peers.run T.pieceHandler.peers.keys).countP
            (NetworkBehaviourAction.tells peer index ∘ fun p => .sendEvent p (.have_ (UInt32.ofNat block.metadata.pieceIndex)))
              = (peers.run T.pieceHandler.peers.keys).count peer := by
          refine List.countP_congr ?_
          intro p _
          simp [NetworkBehaviourAction.tells, hi]
        rw [hcount, hkeys.count, hi, decide_eq_true rfl, Bool.and_true]
        simp only [peers.mem_run, AList.mem_keys, decide_eq_true_eq]
      · rw [decide_eq_false hi, Bool.and_false]
        refine List.countP_eq_zero.mpr ?_
        intro p _
        simp [NetworkBehaviourAction.tells, hi]
  | blockRead torrent block =>
    rw [messageNews]
    cases (b.torrents.onBlockRead torrent block.metadata).1 <;> rfl
  | _ => rfl

theorem newsOf_tells (b : BitTorrent File World) (peer : PeerId) (index : UInt32) (op : BehaviourOp) :
    newsOf fs sha1 (NetworkBehaviourAction.tells peer index) (some b) op
      = if b.announces fs sha1 peer index op = true then 1 else 0 := by
  cases op with
  | pollPool now e =>
    have hquiet : (b.pollPool now e).1.action.toList.countP (NetworkBehaviourAction.tells peer index) = 0 := by
      unfold pollPool
      split <;> rfl
    exact hquiet
  | pollDisk e =>
    show (((b.diskAnswer fs sha1 e).map (b.messageNews e.peers)).getD []).countP _
      = if (b.diskAnswer fs sha1 e).any _ = true then 1 else 0
    cases b.diskAnswer fs sha1 e with
    | none => rfl
    | some msg => exact countP_messageNews b e.peers msg peer index
  | _ => rfl

/-- **A peer is told of a piece as often as a step announces it.** -/
theorem told_run (peer : PeerId) (index : UInt32) {ops : List BehaviourOp} (hnew : b.queuedEvents = [])
    (h : exec (next fs sha1) (some b) ops = some b') :
    (trace fs sha1 (some b) ops).countP (NetworkBehaviourAction.tells peer index)
        + b'.queuedEvents.countP (NetworkBehaviourAction.tells peer index)
      = announcements fs sha1 peer index (some b) ops := by
  have hbook : newsOf fs sha1 (NetworkBehaviourAction.tells peer index)
      = fun s op => if s.any (fun b => b.announces fs sha1 peer index op) = true then 1 else 0 := by
    funext s op
    cases s with
    | none => rfl
    | some c => exact newsOf_tells c peer index op
  rw [said_run NetworkBehaviourAction.ofPoll_of_tells h, hnew, hbook, List.countP_nil, Nat.zero_add, announcements]

/-! ## what is behind it -/

/-- a piece that is announced is reported written -/
theorem written_of_announced {peer : PeerId} {index : UInt32} {s : Option (BitTorrent File World)}
    {ops : List BehaviourOp} (h : announcements fs sha1 peer index s ops ≠ 0) :
    ∃ t block, .pieceWritten t block ∈ diskAnswers fs sha1 s ops ∧ UInt32.ofNat block.metadata.pieceIndex = index := by
  obtain ⟨pre, op, ⟨post, rfl⟩, hop⟩ := exists_of_booked h
  have hann : (exec (next fs sha1) s pre).any (fun b => b.announces fs sha1 peer index op) = true := by
    by_contra hnot
    exact hop (if_neg hnot)
  obtain ⟨c, hc, hann⟩ := Option.any_eq_true _ _ |>.mp hann
  obtain ⟨msg, hmsg, hrep⟩ := Option.any_eq_true _ _ |>.mp hann
  have hmem : msg ∈ diskAnswers fs sha1 s (pre ++ [op] ++ post) := by
    rw [diskAnswers_append]
    exact List.mem_append_left _ (mem_diskAnswers_snoc.mpr (Or.inr ⟨c, hc, hmsg⟩))
  cases msg with
  | pieceWritten t block => exact ⟨t, block, hmem, of_decide_eq_true (Bool.and_eq_true_iff.mp hrep).2⟩
  | _ => cases hrep

/-- **What is reported written has been handed over, and has the hash its torrent lists.** -/
theorem checked_of_written (hfs : fs.HonestWrites) {random : ShaHash} {world : World} {config : BitTorrentConfig}
    {ops : List BehaviourOp} (h : exec (next fs sha1) (some (withConfig random world config)) ops = some b)
    (hlen : ∀ t block, .writeBlock t block ∈ handedIn fs sha1 (some (withConfig random world config)) ops →
      block.blockData.length < memoryBound) {t : TorrentId} {block : Block}
    (hmem : .pieceWritten t block ∈ diskAnswers fs sha1 (some (withConfig random world config)) ops) :
    .writeBlock t block ∈ handedIn fs sha1 (some (withConfig random world config)) ops ∧
      ∃ info, (t, info) ∈ newTorrents fs sha1 (some (withConfig random world config)) ops ∧
        info.info.pieces[block.metadata.pieceIndex]? = some (sha1 block.blockData) := by
  have hv : DiskManager.Verified sha1 (handedIn fs sha1 (some (withConfig random world config)) ops)
      (diskAnswers fs sha1 (some (withConfig random world config)) ops) b.diskManager := by
    refine (disk_inv (I := fun ins outs dm => (∀ t block, .writeBlock t block ∈ ins → block.blockData.length < memoryBound) →
      DiskManager.Accounted ins outs dm ∧ DiskManager.Verified sha1 ins outs dm) ?_ ?_ h hlen).2
    · intro ins outs dm op out dm' hI hm hlen'
      have hbefore : ∀ t block, .writeBlock t block ∈ ins → block.blockData.length < memoryBound :=
        fun t block hmem => hlen' t block (List.mem_append_left _ hmem)
      obtain ⟨ha, hv⟩ := hI hbefore
      exact ⟨ha.moved hm, hv.moved hfs ha hbefore hm⟩
    · intro _
      refine ⟨DiskManager.accounted_withCapacity world 100, ?_, ?_⟩
      · intro r hr
        cases hr
      · intro t block hmem
        cases hmem
  obtain ⟨hcall, hgood⟩ := hv.written t block hmem
  obtain ⟨F, hF, hgood⟩ := DiskManager.isGoodPiece_iff.mp hgood
  have ha := agrees_run h
  obtain ⟨info, hinfo⟩ := ha.disk.torrents t F hF
  rcases ha.disk.announced _ hinfo with ⟨F', hF', hmeta, -⟩ | ⟨hnone, -⟩
  · cases hF.symm.trans hF'
    rw [hmeta] at hgood
    exact ⟨hcall, info, hinfo, hgood⟩
  · rw [hF] at hnone
    cases hnone

end

/-- **Pieces are announced exactly when they are written.**  In every run a peer is sent a `Have` for an index as often
as an answer `PieceWritten` for it is processed while the torrent has the peer, counting those still queued.  And
behind each `Have` is a piece that the pool handed over, whose data has the hash listed in the metainfo its torrent was
added with, and that was reported written. -/
theorem announced_exactly (fs : FileSystem File World Err) (hfs : fs.HonestWrites) (sha1 : List UInt8 → ShaHash)
    (random : ShaHash) (world : World) (config : BitTorrentConfig) (ops : List BehaviourOp) (b : BitTorrent File World)
    (hrun : exec (next fs sha1) (some (withConfig random world config)) ops = some b)
    (hlen : ∀ t block, .writeBlock t block ∈ handedIn fs sha1 (some (withConfig random world config)) ops →
      block.blockData.length < memoryBound) (peer : PeerId) (index : UInt32) :
    (trace fs sha1 (some (withConfig random world config)) ops).countP (NetworkBehaviourAction.tells peer index)
        + b.queuedEvents.countP (NetworkBehaviourAction.tells peer index)
      = announcements fs sha1 peer index (some (withConfig random world config)) ops ∧
    (.sendEvent peer (.have_ index) ∈ trace fs sha1 (some (withConfig random world config)) ops ++ b.queuedEvents →
      ∃ t block info, .pieceWritten t block ∈ diskAnswers fs sha1 (some (withConfig random world config)) ops ∧
        .writeBlock t block ∈ handedIn fs sha1 (some (withConfig random world config)) ops ∧
        (t, info) ∈ newTorrents fs sha1 (some (withConfig random world config)) ops ∧
        UInt32.ofNat block.metadata.pieceIndex = index ∧
        info.info.pieces[block.metadata.pieceIndex]? = some (sha1 block.blockData)) := by
  have htold := told_run peer index rfl hrun
  refine ⟨htold, ?_⟩
  intro hmem
  have hpos : announcements fs sha1 peer index (some (withConfig random world config)) ops ≠ 0 := by
    rw [← htold, ← List.countP_append]
    exact Nat.pos_iff_ne_zero.mp (List.countP_pos_iff.mpr ⟨_, hmem, NetworkBehaviourAction.tells_iff.mpr rfl⟩)
  obtain ⟨t, block, hwritten, hindex⟩ := written_of_announced hpos
  obtain ⟨hcall, info, hinfo, hgood⟩ := checked_of_written hfs hrun hlen hwritten
  exact ⟨t, block, info, hwritten, hcall, hinfo, hindex, hgood⟩

/-- a remote answers the request for the only block with the right byte, the piece is written, and the remote told -/
def rightByte : List BehaviourOp :=
  .addLeech oneByte .active :: wrongByte.dropLast.dropLast ++
    [.injectNodeEvent .same 0 ⟨[7]⟩ (.getPieceRes ⟨0, 0, [1]⟩ ⟨0⟩), .popEvent, poolTurn, poolTurn, poolTurn, diskTurn,
      diskTurn, .popEvent]

theorem announced_exactly_one_byte :
    ∃ b, exec (next instantDisk firstByte) (some (withConfig (.replicate 0) () .default)) rightByte = some b ∧
      (trace instantDisk firstByte (some (withConfig (.replicate 0) () .default)) rightByte).countP
          (NetworkBehaviourAction.tells ⟨[7]⟩ 0) + b.queuedEvents.countP (NetworkBehaviourAction.tells ⟨[7]⟩ 0) = 1 := by
  have hcalls : handedIn instantDisk firstByte (some (withConfig (.replicate 0) () .default)) rightByte
      = [.addTorrent ⟨0⟩ oneByte, .writeBlock ⟨0⟩ ⟨⟨0, 0, 1⟩, [1]⟩] := by decide
  have hann : announcements instantDisk firstByte ⟨[7]⟩ 0 (some (withConfig (.replicate 0) () .default)) rightByte = 1 := by
    decide
  refine ⟨_, rfl, (announced_exactly instantDisk DiskManager.honestWrites_instantDisk firstByte (.replicate 0) () .default
    rightByte _ rfl ?_ ⟨[7]⟩ 0).1.trans hann⟩
  intro t block hmem
  rw [hcalls] at hmem
  simp only [List.mem_cons, List.not_mem_nil, or_false, reduceCtorEq, false_or, DiskMessageIn.writeBlock.injEq] at hmem
  obtain ⟨-, rfl⟩ := hmem
  decide

end BitTorrent

end Btt
