import BitTorrent.Behavior.Seeding

/-!
# What a disconnect leaves behind

`inject_disconnected` takes the peer out of the first torrent that tracks it, and there out of the current
buffer; the buffer gives up the first mention of the peer it comes to.  Pending seed requests and queued
answers are not looked at.

* `Forgets h p`             nothing of the peer is left in a handler;
* `Removable pool p`        what the pool must be like for the removal to be complete;
* `lookup_removePeer`       the first torrent that tracks the peer changes, and no other;
* `forgets_removePeer`      the pool forgets the peer exactly if it was removable;
* `disconnect_complete_iff` a disconnect is complete exactly if moreover no answer to the peer is queued.
-/

namespace Btt
open Run

/-! ## buffers -/

namespace PieceBuffer

/-- how often the buffer names a peer: as one to ask, and as one that was asked -/
def mentions (b : PieceBuffer) (p : PeerId) : Nat := b.peers.count p + if p ∈ b.pendingBlocks then 1 else 0

theorem mentions_eq_zero {b : PieceBuffer} {p : PeerId} :
    b.mentions p = 0 ↔ p ∉ b.peers ∧ p ∉ b.pendingBlocks := by
  unfold mentions
  rw [Nat.add_eq_zero_iff, List.count_eq_zero]
  by_cases h : p ∈ b.pendingBlocks
  · simp [h]
  · simp [h]

/-- a removal gives up one mention -/
theorem mentions_removePeer (b : PieceBuffer) (p : PeerId) : (b.removePeer p).2.mentions p = b.mentions p - 1 := by
  unfold mentions
  rcases b.removePeer_cases p with ⟨hp, e⟩ | ⟨hp, block, hblock, e⟩ | ⟨hp, hnone, e⟩ <;> rw [e]
  · have hpos : 0 < b.peers.count p := List.count_pos_iff.mpr hp
    simp only [List.count_erase_self]
    omega
  · have hzero : b.peers.count p = 0 := List.count_eq_zero.mpr hp
    have hgone : p ∉ b.pendingBlocks.erase p := by
      rw [AList.mem_erase]
      exact fun h => h.1 rfl
    simp only [if_neg hgone, if_pos (AList.mem_of_lookup hblock), hzero]
  · rw [List.count_eq_zero.mpr hp, if_neg hnone]

/-- a peer that is named only for its outstanding block gives it back -/
theorem removePeer_returns {b : PieceBuffer} {p : PeerId} {block : BlockMetadata}
    (h : b.pendingBlocks.lookup p = some block) (hone : b.mentions p ≤ 1) :
    block ∈ (b.removePeer p).2.missingBlocks := by
  have hp : p ∉ b.peers := by
    intro hp
    have hpos : 0 < b.peers.count p := List.count_pos_iff.mpr hp
    unfold mentions at hone
    rw [if_pos (AList.mem_of_lookup h)] at hone
    omega
  unfold removePeer
  rw [if_neg hp, h]
  exact List.mem_append_right _ (List.mem_singleton.mpr rfl)

end PieceBuffer

/-! ## handlers -/

namespace TorrentPieceHandler

/-- nothing of the peer is left -/
structure Forgets (h : TorrentPieceHandler) (p : PeerId) : Prop where
  peers : p ∉ h.peers
  buffer : ∀ b, h.pieceBuffer = some b → p ∉ b.peers ∧ p ∉ b.pendingBlocks
  seeds : ∀ e ∈ h.pendingSeedBlocks, e.1 ≠ p

/-- the block the peer was asked for -/
def askedFor (h : TorrentPieceHandler) (p : PeerId) : Option BlockMetadata :=
  h.pieceBuffer.bind fun b => b.pendingBlocks.lookup p

/-- a tracked peer is taken out of the peers and out of the buffer -/
theorem removePeer_tracked {h : TorrentPieceHandler} {p : PeerId} (hp : p ∈ h.peers) :
    (h.removePeer p).2
      = { h with peers := h.peers.erase p, pieceBuffer := h.pieceBuffer.map fun b => (b.removePeer p).2 } := by
  obtain ⟨r, hr⟩ := AList.mem_iff_lookup.mp hp
  unfold removePeer
  rw [hr]

/-- a handler forgets a tracked peer if its buffer names it once at most and no request of it is pending -/
theorem forgets_removePeer_iff {h : TorrentPieceHandler} {p : PeerId} (hp : p ∈ h.peers) :
    (h.removePeer p).2.Forgets p ↔
      (∀ b, h.pieceBuffer = some b → b.mentions p ≤ 1) ∧ ∀ e ∈ h.pendingSeedBlocks, e.1 ≠ p := by
  rw [removePeer_tracked hp]
  constructor
  · intro hf
    refine ⟨?_, hf.seeds⟩
    intro b hb
    have hzero := PieceBuffer.mentions_eq_zero.mpr (hf.buffer (b.removePeer p).2 (by rw [hb, Option.map_some]))
    rw [PieceBuffer.mentions_removePeer] at hzero
    omega
  · rintro ⟨hbuf, hseeds⟩
    refine ⟨?_, ?_, hseeds⟩
    · rw [AList.mem_erase]
      exact fun h => h.1 rfl
    · intro b' hb'
      obtain ⟨b, hb, rfl⟩ := Option.map_eq_some_iff.mp hb'
      have hone := hbuf b hb
      rw [← PieceBuffer.mentions_eq_zero, PieceBuffer.mentions_removePeer]
      omega

end TorrentPieceHandler

/-! ## the pool -/

namespace TorrentPool
variable {pool : TorrentPool} {p : PeerId}

/-- at most one torrent tracks the peer, its buffer names it once at most, other buffers do not name it, and
no request of it is pending -/
structure Removable (pool : TorrentPool) (p : PeerId) : Prop where
  sole : ∀ id id' T T', pool.torrents.lookup id = some T → pool.torrents.lookup id' = some T' →
    p ∈ T.pieceHandler.peers → p ∈ T'.pieceHandler.peers → id = id'
  buffer : ∀ id T b, pool.torrents.lookup id = some T → T.pieceHandler.pieceBuffer = some b →
    b.mentions p ≤ if p ∈ T.pieceHandler.peers then 1 else 0
  seeds : ∀ id T, pool.torrents.lookup id = some T → ∀ e ∈ T.pieceHandler.pendingSeedBlocks, e.1 ≠ p

theorem removable_iff : pool.Removable p ↔
    (∀ e ∈ pool.torrents.entries, ∀ e' ∈ pool.torrents.entries, p ∈ e.2.pieceHandler.peers →
      p ∈ e'.2.pieceHandler.peers → e.1 = e'.1) ∧
    (∀ e ∈ pool.torrents.entries, ∀ b ∈ e.2.pieceHandler.pieceBuffer,
      b.mentions p ≤ if p ∈ e.2.pieceHandler.peers then 1 else 0) ∧
    ∀ e ∈ pool.torrents.entries, ∀ x ∈ e.2.pieceHandler.pendingSeedBlocks, x.1 ≠ p := by
  constructor
  · intro h
    refine ⟨?_, ?_, ?_⟩
    · intro e he e' he'
      exact h.sole e.1 e'.1 e.2 e'.2 (AList.mem_entries.mp he) (AList.mem_entries.mp he')
    · intro e he b hb
      exact h.buffer e.1 e.2 b (AList.mem_entries.mp he) hb
    · intro e he
      exact h.seeds e.1 e.2 (AList.mem_entries.mp he)
  · rintro ⟨hsole, hbuffer, hseeds⟩
    refine ⟨?_, ?_, ?_⟩
    · intro id id' T T' hT hT'
      exact hsole ⟨id, T⟩ (AList.mem_entries.mpr hT) ⟨id', T'⟩ (AList.mem_entries.mpr hT')
    · intro id T b hT hb
      exact hbuffer ⟨id, T⟩ (AList.mem_entries.mpr hT) b hb
    · intro id T hT
      exact hseeds ⟨id, T⟩ (AList.mem_entries.mpr hT)

instance (pool : TorrentPool) (p : PeerId) : Decidable (pool.Removable p) := decidable_of_iff' _ removable_iff

/-- every torrent forgets the peer -/
def Forgets (pool : TorrentPool) (p : PeerId) : Prop :=
  ∀ id T, pool.torrents.lookup id = some T → T.pieceHandler.Forgets p

theorem lookup_removePeer (pool : TorrentPool) (w : Walk) (p : PeerId) (id : TorrentId) :
    (pool.removePeer w p).2.torrents.lookup id
      = if pool.first w (·.containsPeer p) = some id then (pool.torrents.lookup id).map (·.act (.removePeer p))
        else pool.torrents.lookup id :=
  lookup_walk pool w (fun t => (t.handle_removePeer p).1) (fun t => (t.handle_removePeer p).2) id

/-- the first torrent that tracks the peer -/
theorem first_tracks {w : Walk} {id : TorrentId} (h : pool.first w (·.containsPeer p) = some id) :
    ∃ T, pool.torrents.lookup id = some T ∧ p ∈ T.pieceHandler.peers := by
  obtain ⟨T, hT, htest⟩ := first_eq_some h
  exact ⟨T, hT, of_decide_eq_true htest⟩

/-- a removable peer is tracked by the torrent it is removed from and by no other -/
theorem Removable.first (h : pool.Removable p) (w : Walk) {id : TorrentId} {T : Torrent}
    (hT : pool.torrents.lookup id = some T) (hp : p ∈ T.pieceHandler.peers) :
    pool.first w (·.containsPeer p) = some id := by
  obtain ⟨id', hfirst⟩ := exists_first w (·.containsPeer p) hT (decide_eq_true hp)
  obtain ⟨T', hT', hp'⟩ := first_tracks hfirst
  rw [hfirst, h.sole id id' T T' hT hT' hp hp']

/-- the torrent the removal comes to tracks the peer -/
theorem tracks_of_first {w : Walk} {id : TorrentId} {T : Torrent} (h : pool.first w (·.containsPeer p) = some id)
    (hT : pool.torrents.lookup id = some T) : p ∈ T.pieceHandler.peers := by
  obtain ⟨T', hT', hp⟩ := first_tracks h
  rw [hT] at hT'
  cases hT'
  exact hp

section
variable {w : Walk} (hf : (pool.removePeer w p).2.Forgets p) {id : TorrentId} {T : Torrent}
include hf

/-- a torrent the removal does not come to has to forget the peer already -/
theorem forgets_of_not_first (h : pool.first w (·.containsPeer p) ≠ some id) (hT : pool.torrents.lookup id = some T) :
    T.pieceHandler.Forgets p := by
  refine hf id T ?_
  rw [lookup_removePeer, if_neg h]
  exact hT

/-- and the torrent it comes to forgets it in the removal -/
theorem removable_of_first (h : pool.first w (·.containsPeer p) = some id) (hT : pool.torrents.lookup id = some T) :
    (∀ b, T.pieceHandler.pieceBuffer = some b → b.mentions p ≤ 1) ∧
      ∀ e ∈ T.pieceHandler.pendingSeedBlocks, e.1 ≠ p := by
  refine (TorrentPieceHandler.forgets_removePeer_iff (tracks_of_first h hT)).mp ?_
  refine hf id (T.act (.removePeer p)) ?_
  rw [lookup_removePeer, if_pos h, hT]
  rfl

theorem removable_of_forgets : pool.Removable p := by
  have hsole : ∀ id T, pool.torrents.lookup id = some T → p ∈ T.pieceHandler.peers →
      pool.first w (·.containsPeer p) = some id := by
    intro id T hT hp
    by_contra hne
    exact (forgets_of_not_first hf hne hT).peers hp
  refine ⟨?_, ?_, ?_⟩
  · intro id id' T T' hT hT' hp hp'
    exact Option.some.inj ((hsole id T hT hp).symm.trans (hsole id' T' hT' hp'))
  · intro id T b hT hb
    by_cases h : pool.first w (·.containsPeer p) = some id
    · rw [if_pos (tracks_of_first h hT)]
      exact (removable_of_first hf h hT).1 b hb
    · rw [PieceBuffer.mentions_eq_zero.mpr ((forgets_of_not_first hf h hT).buffer b hb)]
      exact Nat.zero_le _
  · intro id T hT
    by_cases h : pool.first w (·.containsPeer p) = some id
    · exact (removable_of_first hf h hT).2
    · exact (forgets_of_not_first hf h hT).seeds

end

theorem Removable.forgets (hr : pool.Removable p) (w : Walk) : (pool.removePeer w p).2.Forgets p := by
  intro id T' hT'
  rw [lookup_removePeer] at hT'
  split at hT'
  · rename_i h
    obtain ⟨T, hT, rfl⟩ := Option.map_eq_some_iff.mp hT'
    have hp := tracks_of_first h hT
    refine (TorrentPieceHandler.forgets_removePeer_iff hp).mpr ⟨?_, hr.seeds id T hT⟩
    intro b hb
    have hone := hr.buffer id T b hT hb
    rwa [if_pos hp] at hone
  · rename_i h
    have hp : p ∉ T'.pieceHandler.peers := fun hp => h (hr.first w hT' hp)
    refine ⟨hp, ?_, hr.seeds id T' hT'⟩
    intro b hb
    have hzero := hr.buffer id T' b hT' hb
    rw [if_neg hp] at hzero
    exact PieceBuffer.mentions_eq_zero.mp (Nat.le_zero.mp hzero)

/-- **The pool forgets a peer** exactly if it was removable. -/
theorem forgets_removePeer (pool : TorrentPool) (w : Walk) (p : PeerId) :
    (pool.removePeer w p).2.Forgets p ↔ pool.Removable p := ⟨removable_of_forgets, fun hr => hr.forgets w⟩

/-- the outstanding block of a removable peer is missing again -/
theorem Removable.returns (h : pool.Removable p) (w : Walk) {id : TorrentId} {T : Torrent} {block : BlockMetadata}
    (hT : pool.torrents.lookup id = some T) (hblock : T.pieceHandler.askedFor p = some block) :
    ∃ T' b, (pool.removePeer w p).2.torrents.lookup id = some T' ∧ T'.pieceHandler.pieceBuffer = some b ∧
      block ∈ b.missingBlocks := by
  obtain ⟨b, hb, hlook⟩ := Option.bind_eq_some_iff.mp hblock
  have hone := h.buffer id T b hT hb
  have hp : p ∈ T.pieceHandler.peers := by
    by_contra hp
    rw [if_neg hp] at hone
    exact (PieceBuffer.mentions_eq_zero.mp (Nat.le_zero.mp hone)).2 (AList.mem_of_lookup hlook)
  rw [if_pos hp] at hone
  refine ⟨T.act (.removePeer p), (b.removePeer p).2, ?_, ?_, PieceBuffer.removePeer_returns hlook hone⟩
  · rw [lookup_removePeer, if_pos (h.first w hT hp), hT]
    rfl
  · show (T.pieceHandler.removePeer p).2.pieceBuffer = _
    rw [TorrentPieceHandler.removePeer_tracked hp, hb]
    rfl

end TorrentPool

/-! ## the behaviour -/

/-- the action sends a block to the peer -/
def NetworkBehaviourAction.seedsTo (p : PeerId) (a : NetworkBehaviourAction) : Bool :=
  a.seedKey.any fun k => k.peer = p

namespace BitTorrent
variable {File World Err : Type}

/-- `b'` is `b` after a complete disconnect of `p`: no torrent mentions the peer, the block it was asked for is
missing again, and whatever happens next, it is sent only blocks that were asked for after the disconnect -/
structure Disconnects (fs : FileSystem File World Err) (sha1 : List UInt8 → ShaHash) (b : BitTorrent File World)
    (p : PeerId) (b' : BitTorrent File World) : Prop where
  forgotten : b'.torrents.Forgets p
  returned : ∀ id T block, b.torrents.torrents.lookup id = some T → T.pieceHandler.askedFor p = some block →
    ∃ T' buffer, b'.torrents.torrents.lookup id = some T' ∧ T'.pieceHandler.pieceBuffer = some buffer ∧
      block ∈ buffer.missingBlocks
  later : ∀ ops n piece requestId, SendsAt fs sha1 b' ops n p piece requestId →
    ∃ m < n, ∃ request, AcceptsAt fs sha1 b' ops m p request requestId ∧ request.index = piece.index ∧
      request.begin_ = piece.begin_

section
variable {fs : FileSystem File World Err} {sha1 : List UInt8 → ShaHash} {b : BitTorrent File World} {p : PeerId}

/-- no answer to the peer is queued, and no request of it is pending -/
theorem load_eq_zero (hpool : b.torrents.Forgets p) (hqueue : ∀ a ∈ b.queuedEvents, a.seedsTo p = false)
    {k : SeedKey} (hk : k.peer = p) : load k b = 0 := by
  have hevents : queuedSeeds k b.queuedEvents = 0 := by
    refine List.countP_eq_zero.mpr ?_
    intro a ha hkey
    have hno := hqueue a ha
    rw [NetworkBehaviourAction.seedsTo, of_decide_eq_true hkey, Option.any_some] at hno
    exact of_decide_eq_false hno hk
  have hseeds : b.torrents.seeds k = 0 := by
    refine Finset.sum_eq_zero ?_
    intro i _
    unfold TorrentPool.seedsOf
    cases hT : b.torrents.torrents.lookup ⟨i⟩ with
    | none => rfl
    | some T =>
      refine List.countP_eq_zero.mpr ?_
      intro e he hkey
      refine (hpool ⟨i⟩ T hT).seeds e he ?_
      rw [← hk, ← of_decide_eq_true hkey]
      rfl
  rw [load, hevents, hseeds]

/-- from then on only new requests are answered -/
theorem sends_after {b₀ : BitTorrent File World} (h0 : b₀.Grounded) (hpool : b₀.torrents.Forgets p)
    (hqueue : ∀ a ∈ b₀.queuedEvents, a.seedsTo p = false) {ops : List BehaviourOp} {n : Nat} {piece : Piece}
    {requestId : RequestId} (h : SendsAt fs sha1 b₀ ops n p piece requestId) :
    ∃ m < n, ∃ request, AcceptsAt fs sha1 b₀ ops m p request requestId ∧ request.index = piece.index ∧
      request.begin_ = piece.begin_ := by
  have hsent := sentAt_of_sends h
  have hload : load ⟨p, requestId, piece.index, piece.begin_⟩ b₀ = 0 := load_eq_zero hpool hqueue rfl
  have hcount : Matching.tally (sentAt fs sha1 b₀ ops) ⟨p, requestId, piece.index, piece.begin_⟩ (n + 1)
      ≤ Matching.tally (acceptedAt fs sha1 b₀ ops) ⟨p, requestId, piece.index, piece.begin_⟩ (n + 1) :=
    Nat.le_of_add_right_le (tally_load h0 hload (n + 1))
  rw [Matching.tally_succ, if_pos hsent] at hcount
  obtain ⟨hlt, hacc, -⟩ := Matching.nth_of_lt_tally (Nat.lt_of_lt_of_le (Nat.succ_pos _) hcount)
  refine ⟨_, Nat.lt_of_le_of_ne (Nat.le_of_lt_succ hlt) ?_, accepts_of_acceptedAt h0 hacc⟩
  intro heq
  rw [heq, acceptedAt_of_sentAt hsent] at hacc
  cases hacc

/-- the queue is handed out in order -/
theorem exec_popEvents (b : BitTorrent File World) (n : Nat) :
    exec (next fs sha1) (some b) (List.replicate n .popEvent)
      = some { b with queuedEvents := b.queuedEvents.drop n } := by
  induction n generalizing b with
  | zero => rfl
  | succ n ih =>
    rw [List.replicate_succ, exec_cons]
    refine (ih { b with queuedEvents := b.queuedEvents.tail }).trans ?_
    rw [List.drop_tail]

/-- a queued answer is handed out without a further request -/
theorem sends_queued {a : NetworkBehaviourAction} (ha : a ∈ b.queuedEvents) (hto : a.seedsTo p = true) :
    ∃ n piece requestId, SendsAt fs sha1 b (List.replicate (n + 1) .popEvent) n p piece requestId := by
  obtain ⟨k, hkey, hk⟩ := (Option.any_eq_true _ _).mp hto
  obtain ⟨piece, requestId, rfl⟩ :
      ∃ piece requestId, a = .sendEvent p (.getPieceRes piece requestId) := by
    cases a with
    | sendEvent peer event =>
      cases event with
      | getPieceRes piece requestId =>
        cases hkey
        exact ⟨piece, requestId, by rw [← of_decide_eq_true hk]⟩
      | _ => cases hkey
    | _ => cases hkey
  obtain ⟨n, hn, hget⟩ := List.mem_iff_getElem.mp ha
  refine ⟨n, piece, requestId, { b with queuedEvents := b.queuedEvents.drop n }, .popEvent, ?_, ?_, ?_⟩
  · rw [stateAt, List.take_replicate, Nat.min_eq_left (Nat.le_succ n), exec_popEvents]
  · rw [List.getElem?_replicate, if_pos (Nat.lt_succ_self n)]
  · show (b.queuedEvents.drop n).head? = _
    rw [List.head?_drop, List.getElem?_eq_getElem hn, hget]

end

/-- **When a disconnect is complete.**  In every state a run can reach, for every peer and every order of the
torrents, a disconnect leaves no trace of the peer exactly if the peer was removable from the pool and no answer
to it was queued. -/
theorem disconnect_complete_iff (fs : FileSystem File World Err) (sha1 : List UInt8 → ShaHash) (random : ShaHash)
    (world : World) (config : BitTorrentConfig) (ops : List BehaviourOp) (b : BitTorrent File World)
    (hrun : exec (next fs sha1) (some (withConfig random world config)) ops = some b) (w : Walk) (p : PeerId) :
    Disconnects fs sha1 b p (b.injectDisconnected w p) ↔
      b.torrents.Removable p ∧ ∀ a ∈ b.queuedEvents, a.seedsTo p = false := by
  constructor
  · intro h
    refine ⟨(b.torrents.forgets_removePeer w p).mp h.forgotten, ?_⟩
    intro a ha
    by_contra hto
    obtain ⟨n, piece, requestId, hsends⟩ : ∃ n piece requestId, SendsAt fs sha1 (b.injectDisconnected w p)
        (List.replicate (n + 1) .popEvent) n p piece requestId := sends_queued ha (Bool.eq_true_of_not_eq_false hto)
    obtain ⟨m, hm, request, ⟨_, _, _, _, _, _, _, hop, _⟩, _⟩ := h.later _ n piece requestId hsends
    rw [List.getElem?_replicate, if_pos (Nat.lt_succ_of_lt hm)] at hop
    cases hop
  · rintro ⟨hr, hqueue⟩
    have hforgets : (b.injectDisconnected w p).torrents.Forgets p := (b.torrents.forgets_removePeer w p).mpr hr
    have hg : b.Grounded := exec_some (fun b b' op hb h => hb.step h) (grounded_withConfig random world config) hrun
    have hstep : b.step fs sha1 (.injectDisconnected w p) = some (b.injectDisconnected w p) := rfl
    refine ⟨hforgets, ?_, ?_⟩
    · intro id T block hT hblock
      exact hr.returns w hT hblock
    · intro ops n piece requestId hsends
      exact sends_after (hg.step hstep) hforgets hqueue hsends

/-- nothing is outstanding yet, so the remote can go -/
theorem disconnect_complete_guest :
    ∃ b, exec (next instantDisk firstByte) (some (withConfig (.replicate 0) () .default))
        (.addSeed oneByte .active :: guest ⟨[7]⟩) = some b ∧
      Disconnects instantDisk firstByte b ⟨[7]⟩ (b.injectDisconnected .same ⟨[7]⟩) := by
  refine ⟨_, rfl, ?_⟩
  refine (disconnect_complete_iff instantDisk firstByte (.replicate 0) () .default (.addSeed oneByte .active :: guest ⟨[7]⟩)
    _ rfl .same ⟨[7]⟩).mpr ⟨?_, ?_⟩
  · decide
  · decide

/-- its request for a block outlives the connection -/
theorem disconnect_leaves_request :
    ∃ b, exec (next instantDisk firstByte) (some (withConfig (.replicate 0) () .default))
        (.addSeed oneByte .active :: guest ⟨[7]⟩ ++ [.injectNodeEvent .same 0 ⟨[7]⟩ (.getPieceReq ⟨0, 0, 1⟩ ⟨2⟩)]) = some b ∧
      ¬ Disconnects instantDisk firstByte b ⟨[7]⟩ (b.injectDisconnected .same ⟨[7]⟩) := by
  refine ⟨_, rfl, ?_⟩
  intro h
  have hr := (TorrentPool.forgets_removePeer _ .same ⟨[7]⟩).mp h.forgotten
  revert hr
  decide

end BitTorrent

end Btt
