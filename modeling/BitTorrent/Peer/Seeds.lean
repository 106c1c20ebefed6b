import Mathlib.Algebra.BigOperators.Group.Finset.Piecewise
import Mathlib.Algebra.Order.BigOperators.Group.Finset
import BitTorrent.Peer.Pool

/-!
# The pending seed requests of a pool

A request a torrent accepted waits in `pendingSeedBlocks` until its block is read or it is cancelled.
`seeds k` counts the waiting requests with the key `k`, over all torrents.

* `seeds_step`          only an accepted request adds one, and no more than one;
* `seeds_onBlockRead`   a read block that finds its requester takes one away;
* `onPieceRequest_some` what an accepted request says about its torrent.
-/

namespace Btt
open Run

/-- what an answer is told apart by: the requester, its request, and the place of the block -/
structure SeedKey where
  peer : PeerId
  requestId : RequestId
  index : UInt32
  begin_ : UInt32
deriving DecidableEq

/-- the key of a pending entry -/
def SeedKey.ofEntry (e : PeerId × RequestId × BlockMetadata) : SeedKey :=
  ⟨e.1, e.2.1, UInt32.ofNat e.2.2.pieceIndex, UInt32.ofNat e.2.2.blockOffset⟩

theorem countP_eraseP {α : Type} {l : List α} {test : α → Bool} {e : α} (h : l.find? test = some e)
    (q : α → Bool) : (l.eraseP test).countP q + (if q e = true then 1 else 0) = l.countP q := by
  induction l with
  | nil => cases h
  | cons a l ih =>
    rw [List.find?_cons] at h
    rw [List.eraseP_cons]
    split at h
    · rename_i ht
      cases h
      rw [ht, cond_true, List.countP_cons]
    · rename_i ht
      rw [ht, cond_false, List.countP_cons, List.countP_cons]
      have := ih h
      omega

/-- the request a move of the handler puts among the waiting ones -/
def HandlerOp.enters : HandlerOp → Option (PeerId × RequestId × BlockMetadata)
  | .insertBlockSeed p m r => some (p, r, m)
  | _ => none

namespace TorrentPieceHandler

/-- the waiting requests with the key `k` -/
def seeds (h : TorrentPieceHandler) (k : SeedKey) : Nat :=
  h.pendingSeedBlocks.countP fun e => SeedKey.ofEntry e = k

theorem seeds_clearPendingSeedBlock {h : TorrentPieceHandler} {m : BlockMetadata} {p : PeerId} {r : RequestId}
    (hc : (h.clearPendingSeedBlock m).1 = some (p, r)) (k : SeedKey) :
    (h.clearPendingSeedBlock m).2.seeds k + (if SeedKey.ofEntry (p, r, m) = k then 1 else 0) = h.seeds k := by
  unfold clearPendingSeedBlock at hc ⊢
  obtain ⟨e, he, hpr⟩ := Option.map_eq_some_iff.mp hc
  have hfind : h.pendingSeedBlocks.find? (fun e => e.2.2 = m) = some e := by
    unfold takePendingSeed at he
    split at he
    · rename_i e' hf
      cases he
      exact hf
    · cases he
  have hm : e = (p, r, m) := by
    obtain ⟨p', r', m'⟩ := e
    cases hpr
    have : m' = m := by simpa using List.find?_some hfind
    rw [this]
  rw [takePendingSeed_eq, ← hm]
  have hcount := countP_eraseP hfind fun e => SeedKey.ofEntry e = k
  simp only [decide_eq_true_eq] at hcount
  exact hcount

/-- only `insertBlockSeed` adds a request -/
theorem countP_pending_step (h : TorrentPieceHandler) (hop : HandlerOp)
    (q : PeerId × RequestId × BlockMetadata → Bool) :
    (h.step hop).pendingSeedBlocks.countP q
      ≤ h.pendingSeedBlocks.countP q + hop.enters.elim 0 fun e => if q e = true then 1 else 0 := by
  rcases h.step_cases hop with ⟨peers, buffer, e⟩ | ⟨p, m, r, rfl⟩ | ⟨test, e⟩ | ⟨i, rfl⟩ | ⟨env, rfl⟩
  · rw [e]
    exact Nat.le_add_right _ _
  · show (h.pendingSeedBlocks ++ [(p, r, m)]).countP _ ≤ _
    rw [List.countP_append, List.countP_singleton]
    exact Nat.le_refl _
  · rw [e]
    exact Nat.le_add_right_of_le List.eraseP_sublist.countP_le
  · show (h.setPiece i).pendingSeedBlocks.countP q ≤ _
    rw [setPiece_eq]
    exact Nat.le_refl _
  · show (h.poll env).2.pendingSeedBlocks.countP q ≤ _
    rcases h.poll_cases env with ⟨b, block, -, -, -, e⟩ | ⟨b, err, -, -, -, e⟩ | ⟨b, -, -, e⟩ | ⟨b, -, -, e⟩ |
      ⟨-, st, -, e⟩ | ⟨-, e⟩ <;> rw [e] <;> exact Nat.le_refl _

end TorrentPieceHandler

namespace TorrentPool

/-- the waiting requests of the torrent `id` that pass a test -/
def pendingOf (pool : TorrentPool) (q : PeerId × RequestId × BlockMetadata → Bool) (id : TorrentId) : Nat :=
  (pool.torrents.lookup id).elim 0 fun T => T.pieceHandler.pendingSeedBlocks.countP q

/-- the torrent that takes a request, and the entry of the request there -/
def enters (pool : TorrentPool) : PoolOp → Option (TorrentId × PeerId × RequestId × BlockMetadata)
  | .onPieceRequest w p m r => (pool.onPieceRequest w p m r).1.map fun id => (id, p, r, m)
  | _ => none

/-- the waiting requests of the torrent `id` -/
def seedsOf (pool : TorrentPool) (k : SeedKey) (id : TorrentId) : Nat :=
  (pool.torrents.lookup id).elim 0 fun T => T.pieceHandler.seeds k

/-- the waiting requests of all torrents -/
def seeds (pool : TorrentPool) (k : SeedKey) : Nat :=
  ∑ i ∈ Finset.range pool.nextUniqueTorrent, pool.seedsOf k ⟨i⟩

/-- the torrent that takes a request, and the key of the request -/
def accepts (pool : TorrentPool) : PoolOp → Option (TorrentId × SeedKey)
  | .onPieceRequest w p m r => (pool.onPieceRequest w p m r).1.map fun id => (id, .ofEntry (p, r, m))
  | _ => none

/-! ## accepted requests -/

section
variable {pool : TorrentPool} (hg : ∀ id T, pool.torrents.lookup id = some T → pool.Grounded id T)
include hg

theorem onPieceRequest_first (w : Walk) (p : PeerId) (m : BlockMetadata) (r : RequestId) :
    (pool.onPieceRequest w p m r).1 = pool.first w (·.canSeedPieceTo p m.pieceIndex) := by
  refine walk_first pool w ?_ (fun id T hT => (hg id T hT).key)
  intro t
  split
  · rename_i ht
    rw [ht]
    rfl
  · rename_i ht
    rw [Bool.eq_false_iff.mpr ht]
    rfl

/-- a torrent that takes a request tracks the peer, which is interested, unchoked and has no other
request pending there, and owns the piece -/
theorem onPieceRequest_some {w : Walk} {p : PeerId} {m : BlockMetadata} {r : RequestId} {id : TorrentId}
    (h : (pool.onPieceRequest w p m r).1 = some id) :
    ∃ T peer, pool.torrents.lookup id = some T ∧ T.pieceHandler.peers.lookup p = some peer ∧
      peer.remoteInterest = .interested ∧ peer.clientChoke = .unChoked ∧
      (∀ e ∈ T.pieceHandler.pendingSeedBlocks, e.1 ≠ p) ∧ T.bitfield.get m.pieceIndex = some true := by
  rw [onPieceRequest_first hg] at h
  obtain ⟨T, hl, htest⟩ := first_eq_some h
  unfold Torrent.canSeedPieceTo at htest
  split at htest
  · rename_i peer hp
    rw [Bool.and_eq_true, Bool.and_eq_true] at htest
    obtain ⟨⟨hbit, hleech⟩, hready⟩ := htest
    unfold BitTorrentPeer.remoteCanLeech BitTorrentPeer.isRemoteUnchokedOnClient
      BitTorrentPeer.isRemoteInterested at hleech
    rw [Bool.and_eq_true] at hleech
    refine ⟨T, peer, hl, hp, of_decide_eq_true hleech.2, of_decide_eq_true hleech.1, ?_, ?_⟩
    · intro x hx heq
      rw [TorrentPieceHandler.isReadyToSeedBlock, Bool.not_eq_true', List.any_eq_false] at hready
      exact hready x hx (decide_eq_true heq)
    · unfold TorrentPieceHandler.hasPiece at hbit
      show T.pieceHandler.bitfield.get _ = _
      cases hget : T.pieceHandler.bitfield.get m.pieceIndex with
      | none =>
        rw [hget] at hbit
        cases hbit
      | some bit =>
        rw [hget] at hbit
        exact congrArg some hbit
  · cases htest

/-! ## counting -/

/-- torrents that are not there yet have no requests -/
theorem seedsOf_of_le (k : SeedKey) {i : Nat} (hi : pool.nextUniqueTorrent ≤ i) : pool.seedsOf k ⟨i⟩ = 0 := by
  unfold seedsOf
  cases hT : pool.torrents.lookup ⟨i⟩ with
  | none => rfl
  | some T => exact absurd (hg _ T hT).below (Nat.not_lt.mpr hi)

theorem does_insertBlockSeed {op : PoolOp} {id : TorrentId} {p : PeerId} {m : BlockMetadata} {r : RequestId}
    (h : pool.Does id op (.insertBlockSeed p m r)) : pool.enters op = some (id, p, r, m) := by
  cases op with
  | onPieceRequest w p' m' r' =>
    obtain ⟨hfirst, heq⟩ := h
    cases heq
    show (pool.onPieceRequest w p m r).1.map _ = _
    rw [onPieceRequest_first hg, hfirst]
    rfl
  | _ => simp [Does] at h

/-- a torrent gets one request more, the one it takes, or none -/
theorem pendingOf_step (op : PoolOp) (q : PeerId × RequestId × BlockMetadata → Bool) (id : TorrentId) :
    (pool.step op).pendingOf q id
      ≤ pool.pendingOf q id + (pool.enters op).elim 0 fun x => if x.1 = id ∧ q x.2 = true then 1 else 0 := by
  unfold pendingOf
  cases hT' : (pool.step op).torrents.lookup id with
  | none => exact Nat.zero_le _
  | some T' =>
    rcases lookup_step hT' with ⟨T, hT, hfol⟩ | ⟨config, -, -, -, -, rfl⟩
    · rw [hT, Option.elim_some, Option.elim_some]
      rcases hfol.handler with e | ⟨hop, hdoes, e⟩
      · rw [e]
        exact Nat.le_add_right _ _
      · rw [e]
        have hstep := T.pieceHandler.countP_pending_step hop q
        cases hop with
        | insertBlockSeed p m r =>
          rw [does_insertBlockSeed hg hdoes]
          simpa [HandlerOp.enters] using hstep
        | _ => exact Nat.le_add_right_of_le hstep
    · exact Nat.zero_le _

omit hg in
theorem accepts_eq (op : PoolOp) : pool.accepts op = (pool.enters op).map fun x => (x.1, .ofEntry x.2) := by
  cases op with
  | onPieceRequest w p m r =>
    show (pool.onPieceRequest w p m r).1.map _ = ((pool.onPieceRequest w p m r).1.map _).map _
    rw [Option.map_map]
    rfl
  | _ => rfl

theorem seedsOf_step (op : PoolOp) (k : SeedKey) (id : TorrentId) :
    (pool.step op).seedsOf k id ≤ pool.seedsOf k id + if pool.accepts op = some (id, k) then 1 else 0 := by
  have hstep := pendingOf_step hg op (fun e => SeedKey.ofEntry e = k) id
  rw [accepts_eq]
  cases he : pool.enters op with
  | none =>
    rw [he] at hstep
    exact Nat.le_add_right_of_le hstep
  | some x =>
    rw [he] at hstep
    simp only [Option.elim_some, decide_eq_true_eq] at hstep
    simp only [Option.map_some, Option.some.injEq, Prod.mk.injEq]
    exact hstep

/-- only an accepted request adds to the waiting ones, and no more than one -/
theorem seeds_step (op : PoolOp) (k : SeedKey) :
    (pool.step op).seeds k ≤ pool.seeds k + if (pool.accepts op).map Prod.snd = some k then 1 else 0 := by
  have hnext := pool.nextUniqueTorrent_step op
  have hgrow : ∑ i ∈ Finset.range (pool.step op).nextUniqueTorrent, pool.seedsOf k ⟨i⟩ = pool.seeds k := by
    refine (Finset.sum_subset (Finset.range_mono hnext) ?_).symm
    intro i _ hi
    exact seedsOf_of_le hg k (Nat.not_lt.mp fun hlt => hi (Finset.mem_range.mpr hlt))
  have hone : ∑ i ∈ Finset.range (pool.step op).nextUniqueTorrent,
      (if pool.accepts op = some (⟨i⟩, k) then 1 else 0)
        ≤ if (pool.accepts op).map Prod.snd = some k then 1 else 0 := by
    cases hacc : pool.accepts op with
    | none => simp
    | some a =>
      obtain ⟨⟨j⟩, k'⟩ := a
      by_cases hk : k' = k
      · rw [hk, Option.map_some, if_pos rfl]
        calc ∑ i ∈ Finset.range (pool.step op).nextUniqueTorrent, (if some (TorrentId.mk j, k) = some (⟨i⟩, k) then 1 else 0)
            = ∑ i ∈ Finset.range (pool.step op).nextUniqueTorrent, (if j = i then 1 else 0) := by simp
          _ ≤ 1 := by
            rw [Finset.sum_ite_eq]
            split <;> omega
      · simp [hk]
  calc (pool.step op).seeds k
      ≤ ∑ i ∈ Finset.range (pool.step op).nextUniqueTorrent,
          (pool.seedsOf k ⟨i⟩ + if pool.accepts op = some (⟨i⟩, k) then 1 else 0) :=
        Finset.sum_le_sum fun i _ => seedsOf_step hg op k ⟨i⟩
    _ = pool.seeds k + ∑ i ∈ Finset.range (pool.step op).nextUniqueTorrent,
          (if pool.accepts op = some (⟨i⟩, k) then 1 else 0) := by rw [Finset.sum_add_distrib, hgrow]
    _ ≤ _ := Nat.add_le_add_left hone _

/-- a read block that finds its requester takes one waiting request away -/
theorem seeds_onBlockRead {t : TorrentId} {m : BlockMetadata} {p : PeerId} {r : RequestId}
    (h : (pool.onBlockRead t m).1 = some (p, r)) (k : SeedKey) :
    (pool.onBlockRead t m).2.seeds k + (if SeedKey.ofEntry (p, r, m) = k then 1 else 0) = pool.seeds k := by
  cases hT : pool.torrents.lookup t with
  | none =>
    unfold onBlockRead modify at h
    rw [hT] at h
    cases h
  | some T =>
    have hc : (T.pieceHandler.clearPendingSeedBlock m).1 = some (p, r) := by
      unfold onBlockRead modify at h
      rw [hT] at h
      exact h
    have hnext : (pool.onBlockRead t m).2.nextUniqueTorrent = pool.nextUniqueTorrent :=
      nextUniqueTorrent_modify ..
    have hof : ∀ i, (pool.onBlockRead t m).2.seedsOf k ⟨i⟩
        + (if t.val = i then if SeedKey.ofEntry (p, r, m) = k then 1 else 0 else 0) = pool.seedsOf k ⟨i⟩ := by
      intro i
      show Option.elim ((pool.modify t _).2.torrents.lookup ⟨i⟩) 0 _ + _ = Option.elim _ 0 _
      rw [lookup_modify]
      by_cases e : t.val = i
      · obtain rfl : t = ⟨i⟩ := by cases e; rfl
        rw [if_pos rfl, if_pos rfl, hT]
        exact TorrentPieceHandler.seeds_clearPendingSeedBlock hc k
      · rw [if_neg e, if_neg (fun h => e (congrArg TorrentId.val h).symm), Nat.add_zero]
    have hbelow : t.val ∈ Finset.range pool.nextUniqueTorrent := Finset.mem_range.mpr (hg t T hT).below
    calc (pool.onBlockRead t m).2.seeds k + (if SeedKey.ofEntry (p, r, m) = k then 1 else 0)
        = ∑ i ∈ Finset.range pool.nextUniqueTorrent, ((pool.onBlockRead t m).2.seedsOf k ⟨i⟩
            + if t.val = i then if SeedKey.ofEntry (p, r, m) = k then 1 else 0 else 0) := by
          rw [Finset.sum_add_distrib, Finset.sum_ite_eq, if_pos hbelow, seeds, hnext]
      _ = pool.seeds k := Finset.sum_congr rfl fun i _ => hof i

end

end TorrentPool

end Btt
