import BitTorrent.Peer.Pool

/-!
# Which torrent tracks a peer

Runs of a `TorrentPool` from `new`, over every operation of `PoolOp`.

* `sole_tracker_iff`   a peer stays with one torrent exactly as long as no handshake response is taken
                       from a peer that another torrent tracks; a handshake request is safe, since it
                       asks `is_associated` first (`crossed_handshakes_track_twice`).
-/

namespace Btt
open Run

namespace TorrentPieceHandler

/-- a peer is tracked after an operation only if it was before, or has just been inserted -/
theorem mem_step {h : TorrentPieceHandler} {op : HandlerOp} {p : PeerId} (hp : p ∈ (h.step op).peers) :
    p ∈ h.peers ∨ ∃ r, op = .insertPeer p r := by
  rw [← AList.lookup_isSome, lookup_step] at hp
  by_cases hmem : p ∈ h.peers
  · exact Or.inl hmem
  · right
    rw [AList.lookup_eq_none.mpr hmem] at hp
    cases op with
    | insertPeer i r =>
      simp only [HandlerOp.onPeer] at hp
      split at hp
      · rename_i e
        exact ⟨r, by rw [e]⟩
      · cases hp
    | removePeer i =>
      simp only [HandlerOp.onPeer] at hp
      split at hp <;> cases hp
    | _ =>
      simp only [HandlerOp.onPeer, Option.map_none, ite_self] at hp
      cases hp

end TorrentPieceHandler

namespace TorrentPool

/-- no peer is tracked by two different torrents -/
def SoleTracker (pool : TorrentPool) : Prop :=
  ∀ p id T id' T', pool.torrents.lookup id = some T → pool.torrents.lookup id' = some T' →
    p ∈ T.pieceHandler.peers → p ∈ T'.pieceHandler.peers → id = id'

/-- a handshake response that is taken comes from a peer no other torrent tracks -/
def AnswersNewPeer (pool : TorrentPool) : PoolOp → Prop
  | .onHandshakeResponse p t hs _ => ∀ T, pool.torrents.lookup t = some T → T.infoHash = hs.infoHash →
      ∀ t' T', pool.torrents.lookup t' = some T' → p ∈ T'.pieceHandler.peers → t' = t
  | _ => True

theorem isAssociated_of_mem {pool : TorrentPool} {p : PeerId} {id : TorrentId} {T : Torrent}
    (hT : pool.torrents.lookup id = some T) (hp : p ∈ T.pieceHandler.peers) : pool.isAssociated p = true := by
  unfold isAssociated
  rw [List.any_eq_true]
  exact ⟨T, AList.mem_vals.mpr ⟨id, hT⟩, decide_eq_true hp⟩

/-- a peer enters a torrent by one of the two handshakes -/
theorem does_insertPeer {pool : TorrentPool} {id : TorrentId} {op : PoolOp} {p : PeerId} {r : BitTorrentPeer}
    (h : pool.Does id op (.insertPeer p r)) :
    (∃ w hs now, op = .onHandshakeRequest w p hs now ∧ pool.isAssociated p = false ∧
      pool.first w (·.infoHash = hs.infoHash) = some id ∧ r = .new hs.peerId now) ∨
    (∃ hs now, op = .onHandshakeResponse p id hs now ∧
      (∃ T, pool.torrents.lookup id = some T ∧ T.infoHash = hs.infoHash) ∧ r = .new hs.peerId now) := by
  cases op with
  | onHandshakeRequest w q hs now =>
    obtain ⟨h1, h2, e⟩ := h
    cases e
    exact Or.inl ⟨w, hs, now, rfl, h1, h2, rfl⟩
  | onHandshakeResponse q t hs now =>
    obtain ⟨rfl, h1, e⟩ := h
    cases e
    exact Or.inr ⟨hs, now, rfl, h1, rfl⟩
  | poll w now clock env =>
    rcases h with ⟨t, e⟩ | ⟨q, e⟩ <;> cases e
  | addTorrent config => exact h.elim
  | _ =>
    obtain ⟨-, e⟩ := h
    cases e

/-- a torrent tracks a peer after an operation: it did before, or the operation inserted it -/
theorem mem_step {pool : TorrentPool} {op : PoolOp} {id : TorrentId} {T' : Torrent} {p : PeerId}
    (h : (pool.step op).torrents.lookup id = some T') (hp : p ∈ T'.pieceHandler.peers) :
    (∃ T, pool.torrents.lookup id = some T ∧ p ∈ T.pieceHandler.peers) ∨
      ∃ r, pool.Does id op (.insertPeer p r) := by
  rcases lookup_step h with ⟨T, hT, hfol⟩ | ⟨config, -, -, -, -, rfl⟩
  · rcases hfol.handler with e | ⟨hop, hdoes, e⟩
    · exact Or.inl ⟨T, hT, e ▸ hp⟩
    · rw [e] at hp
      rcases TorrentPieceHandler.mem_step hp with hp | ⟨r, rfl⟩
      · exact Or.inl ⟨T, hT, hp⟩
      · exact Or.inr ⟨r, hdoes⟩
  · exact (AList.notMem_empty _ hp).elim

theorem soleTracker_step {pool : TorrentPool} {op : PoolOp} (hI : pool.SoleTracker)
    (hG : pool.AnswersNewPeer op) : (pool.step op).SoleTracker := by
  intro p id T id' T' hT hT' hp hp'
  -- an inserted peer is tracked by no other torrent before
  have hnew : ∀ i j r S, pool.Does i op (.insertPeer p r) → pool.torrents.lookup j = some S →
      p ∈ S.pieceHandler.peers → j = i := by
    intro i j r S hdoes hS hpS
    rcases does_insertPeer hdoes with ⟨w, hs, now, -, hassoc, -, -⟩ | ⟨hs, now, rfl, ⟨R, hR, hhash⟩, -⟩
    · rw [isAssociated_of_mem hS hpS] at hassoc
      cases hassoc
    · exact hG R hR hhash j S hS hpS
  rcases mem_step hT hp with ⟨S, hS, hpS⟩ | ⟨r, hr⟩
  · rcases mem_step hT' hp' with ⟨S', hS', hpS'⟩ | ⟨r', hr'⟩
    · exact hI p id S id' S' hS hS' hpS hpS'
    · exact hnew id' id r' S hr' hS hpS
  · rcases mem_step hT' hp' with ⟨S', hS', hpS'⟩ | ⟨r', hr'⟩
    · exact (hnew id id' r S' hr hS' hpS').symm
    · -- one operation inserts into one torrent
      rcases does_insertPeer hr with ⟨w, hs, now, rfl, -, h1, -⟩ | ⟨hs, now, rfl, -, -⟩
      · obtain ⟨-, h2, -⟩ := hr'
        exact Option.some.inj (h1.symm.trans h2)
      · obtain ⟨e, -, -⟩ := hr'
        exact e.symm

theorem soleTracker_broken {pool : TorrentPool} {op : PoolOp} (hG : ¬ pool.AnswersNewPeer op) :
    ¬ (pool.step op).SoleTracker := by
  cases op with
  | onHandshakeResponse p t hs now =>
    unfold AnswersNewPeer at hG
    push Not at hG
    obtain ⟨T, hT, hhash, t', T', hT', hp', hne⟩ := hG
    intro hS
    have hstep : (pool.step (.onHandshakeResponse p t hs now)).torrents
        = pool.torrents.insert t (T.act (.insertPeer p (.new hs.peerId now))) := by
      show (pool.onHandshakeResponse p t hs now).2.torrents = _
      unfold onHandshakeResponse
      rw [hT]
      simp only
      rw [if_pos hhash]
      rfl
    refine hne (hS p t' T' t (T.act (.insertPeer p (.new hs.peerId now))) ?_ ?_ hp' ?_)
    · rw [hstep, AList.lookup_insert_ne hne]
      exact hT'
    · rw [hstep]
      exact AList.lookup_insert _
    · exact (AList.mem_insert _).mpr (Or.inl rfl)
  | _ => exact (hG trivial).elim

theorem soleTracker_new (random : ShaHash) (config : BitTorrentConfig) : (new random config).SoleTracker := by
  intro p id T id' T' hT
  rw [show (new random config).torrents = ∅ from rfl, AList.lookup_empty] at hT
  cases hT

/-- **One torrent per peer.**  In every state of a run no peer is tracked by two torrents, exactly if
every handshake response that is taken comes from a peer no other torrent tracks. -/
theorem sole_tracker_iff (random : ShaHash) (config : BitTorrentConfig) (ops : List PoolOp) :
    (∀ pre, pre <+: ops → (exec step (new random config) pre).SoleTracker) ↔
      Along step AnswersNewPeer (new random config) ops := by
  refine safe_iff_along (I := fun pre => (exec step (new random config) pre).SoleTracker)
    (P := fun pre => (exec step (new random config) pre).SoleTracker)
    (soleTracker_new random config) (fun _ h => h) ?_ ?_ ops
  · intro pre op hI hG
    rw [exec_snoc]
    exact soleTracker_step hI hG
  · intro pre op _ hG
    rw [exec_snoc]
    exact soleTracker_broken hG

/-- a torrent with one missing piece of two blocks -/
def leechConfig (infoHash : ShaHash) : TorrentConfig :=
  ⟨infoHash, .active, ⟨[false]⟩, 32768, 32768, .seedAndLeech⟩

def plainConfig : BitTorrentConfig := ⟨none, none, some (.replicate 0)⟩

/-- two torrents; a remote starts a handshake for the first while it answers our handshake for the
second -/
def crossedHandshakes : List PoolOp :=
  [.addTorrent (leechConfig (.replicate 1)), .addTorrent (leechConfig (.replicate 2)),
    .onHandshakeRequest .same ⟨[7]⟩ (.new (.replicate 1) (.replicate 9)) 0,
    .onHandshakeResponse ⟨[7]⟩ ⟨1⟩ (.new (.replicate 2) (.replicate 9)) 0]

theorem crossed_handshakes_track_twice :
    ¬ (exec step (new (.replicate 0) plainConfig) crossedHandshakes).SoleTracker := by
  have h0 : ((exec step (new (.replicate 0) plainConfig) crossedHandshakes).torrents.lookup ⟨0⟩).map
      (fun T => decide (⟨[7]⟩ ∈ T.pieceHandler.peers)) = some true := by decide
  have h1 : ((exec step (new (.replicate 0) plainConfig) crossedHandshakes).torrents.lookup ⟨1⟩).map
      (fun T => decide (⟨[7]⟩ ∈ T.pieceHandler.peers)) = some true := by decide
  obtain ⟨T, hT, hp⟩ := Option.map_eq_some_iff.mp h0
  obtain ⟨T', hT', hp'⟩ := Option.map_eq_some_iff.mp h1
  intro hS
  have := hS ⟨[7]⟩ ⟨0⟩ T ⟨1⟩ T' hT hT' (of_decide_eq_true hp) (of_decide_eq_true hp')
  exact absurd this (by decide)

end TorrentPool

end Btt
