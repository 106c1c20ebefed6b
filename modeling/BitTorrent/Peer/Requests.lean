import BitTorrent.Peer.Tracking

/-!
# Which peers are asked for a block

* `Ready`                  the candidates of a buffer are tracked peers that can seed its piece, and
                           those without a request out are listed once;
* `requests_answerable`    in a run of the pool a block is requested from a tracked peer that can seed
                           the piece and has no other request out, as long as no event makes a candidate
                           unfit without taking it out of the buffer (`KeepsCandidates`);
* `second_unchoke_asks_twice`   what happens otherwise.
-/

namespace Btt
open Run PieceBuffer

/-! ## one handler -/

namespace TorrentPieceHandler

/-- every candidate of the buffer is tracked and can seed the piece, and those not busy are listed once -/
structure Ready (h : TorrentPieceHandler) (b : PieceBuffer) : Prop where
  apart : b.Apart
  fit : ∀ p, b.Candidate p → ∃ r, h.peers.lookup p = some r ∧ r.remoteCanSeedPiece b.pieceIndex = true

/-- the operation leaves every candidate fit, or takes it out of the buffer -/
def KeepsReady (h : TorrentPieceHandler) : HandlerOp → Prop
  | .insertPeer id r => ∀ b, h.pieceBuffer = some b → b.Candidate id → r.remoteCanSeedPiece b.pieceIndex = true
  | .setClientInterest id i => ∀ b, h.pieceBuffer = some b → b.Candidate id → i = .interested
  | .setPeerBitfield id f => ∀ b, h.pieceBuffer = some b → b.Candidate id → f.get b.pieceIndex = some true
  | .setChokeOnRemote id c => h.UnchokesIdle (.setChokeOnRemote id c)
  | _ => True

/-- the record of a candidate after an operation that neither removes nor chokes it -/
theorem fit_onPeer {h : TorrentPieceHandler} {b : PieceBuffer} (hb : h.pieceBuffer = some b) {op : HandlerOp}
    (hG : h.KeepsReady op) {p : PeerId} (hp : b.Candidate p) {r : BitTorrentPeer}
    (hr : r.remoteCanSeedPiece b.pieceIndex = true) (hne : op ≠ .removePeer p)
    (hnc : op ≠ .setChokeOnRemote p .choked) :
    ∃ r', op.onPeer p (some r) = some r' ∧ r'.remoteCanSeedPiece b.pieceIndex = true := by
  have hsplit : ∀ (i : PeerId) (new : BitTorrentPeer → BitTorrentPeer),
      (p = i → (new r).remoteCanSeedPiece b.pieceIndex = true) →
      ∃ r', (if p = i then (some r).map new else some r) = some r' ∧
        r'.remoteCanSeedPiece b.pieceIndex = true := by
    intro i new hnew
    by_cases e : p = i
    · exact ⟨new r, by rw [if_pos e, Option.map_some], hnew e⟩
    · exact ⟨r, by rw [if_neg e], hr⟩
  have hfit := (BitTorrentPeer.remoteCanSeedPiece_iff r b.pieceIndex).mp hr
  obtain ⟨hchoke, hint, f, hf, hget⟩ := hfit
  cases op with
  | insertPeer i r0 =>
    show ∃ r', (if p = i then some r0 else some r) = some r' ∧ _
    by_cases e : p = i
    · exact ⟨r0, if_pos e, hG b hb (e ▸ hp)⟩
    · exact ⟨r, if_neg e, hr⟩
  | removePeer i =>
    have e : p ≠ i := fun e => hne (by rw [e])
    exact ⟨r, if_neg e, hr⟩
  | setClientInterest i n =>
    apply hsplit i
    intro e
    rw [BitTorrentPeer.remoteCanSeedPiece_iff]
    exact ⟨hchoke, hG b hb (e ▸ hp), f, hf, hget⟩
  | setPeerBitfield i g =>
    apply hsplit i
    intro e
    rw [BitTorrentPeer.remoteCanSeedPiece_iff]
    exact ⟨hchoke, hint, g, rfl, hG b hb (e ▸ hp)⟩
  | setChokeOnRemote i c =>
    apply hsplit i
    intro e
    cases c with
    | choked => exact absurd (by rw [e]) hnc
    | unChoked =>
      rw [BitTorrentPeer.remoteCanSeedPiece_iff]
      exact ⟨rfl, hint, f, hf, hget⟩
  | addPeerPiece i k =>
    apply hsplit i
    intro _
    exact BitTorrentPeer.addPiece_remoteCanSeedPiece hr
  | setClientChokeForPeer i c => exact hsplit i _ (fun _ => hr)
  | setInterestOnRemote i n => exact hsplit i _ (fun _ => hr)
  | setRemoteHeartbeat i t => exact hsplit i _ (fun _ => hr)
  | setClientHeartbeat i t => exact hsplit i _ (fun _ => hr)
  | _ => exact ⟨r, rfl, hr⟩

/-- a pushed peer was no candidate, and is fit afterwards -/
theorem Ready.push {h : TorrentPieceHandler} {b : PieceBuffer} (hb : h.pieceBuffer = some b)
    (hrd : h.Ready b) {op : HandlerOp} (hG : h.KeepsReady op) {id : PeerId}
    (hpush : h.bufferOp b op = some (.push id)) :
    ¬ b.Candidate id ∧ ∃ r, (h.step op).peers.lookup id = some r ∧ r.remoteCanSeedPiece b.pieceIndex = true := by
  rw [lookup_step]
  cases op with
  | insertPeer i r0 =>
    simp only [bufferOp] at hpush
    split at hpush
    · rename_i hc
      cases hpush
      refine ⟨?_, r0, if_pos rfl, hc.1⟩
      intro hcand
      obtain ⟨r, hr, -⟩ := hrd.fit id hcand
      exact hc.2 (AList.mem_of_lookup hr)
    · cases hpush
  | setChokeOnRemote i c =>
    simp only [bufferOp] at hpush
    split at hpush
    · rename_i q hl
      cases c with
      | choked => cases hpush
      | unChoked =>
        simp only at hpush
        split at hpush
        · rename_i hcan
          cases hpush
          refine ⟨hG b hb q hl hcan, _, ?_, hcan⟩
          show (if id = id then (h.peers.lookup id).map _ else _) = _
          rw [if_pos rfl, hl, Option.map_some]
        · cases hpush
    · cases hpush
  | removePeer i =>
    simp only [bufferOp] at hpush
    split at hpush <;> cases hpush
  | _ => cases hpush

theorem ready_new {h : TorrentPieceHandler} {env : PollEnv} {i : Nat} {peers : List PeerId}
    (hs : h.seedersOf env i = some peers) : h.Ready (h.bufferFor i peers) := by
  obtain ⟨hnd, hfit⟩ := seedersOf_spec hs
  refine ⟨new_apart _ _ _ hnd, ?_⟩
  intro p hp
  rcases hp with hp | hp
  · exact hfit p hp
  · exact (AList.notMem_empty _ hp).elim

theorem ready_step {h : TorrentPieceHandler} {op : HandlerOp} (hG : h.KeepsReady op)
    (hI : ∀ b, h.pieceBuffer = some b → h.Ready b) :
    ∀ b, (h.step op).pieceBuffer = some b → (h.step op).Ready b := by
  intro b' hb'
  rcases step_buffer_cases hb' with ⟨hb, ho⟩ | ⟨b, o, hb, ho, rfl⟩ | ⟨env, i, peers, -, rfl, -, hs, rfl⟩
  · have hrd := hI b' hb
    refine ⟨hrd.apart, ?_⟩
    intro p hp
    obtain ⟨r, hr, hcan⟩ := hrd.fit p hp
    rw [lookup_step, hr]
    -- a removal or a choke of a tracked peer reaches the buffer
    refine fit_onPeer hb hG hp hcan ?_ ?_
    · rintro rfl
      rw [bufferOp, if_pos (AList.mem_of_lookup hr)] at ho
      cases ho
    · rintro rfl
      simp only [bufferOp, hr] at ho
      cases ho
  · have hrd := hI b hb
    have hpush : ∀ p, o = .push p → ¬ b.Candidate p := by
      rintro p rfl
      exact (hrd.push hb hG ho).1
    obtain ⟨e1, -⟩ := b.apply_static o
    refine ⟨hrd.apart.apply o hpush, ?_⟩
    rw [e1]
    intro p hp
    rcases candidate_apply hp with hold | rfl
    · obtain ⟨r, hr, hcan⟩ := hrd.fit p hold
      rw [lookup_step, hr]
      refine fit_onPeer hb hG hold hcan ?_ ?_
      · rintro rfl
        rw [bufferOp, if_pos (AList.mem_of_lookup hr)] at ho
        cases ho
        exact hrd.apart.not_candidate_remove p hp
      · rintro rfl
        simp only [bufferOp, hr] at ho
        cases ho
        exact hrd.apart.not_candidate_remove p hp
    · exact (hrd.push hb hG ho).2
  · have hrd := ready_new hs
    obtain ⟨e1, -⟩ := (h.bufferFor i peers).apply_static .next
    refine ⟨hrd.apart.apply .next (fun _ e => by cases e), ?_⟩
    rw [e1]
    intro p hp
    show ∃ r, (h.poll env).2.peers.lookup p = some r ∧ _
    rw [lookup_poll]
    rcases candidate_apply hp with hold | e
    · exact hrd.fit p hold
    · cases e

/-- whom a poll asks for a block -/
theorem poll_nextBlock {h : TorrentPieceHandler} (hs : h.Solid) (hI : ∀ b, h.pieceBuffer = some b → h.Ready b)
    {env : PollEnv} {nb : NextBlock} (hp : (h.poll env).1 = .leechBlock (some nb)) :
    nb.torrentId = h.id ∧
    (∃ r, h.peers.lookup nb.peerId = some r ∧ r.remoteCanSeedPiece nb.blockMetadata.pieceIndex = true) ∧
    ∀ b, h.pieceBuffer = some b → nb.peerId ∉ b.pendingBlocks := by
  have hnext : ∀ b, b.Sound → h.Ready b → b.torrentId = h.id → b.next.1 = some nb →
      nb.torrentId = h.id ∧
      (∃ r, h.peers.lookup nb.peerId = some r ∧ r.remoteCanSeedPiece nb.blockMetadata.pieceIndex = true) ∧
      nb.peerId ∉ b.pendingBlocks := by
    intro b hsound hrd hid hnb
    rcases b.next_cases with ⟨peers, peer, missing, block, hpeers, hmissing, e⟩ | e <;> rw [e] at hnb
    · cases hnb
      have hmem : peer ∈ b.peers := by
        rw [hpeers]
        simp
      have hblock : block.pieceIndex = b.pieceIndex := pieceIndex_of_mem (hsound.missing block (by
        rw [hmissing]
        simp))
      obtain ⟨r, hr, hcan⟩ := hrd.fit peer (Or.inl hmem)
      refine ⟨hid, ⟨r, hr, ?_⟩, hrd.apart.idle peer hmem⟩
      show r.remoteCanSeedPiece block.pieceIndex = true
      rw [hblock]
      exact hcan
    · cases hnb
  rcases h.poll_cases env with ⟨_, _, -, -, -, e⟩ | ⟨_, _, -, -, -, e⟩ | ⟨b, hb, -, e⟩ | ⟨b, hnone, hn, e⟩ |
    ⟨-, st, hst, e⟩ | ⟨-, e⟩ <;> rw [e] at hp
  · cases hp
  · cases hp
  · obtain ⟨hsound, -, hid, -⟩ := hs b hb
    obtain ⟨h1, h2, h3⟩ := hnext b hsound (hI b hb) hid (HandlerState.leechBlock.inj hp)
    refine ⟨h1, h2, ?_⟩
    intro b' hb'
    rw [hb] at hb'
    cases hb'
    exact h3
  · obtain ⟨i, peers, -, hseed, rfl⟩ := nextPieceBuffer_spec hn
    obtain ⟨h1, h2, -⟩ := hnext _ (new_sound _ _ _ _) (ready_new hseed) rfl (HandlerState.leechBlock.inj hp)
    refine ⟨h1, h2, ?_⟩
    intro b' hb'
    rw [hnone] at hb'
    cases hb'
  · rcases hst with rfl | rfl <;> cases hp
  · cases hp

end TorrentPieceHandler

/-! ## the pool -/

namespace TorrentPool

/-- no event makes a candidate of a current buffer unfit: its record is not replaced, its new bitfield
still has the piece, the client stays interested, and it does not unchoke again -/
def KeepsCandidates (pool : TorrentPool) : PoolOp → Prop
  | .onHandshakeResponse p t hs _ => ∀ T b, pool.torrents.lookup t = some T → T.infoHash = hs.infoHash →
      T.pieceHandler.pieceBuffer = some b → ¬ b.Candidate p
  | .setPeerBitfield p t f => ∀ T b, pool.torrents.lookup t = some T → T.pieceHandler.pieceBuffer = some b →
      b.Candidate p → f.get b.pieceIndex = some true
  | .onBitfieldRequest w p f => ∀ t T b, pool.first w (·.containsPeer p) = some t →
      pool.torrents.lookup t = some T → T.pieceHandler.pieceBuffer = some b →
      b.Candidate p → f.get b.pieceIndex = some true
  | .setClientInterest t p i => ∀ T b, pool.torrents.lookup t = some T →
      T.pieceHandler.pieceBuffer = some b → b.Candidate p → i = .interested
  | .onChokeByRemote w p c => ∀ t T, pool.first w (·.containsPeer p) = some t →
      pool.torrents.lookup t = some T → T.pieceHandler.UnchokesIdle (.setChokeOnRemote p c)
  | _ => True

/-- every buffer of the pool is ready -/
def AllReady (pool : TorrentPool) : Prop :=
  ∀ id T, pool.torrents.lookup id = some T → ∀ b, T.pieceHandler.pieceBuffer = some b → T.pieceHandler.Ready b

/-- the guard of the pool is the guard of the handler that is hit -/
theorem keepsReady_of_does {pool : TorrentPool} (hI : pool.AllReady) {op : PoolOp}
    (hG : pool.KeepsCandidates op) {id : TorrentId} {T : Torrent} (hT : pool.torrents.lookup id = some T)
    {hop : HandlerOp} (hdoes : pool.Does id op hop) : T.pieceHandler.KeepsReady hop := by
  cases op with
  | onHandshakeRequest w p hs now =>
    obtain ⟨hassoc, -, rfl⟩ := hdoes
    intro b hb hcand
    -- a candidate is tracked, so the peer would be associated
    obtain ⟨r, hr, -⟩ := (hI id T hT b hb).fit p hcand
    rw [isAssociated_of_mem hT (AList.mem_of_lookup hr)] at hassoc
    cases hassoc
  | onHandshakeResponse p t hs now =>
    obtain ⟨rfl, ⟨T', hT', hhash⟩, rfl⟩ := hdoes
    rw [hT] at hT'
    cases hT'
    intro b hb hcand
    exact (hG T b hT hhash hb hcand).elim
  | setPeerBitfield p t f =>
    obtain ⟨rfl, rfl⟩ := hdoes
    exact fun b hb => hG T b hT hb
  | onBitfieldRequest w p f =>
    obtain ⟨hfirst, rfl⟩ := hdoes
    exact fun b hb => hG id T b hfirst hT hb
  | setClientInterest t p i =>
    obtain ⟨rfl, rfl⟩ := hdoes
    exact fun b hb => hG T b hT hb
  | onChokeByRemote w p c =>
    obtain ⟨hfirst, rfl⟩ := hdoes
    exact hG id T hfirst hT
  | poll w now clock env =>
    rcases hdoes with ⟨t, rfl⟩ | ⟨p, rfl⟩ <;> trivial
  | addTorrent config => exact hdoes.elim
  | _ =>
    obtain ⟨-, rfl⟩ := hdoes
    trivial

theorem allReady_step {pool : TorrentPool} {op : PoolOp} (hI : pool.AllReady) (hG : pool.KeepsCandidates op) :
    (pool.step op).AllReady := by
  intro id T' hT' b hb
  rcases lookup_step hT' with ⟨T, hT, hfol⟩ | ⟨config, -, -, -, -, rfl⟩
  · rcases hfol.handler with e | ⟨hop, hdoes, e⟩ <;> rw [e] at hb ⊢
    · exact hI id T hT b hb
    · exact TorrentPieceHandler.ready_step (keepsReady_of_does hI hG hT hdoes) (hI id T hT) b hb
  · cases hb

/-- **Requests go to peers that will answer them.**  Along every run that keeps its candidates, a poll of
the pool asks for a block of a torrent only a peer this torrent tracks, that has unchoked the interested
client and has the piece, and that has no other block outstanding. -/
theorem requests_answerable (random : ShaHash) (config : BitTorrentConfig) (ops : List PoolOp)
    (hG : Along step KeepsCandidates (new random config) ops) (w : Walk) (now clock : Instant)
    (env : TorrentId → PollEnv) (nb : NextBlock)
    (hp : ((exec step (new random config) ops).poll w now clock env).1 = .nextBlock nb) :
    ∃ T r, (exec step (new random config) ops).torrents.lookup nb.torrentId = some T ∧
      T.pieceHandler.peers.lookup nb.peerId = some r ∧
      r.remoteCanSeedPiece nb.blockMetadata.pieceIndex = true ∧
      ∀ b, T.pieceHandler.pieceBuffer = some b → nb.peerId ∉ b.pendingBlocks := by
  have hI : (exec step (new random config) ops).AllReady := by
    refine exec_inv_along (fun _ _ hI hG => allReady_step hI hG) ?_ hG
    intro id T hT
    rw [show (new random config).torrents = ∅ from rfl, AList.lookup_empty] at hT
    cases hT
  obtain ⟨-, id, T, -, -, -, hT, -, hpoll⟩ := poll_answer hp (fun e => by cases e)
  have hg := grounded_exec random config ops id T hT
  have hleech : (T.pieceHandler.poll (env T.id)).1 = .leechBlock (some nb) := by
    rcases T.poll_cases now clock (env T.id) with ⟨p, e⟩ | ⟨p, e⟩ | ⟨sl, e⟩ <;> rw [e] at hpoll
    · cases hpoll
    · cases hpoll
    · unfold Torrent.outcome at hpoll
      split at hpoll <;> cases hpoll
      assumption
  obtain ⟨h1, ⟨r, h2, h3⟩, h4⟩ := TorrentPieceHandler.poll_nextBlock hg.solid (hI id T hT) hleech
  rw [h1, hg.handler]
  exact ⟨T, r, hT, h2, h3, h4⟩

/-- as long as no torrent has a buffer there is no candidate -/
theorem keepsCandidates_of_no_buffer {pool : TorrentPool}
    (h : pool.torrents.vals.all (fun T => T.pieceHandler.pieceBuffer.isNone) = true) (op : PoolOp) :
    pool.KeepsCandidates op := by
  have hnone : ∀ t T b, pool.torrents.lookup t = some T → T.pieceHandler.pieceBuffer = some b → False := by
    intro t T b hT hb
    have := List.all_eq_true.mp h T (AList.mem_vals.mpr ⟨t, hT⟩)
    rw [hb] at this
    cases this
  cases op with
  | onHandshakeResponse p t hs now => exact fun T b hT _ hb => (hnone t T b hT hb).elim
  | setPeerBitfield p t f => exact fun T b hT hb => (hnone t T b hT hb).elim
  | onBitfieldRequest w p f => exact fun t T b _ hT hb => (hnone t T b hT hb).elim
  | setClientInterest t p i => exact fun T b hT hb => (hnone t T b hT hb).elim
  | onChokeByRemote w p c =>
    intro t T _ hT
    cases c with
    | choked => trivial
    | unChoked => exact fun b hb => (hnone t T b hT hb).elim
  | _ => trivial

/-- a peer answers our handshake, announces its only piece and unchokes the interested client -/
def connected : List PoolOp :=
  [.addTorrent (leechConfig (.replicate 1)),
    .onHandshakeResponse ⟨[7]⟩ ⟨0⟩ (.new (.replicate 1) (.replicate 9)) 0,
    .setPeerBitfield ⟨[7]⟩ ⟨0⟩ ⟨[true]⟩, .setClientInterest ⟨0⟩ ⟨[7]⟩ .interested,
    .onChokeByRemote .same ⟨[7]⟩ .unChoked]

/-- it is asked for a block and unchokes again -/
def unchokedAgain : List PoolOp :=
  connected ++ [.poll .same 0 0 (fun _ => ⟨.same, .same⟩), .onChokeByRemote .same ⟨[7]⟩ .unChoked]

theorem requests_answerable_connected :
    ∃ T r, (exec step (new (.replicate 0) plainConfig) connected).torrents.lookup ⟨0⟩ = some T ∧
      T.pieceHandler.peers.lookup ⟨[7]⟩ = some r ∧ r.remoteCanSeedPiece 0 = true ∧
      ∀ b, T.pieceHandler.pieceBuffer = some b → ⟨[7]⟩ ∉ b.pendingBlocks := by
  have hG : Along step KeepsCandidates (new (.replicate 0) plainConfig) connected :=
    ⟨keepsCandidates_of_no_buffer rfl _, keepsCandidates_of_no_buffer rfl _,
      keepsCandidates_of_no_buffer rfl _, keepsCandidates_of_no_buffer rfl _,
      keepsCandidates_of_no_buffer rfl _, trivial⟩
  exact requests_answerable _ _ _ hG .same 0 0 (fun _ => ⟨.same, .same⟩) ⟨⟨0⟩, ⟨0, 16384, 16384⟩, ⟨[7]⟩⟩ rfl

/-- the second request to the peer goes out while its first one is outstanding -/
theorem second_unchoke_asks_twice :
    ∃ nb T b, ((exec step (new (.replicate 0) plainConfig) unchokedAgain).poll .same 0 0
        (fun _ => ⟨.same, .same⟩)).1 = .nextBlock nb ∧
      (exec step (new (.replicate 0) plainConfig) unchokedAgain).torrents.lookup nb.torrentId = some T ∧
      T.pieceHandler.pieceBuffer = some b ∧ nb.peerId ∈ b.pendingBlocks := by
  have hv : ((exec step (new (.replicate 0) plainConfig) unchokedAgain).torrents.lookup ⟨0⟩).map
      (fun T => T.pieceHandler.pieceBuffer.map fun b => decide (⟨[7]⟩ ∈ b.pendingBlocks)) = some (some true) := by
    decide
  obtain ⟨T, hT, hb⟩ := Option.map_eq_some_iff.mp hv
  obtain ⟨b, hb, hmem⟩ := Option.map_eq_some_iff.mp hb
  exact ⟨⟨⟨0⟩, ⟨0, 0, 16384⟩, ⟨[7]⟩⟩, T, b, rfl, hT, hb, of_decide_eq_true hmem⟩

end TorrentPool

end Btt
