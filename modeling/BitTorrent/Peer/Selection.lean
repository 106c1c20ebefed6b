import BitTorrent.Peer.Handler

/-!
# Which piece is selected next

The candidate peers of a piece are collected into one `Option` over all tracked peers, so a piece is
selected only if every tracked peer can seed it.

* `CanSeed`, `EveryCanSeed`   a tracked peer, or each of them, can seed a piece;
* `nextPieceBuffer_isSome_iff`   when either strategy finds a piece;
* `nextPieceBuffer_candidates`   its candidates are all tracked peers;
* `SelectsDownloadable`, `RarestFirst`   what the selection is for, and when it is met.
-/

namespace Btt
open Tiling

namespace TorrentPieceHandler
variable (h : TorrentPieceHandler) (env : PollEnv)

/-- the peer is tracked and requests for the piece are answered -/
def CanSeed (i : Nat) (id : PeerId) : Prop :=
  ∃ p, h.peers.lookup id = some p ∧ p.remoteCanSeedPiece i = true

def EveryCanSeed (i : Nat) : Prop := ∀ id ∈ h.peers, h.CanSeed i id

/-- how many of the tracked peers can seed the piece -/
def seedCount (i : Nat) : Nat := h.peers.vals.countP fun p => p.remoteCanSeedPiece i

variable {h env}

theorem CanSeed.tracked {i : Nat} {id : PeerId} (hc : h.CanSeed i id) : id ∈ h.peers := by
  obtain ⟨p, hp, -⟩ := hc
  exact AList.mem_of_lookup hp

theorem everyCanSeed_iff {i : Nat} :
    h.EveryCanSeed i ↔ ∀ p ∈ h.peers.vals, p.remoteCanSeedPiece i = true := by
  constructor
  · intro hall p hp
    obtain ⟨id, hid⟩ := AList.mem_vals.mp hp
    obtain ⟨q, hq, hcan⟩ := hall id (AList.mem_of_lookup hid)
    rw [hid] at hq
    cases hq
    exact hcan
  · intro hall id hid
    obtain ⟨p, hp⟩ := AList.mem_iff_lookup.mp hid
    exact ⟨p, hp, hall p (AList.mem_vals.mpr ⟨id, hp⟩)⟩

/-- without peers every peer can seed, but there is none that can -/
theorem everyCanSeed_of_empty (he : h.peers = ∅) (i : Nat) : h.EveryCanSeed i :=
  fun id hid => (AList.eq_empty_iff.mp he id hid).elim

theorem not_canSeed_of_empty (he : h.peers = ∅) (i : Nat) (id : PeerId) : ¬ h.CanSeed i id :=
  fun hc => AList.eq_empty_iff.mp he id hc.tracked

theorem EveryCanSeed.exists_canSeed {i : Nat} (hall : h.EveryCanSeed i) (hne : h.peers ≠ ∅) : ∃ id, h.CanSeed i id := by
  by_contra hnone
  exact hne (AList.eq_empty_iff.mpr fun id hid => hnone ⟨id, hall id hid⟩)

theorem seedCount_eq_length_iff {i : Nat} : h.seedCount i = h.peers.vals.length ↔ h.EveryCanSeed i := by
  rw [everyCanSeed_iff]
  exact List.countP_eq_length

theorem seedCount_le (i : Nat) : h.seedCount i ≤ h.peers.vals.length := List.countP_le_length

/-! ## the candidates of a piece -/

theorem seedersOf_isSome_iff {i : Nat} : (h.seedersOf env i).isSome = true ↔ h.EveryCanSeed i := by
  have hall : (env.order.run h.peers.entries).all (fun e => e.2.remoteCanSeedPiece i) = true ↔
      h.EveryCanSeed i := by
    rw [(env.order.perm h.peers.entries).all_eq, everyCanSeed_iff, List.all_eq_true]
    show _ ↔ ∀ p ∈ h.peers.entries.map (fun e => e.2), _
    rw [List.forall_mem_map]
  rw [seedersOf_eq, ← hall]
  split
  · rename_i ht
    exact iff_of_true rfl ht
  · rename_i ht
    exact iff_of_false (by simp) ht

/-- whoever is tracked is a candidate -/
theorem mem_of_seedersOf {i : Nat} {peers : List PeerId} (hs : h.seedersOf env i = some peers) (id : PeerId) :
    id ∈ peers ↔ id ∈ h.peers := by
  rw [seedersOf_eq] at hs
  split at hs
  · cases hs
    rw [List.mem_map, AList.mem_iff_lookup]
    constructor
    · rintro ⟨e, he, rfl⟩
      exact ⟨e.2, AList.mem_entries.mp (env.order.mem_run.mp he)⟩
    · rintro ⟨p, hp⟩
      exact ⟨⟨id, p⟩, env.order.mem_run.mpr (AList.mem_entries.mpr hp), rfl⟩
  · cases hs

theorem everyCanSeed_of_seedersOf {i : Nat} {peers : List PeerId} (hs : h.seedersOf env i = some peers) :
    h.EveryCanSeed i := seedersOf_isSome_iff.mp (by rw [hs]; rfl)

/-! ## the two searches -/

/-- the loop ends with a piece if it starts with one or meets one that has candidates -/
theorem rarestLoop_isSome_iff (is : List Nat) (acc : Option (Nat × List PeerId)) :
    (h.rarestLoop env is acc).isSome = true ↔
      acc.isSome = true ∨ ∃ i ∈ is, (h.seedersOf env i).isSome = true := by
  induction is generalizing acc with
  | nil => simp [rarestLoop]
  | cons i is ih =>
    rw [rarestLoop, List.exists_mem_cons_iff]
    cases hs : h.seedersOf env i with
    | none => simp [ih]
    | some peers =>
      refine iff_of_true ?_ (Or.inr (Or.inl rfl))
      have hrest : ∀ r, (h.rarestLoop env is (some r)).isSome = true := fun r => (ih _).mpr (Or.inl rfl)
      simp only
      split
      · rfl
      · cases acc with
        | none => exact hrest _
        | some r =>
          simp only
          split
          · exact hrest _
          · exact hrest _

theorem nextRandomPiece_isSome_iff :
    (h.nextRandomPiece env).isSome = true ↔ ∃ i ∈ h.missingPieceIndices, h.EveryCanSeed i := by
  unfold nextRandomPiece
  simp only [List.findSome?_isSome_iff, Option.isSome_map, seedersOf_isSome_iff, env.shuffle.mem_run]

/-- a peer that can seed some piece can seed at all -/
theorem remoteCanSeed_of_piece {p : BitTorrentPeer} {i : Nat} (hp : p.remoteCanSeedPiece i = true) :
    p.remoteCanSeed = true := (Bool.and_eq_true_iff.mp hp).1

theorem nextLeastCommonPiece_isSome_iff :
    (h.nextLeastCommonPiece env).isSome = true ↔
      h.peers ≠ ∅ ∧ ∃ i ∈ h.missingPieceIndices, h.EveryCanSeed i := by
  have hloop : ((h.rarestLoop env (env.shuffle.run h.missingPieceIndices) none).map fun r =>
      h.bufferFor r.1 r.2).isSome = true ↔ ∃ i ∈ h.missingPieceIndices, h.EveryCanSeed i := by
    rw [Option.isSome_map, rarestLoop_isSome_iff]
    simp only [Option.isSome_none, Bool.false_eq_true, false_or, seedersOf_isSome_iff, env.shuffle.mem_run]
  unfold nextLeastCommonPiece
  split
  · rename_i hany
    obtain ⟨p, hp, -⟩ := List.any_eq_true.mp hany
    refine hloop.trans (and_iff_right ?_).symm
    rintro he
    rw [he] at hp
    cases hp
  · rename_i hany
    refine iff_of_false (by simp) ?_
    rintro ⟨hne, i, -, hall⟩
    obtain ⟨id, p, hp, hcan⟩ := hall.exists_canSeed hne
    have hmem : p ∈ h.peers.vals := AList.mem_vals.mpr ⟨id, hp⟩
    exact hany (List.any_eq_true.mpr ⟨p, hmem, remoteCanSeed_of_piece hcan⟩)

theorem nextPieceBuffer_isSome_iff :
    (h.nextPieceBuffer env).isSome = true ↔
      (h.peers = ∅ → h.selectionStrategy = .random) ∧ ∃ i ∈ h.missingPieceIndices, h.EveryCanSeed i := by
  unfold nextPieceBuffer
  cases h.selectionStrategy with
  | random => simp [nextRandomPiece_isSome_iff]
  | rarest => simp [nextLeastCommonPiece_isSome_iff]

/-- a new buffer is for a missing piece that everyone can seed, and everyone is a candidate -/
theorem nextPieceBuffer_candidates {b : PieceBuffer} (hb : h.nextPieceBuffer env = some b) :
    h.EveryCanSeed b.pieceIndex ∧ ∀ id, id ∈ b.peers ↔ id ∈ h.peers := by
  obtain ⟨i, peers, -, hs, rfl⟩ := nextPieceBuffer_spec hb
  exact ⟨everyCanSeed_of_seedersOf hs, mem_of_seedersOf hs⟩

/-- a peer connects, sends its bitfield and unchokes the interested client -/
def seeding (id : PeerId) (f : BitField) : List HandlerOp :=
  [.insertPeer id (.new (.replicate 0) 0), .setPeerBitfield id f, .setClientInterest id .interested,
    .setChokeOnRemote id .unChoked]

/-- a torrent of two missing pieces, and what has happened to it -/
def twoPieces (sel : PieceSelection) (ops : List HandlerOp) : TorrentPieceHandler :=
  Run.exec step (new ⟨0⟩ sel ⟨[false, false]⟩ 32768 5) ops

/-- **A selected piece is legitimate.**  It is missing, has the length of its place in the torrent, all its
blocks are to be downloaded, and its candidates are tracked peers that can seed it, each listed once. -/
theorem selected_piece_legitimate {b : PieceBuffer} (hb : h.nextPieceBuffer env = some b) :
    b.pieceIndex < h.bitfield.len ∧ h.bitfield.get b.pieceIndex = some false ∧
    (b.pieceIndex + 1 = h.bitfield.len → b.pieceLength = h.lastPieceLength) ∧
    (b.pieceIndex + 1 < h.bitfield.len → b.pieceLength = h.pieceLength) ∧
    Contig 0 (b.missingBlocks.map fun m => (m.blockOffset, m.blockLength)) b.pieceLength ∧
    (∀ m ∈ b.missingBlocks, m.pieceIndex = b.pieceIndex ∧ 0 < m.blockLength ∧
      m.blockLength ≤ PieceBuffer.blockSize) ∧
    b.totalBlocks = b.missingBlocks.length ∧ b.pendingBlocks = ∅ ∧ b.blocks.entries = [] ∧
    b.peers.Nodup ∧ ∀ id ∈ b.peers, h.CanSeed b.pieceIndex id := by
  obtain ⟨i, peers, hi, hs, rfl⟩ := nextPieceBuffer_spec hb
  obtain ⟨hnodup, hcan⟩ := seedersOf_spec hs
  have hlt : i < h.bitfield.len := List.getElem?_eq_some_iff.mp hi |>.1
  refine ⟨hlt, hi, ?_, ?_, PieceBuffer.blocksOf_contig i _, ?_, rfl, rfl, rfl, hnodup, hcan⟩
  · intro hlast
    exact if_pos (Nat.eq_sub_of_add_eq hlast)
  · intro hinner
    refine if_neg ?_
    show i ≠ h.bitfield.len - 1
    have hinner : i + 1 < h.bitfield.len := hinner
    omega
  · intro m hm
    exact ⟨PieceBuffer.pieceIndex_of_mem hm, PieceBuffer.blockLength_pos hm, PieceBuffer.blockLength_le hm⟩

theorem selected_piece_legitimate_last :
    ∃ b, (twoPieces .rarest (seeding ⟨[7]⟩ ⟨[false, true]⟩)).nextPieceBuffer ⟨.same, .same⟩ = some b ∧
      b.pieceIndex = 1 ∧ b.pieceLength = 5 := by
  obtain ⟨b, hb, hi⟩ : ∃ b, (twoPieces .rarest (seeding ⟨[7]⟩ ⟨[false, true]⟩)).nextPieceBuffer ⟨.same, .same⟩
      = some b ∧ b.pieceIndex = 1 := ⟨_, rfl, rfl⟩
  have hspec := selected_piece_legitimate hb
  exact ⟨b, hb, hi, hspec.2.2.1 (by rw [hi]; rfl)⟩

/-! ## what the selection is for -/

variable (h env)

/-- if some peer can seed a missing piece, a piece is selected with all the peers that can seed it;
otherwise the handler waits for peers -/
structure SelectsDownloadable : Prop where
  selects : (∃ i id, h.bitfield.get i = some false ∧ h.CanSeed i id) →
    ∃ b, h.nextPieceBuffer env = some b ∧ b.peers ≠ [] ∧ ∀ id, id ∈ b.peers ↔ h.CanSeed b.pieceIndex id
  waits : (¬ ∃ i id, h.bitfield.get i = some false ∧ h.CanSeed i id) →
    h.nextPieceBuffer env = none ∧
      (h.finished = false → h.bitfield.all = false → (h.poll env).1 = .waitingPeers)

/-- no missing piece that some peer can seed is rarer than the one selected -/
def RarestFirst : Prop :=
  ∀ b, h.nextLeastCommonPiece env = some b → h.bitfield.get b.pieceIndex = some false ∧
    ∀ j id, h.bitfield.get j = some false → h.CanSeed j id → h.seedCount b.pieceIndex ≤ h.seedCount j

variable {h}

theorem mem_missingPieceIndices_iff (hb : h.pieceBuffer = none) {i : Nat} :
    i ∈ h.missingPieceIndices ↔ h.bitfield.get i = some false := by
  refine ⟨mem_missingPieceIndices, ?_⟩
  intro hi
  refine List.mem_filter.mpr ⟨List.mem_range.mpr (List.getElem?_eq_some_iff.mp hi).1, ?_⟩
  rw [hb]
  exact decide_eq_true ⟨hi, Option.some_ne_none i |>.symm⟩

theorem poll_waits (hb : h.pieceBuffer = none) (hn : h.nextPieceBuffer env = none) (hf : h.finished = false)
    (ha : h.bitfield.all = false) : (h.poll env).1 = .waitingPeers := by
  unfold poll
  simp only [hb, hf, ha, hn, Bool.false_eq_true, if_false]

/-- **A downloadable piece is selected** exactly if, whenever some peer can seed a missing piece, there is a
missing piece every peer can seed, and a random selection without any peer finds nothing missing. -/
theorem selectsDownloadable_iff (hb : h.pieceBuffer = none) :
    h.SelectsDownloadable env ↔
      ((∃ i id, h.bitfield.get i = some false ∧ h.CanSeed i id) →
        ∃ i, h.bitfield.get i = some false ∧ h.EveryCanSeed i) ∧
      (h.peers = ∅ → h.selectionStrategy = .random → ∀ i, h.bitfield.get i ≠ some false) := by
  have hsome : (h.nextPieceBuffer env).isSome = true ↔ _ := nextPieceBuffer_isSome_iff
  simp only [mem_missingPieceIndices_iff hb] at hsome
  have hempty : h.peers = ∅ → ¬ ∃ i id, h.bitfield.get i = some false ∧ h.CanSeed i id := by
    rintro he ⟨i, id, -, hc⟩
    exact not_canSeed_of_empty he i id hc
  constructor
  · rintro ⟨hselects, hwaits⟩
    constructor
    · intro hex
      obtain ⟨b, hnext, -⟩ := hselects hex
      exact (hsome.mp (by rw [hnext]; rfl)).2
    · intro he hr i hi
      have hnone := (hwaits (hempty he)).1
      have h1 := hsome.mpr ⟨fun _ => hr, i, hi, everyCanSeed_of_empty he i⟩
      rw [hnone] at h1
      cases h1
  · rintro ⟨hevery, hnobody⟩
    constructor
    · intro hex
      have hne : h.peers ≠ ∅ := fun he => hempty he hex
      obtain ⟨b, hnext⟩ := Option.isSome_iff_exists.mp (hsome.mpr ⟨fun he => (hne he).elim, hevery hex⟩)
      obtain ⟨hall, hmem⟩ := nextPieceBuffer_candidates hnext
      refine ⟨b, hnext, ?_, ?_⟩
      · obtain ⟨i, id, -, hc⟩ := hex
        exact List.ne_nil_of_mem ((hmem id).mpr hc.tracked)
      · intro id
        rw [hmem id]
        exact ⟨hall id, CanSeed.tracked⟩
    · intro hno
      have hnone : h.nextPieceBuffer env = none := by
        rw [← Option.isSome_eq_false_iff.trans Option.isNone_iff_eq_none, Bool.eq_false_iff]
        intro h1
        obtain ⟨hr, i, hi, hall⟩ := hsome.mp h1
        by_cases he : h.peers = ∅
        · exact hnobody he (hr he) i hi
        · obtain ⟨id, hc⟩ := hall.exists_canSeed he
          exact hno ⟨i, id, hi, hc⟩
      exact ⟨hnone, poll_waits env hb hnone⟩

theorem selectsDownloadable_one_peer :
    (twoPieces .random (seeding ⟨[7]⟩ ⟨[true, false]⟩)).SelectsDownloadable ⟨.same, .same⟩ := by
  refine (selectsDownloadable_iff ⟨.same, .same⟩ rfl).mpr ⟨fun _ => ⟨0, rfl, ?_⟩, fun he => by cases he⟩
  rw [everyCanSeed_iff]
  decide

/-- a second peer that has sent nothing yet keeps the handler from asking the first one -/
theorem silent_peer_blocks_selection :
    ¬ (twoPieces .random (seeding ⟨[7]⟩ ⟨[true, true]⟩ ++ [.insertPeer ⟨[8]⟩ (.new (.replicate 0) 0)])
        ).SelectsDownloadable ⟨.same, .same⟩ := by
  intro hs
  obtain ⟨b, hb, -⟩ := hs.selects ⟨0, ⟨[7]⟩, rfl, _, rfl, rfl⟩
  cases hb

/-- **The rarest piece is selected first** exactly if, whenever a piece is selected at all, every peer can
seed every missing piece that some peer can seed. -/
theorem rarestFirst_iff :
    h.RarestFirst env ↔
      ((h.peers ≠ ∅ ∧ ∃ i ∈ h.missingPieceIndices, h.EveryCanSeed i) →
        ∀ j id, h.bitfield.get j = some false → h.CanSeed j id → h.EveryCanSeed j) := by
  have hsome : (h.nextLeastCommonPiece env).isSome = true ↔ _ := nextLeastCommonPiece_isSome_iff
  constructor
  · intro hr hex j id hj hc
    obtain ⟨b, hnext⟩ := Option.isSome_iff_exists.mp (hsome.mpr hex)
    obtain ⟨i, peers, -, hs, rfl⟩ := nextLeastCommonPiece_spec hnext
    have hall : h.EveryCanSeed i := everyCanSeed_of_seedersOf hs
    have hle : h.seedCount i ≤ h.seedCount j := (hr _ hnext).2 j id hj hc
    rw [seedCount_eq_length_iff.mpr hall] at hle
    exact seedCount_eq_length_iff.mp (Nat.le_antisymm (h.seedCount_le j) hle)
  · intro hcond b hnext
    obtain ⟨i, peers, hi, -, rfl⟩ := nextLeastCommonPiece_spec hnext
    refine ⟨hi, ?_⟩
    intro j id hj hc
    have hall := hcond (hsome.mp (by rw [hnext]; rfl)) j id hj hc
    rw [seedCount_eq_length_iff.mpr hall]
    exact h.seedCount_le _

/-- two peers have the first piece, one has the second; the first is selected -/
theorem common_piece_selected :
    ¬ (twoPieces .rarest (seeding ⟨[7]⟩ ⟨[true, true]⟩ ++ seeding ⟨[8]⟩ ⟨[true, false]⟩)
        ).RarestFirst ⟨.same, .same⟩ := by
  intro hr
  have hle := (hr _ rfl).2 1 ⟨[7]⟩ rfl ⟨_, rfl, rfl⟩
  exact absurd hle (by decide)

end TorrentPieceHandler

end Btt
