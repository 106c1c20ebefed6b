import BitTorrent.Lib.Tiling
import BitTorrent.Peer.Piece

/-!
# The buffer of a piece: geometry and invariants

* `blocksOf_tiled`    the blocks of a piece are non-empty and tile it without gap or overlap;
* `Sound`             every block the buffer knows is one of its piece, and a stored block lies under
                      its own offset and is as long as it says: kept by every operation;
* `Sound.finalize`    a full sound buffer turns into its piece, byte by byte;
* `Exact`             missing, pending and stored blocks are together the blocks of the piece, each
                      once.  The operations of the buffer keep it as long as no candidate is busy or
                      listed twice (`Apart`); a peer pushed a second time breaks that.
-/

namespace Btt
open Tiling

/-! ## the blocks of a piece -/

namespace PieceBuffer

/-- the interval of the piece a block covers -/
def place (m : BlockMetadata) : Nat × Nat := (m.blockOffset, m.blockLength)

theorem full_contig (pieceIndex n : Nat) :
    Contig 0 (((List.range n).map fun index =>
      (⟨pieceIndex, index * blockSize, blockSize⟩ : BlockMetadata)).map place) (n * blockSize) := by
  induction n with
  | zero => exact (Nat.zero_mul _).symm
  | succ n ih =>
    rw [List.range_succ, List.map_append, List.map_append, contig_append]
    refine ⟨n * blockSize, ih, rfl, ?_⟩
    show n * blockSize + blockSize = (n + 1) * blockSize
    rw [Nat.succ_mul]

theorem blocksOf_contig (pieceIndex pieceLength : Nat) :
    Contig 0 ((blocksOf pieceIndex pieceLength).map place) pieceLength := by
  have hdiv : pieceLength / blockSize * blockSize + pieceLength % blockSize = pieceLength := by
    rw [Nat.mul_comm]
    exact Nat.div_add_mod pieceLength blockSize
  unfold blocksOf
  rw [List.map_append, contig_append]
  refine ⟨pieceLength / blockSize * blockSize, full_contig pieceIndex _, ?_⟩
  split
  · refine ⟨?_, ?_⟩
    · show pieceLength - pieceLength % blockSize = _
      omega
    · show _ + pieceLength % blockSize = pieceLength
      exact hdiv
  · show pieceLength / blockSize * blockSize = pieceLength
    omega

theorem pieceIndex_of_mem {i n : Nat} {m : BlockMetadata} (h : m ∈ blocksOf i n) : m.pieceIndex = i := by
  unfold blocksOf at h
  rcases List.mem_append.mp h with h | h
  · obtain ⟨k, -, rfl⟩ := List.mem_map.mp h
    rfl
  · split at h
    · rw [List.mem_singleton.mp h]
    · cases h

theorem blockLength_pos {i n : Nat} {m : BlockMetadata} (h : m ∈ blocksOf i n) : 0 < m.blockLength := by
  unfold blocksOf at h
  rcases List.mem_append.mp h with h | h
  · obtain ⟨k, -, rfl⟩ := List.mem_map.mp h
    show 0 < blockSize
    decide
  · split at h
    · rename_i hpos
      rw [List.mem_singleton.mp h]
      exact hpos
    · cases h

theorem blockLength_le {i n : Nat} {m : BlockMetadata} (h : m ∈ blocksOf i n) : m.blockLength ≤ blockSize := by
  unfold blocksOf at h
  rcases List.mem_append.mp h with h | h
  · obtain ⟨k, -, rfl⟩ := List.mem_map.mp h
    exact Nat.le_refl _
  · split at h
    · rw [List.mem_singleton.mp h]
      exact Nat.le_of_lt (Nat.mod_lt n (by decide))
    · cases h

theorem blockSize_dvd_blockOffset {i n : Nat} {m : BlockMetadata} (h : m ∈ blocksOf i n) :
    blockSize ∣ m.blockOffset := by
  unfold blocksOf at h
  rcases List.mem_append.mp h with h | h
  · obtain ⟨k, -, rfl⟩ := List.mem_map.mp h
    exact Nat.dvd_mul_left _ _
  · split at h
    · rw [List.mem_singleton.mp h]
      exact Nat.dvd_sub_mod n
    · cases h

theorem blocksOf_increasing (i n : Nat) : ((blocksOf i n).map BlockMetadata.blockOffset).Pairwise (· < ·) := by
  have h := (blocksOf_contig i n).increasing (by
    intro x hx
    obtain ⟨m, hm, rfl⟩ := List.mem_map.mp hx
    exact blockLength_pos hm)
  rwa [List.map_map] at h

theorem blocksOf_nodup (i n : Nat) : (blocksOf i n).Nodup := by
  have h : ((blocksOf i n).map BlockMetadata.blockOffset).Nodup :=
    (blocksOf_increasing i n).imp (fun hlt => Nat.ne_of_lt hlt)
  exact List.Nodup.of_map _ h

/-- the offset tells the block -/
theorem eq_of_blockOffset {i n : Nat} {m m' : BlockMetadata} (h : m ∈ blocksOf i n) (h' : m' ∈ blocksOf i n)
    (e : m.blockOffset = m'.blockOffset) : m = m' := by
  have hnd : ((blocksOf i n).map BlockMetadata.blockOffset).Nodup :=
    (blocksOf_increasing i n).imp (fun hlt => Nat.ne_of_lt hlt)
  exact List.inj_on_of_nodup_map hnd h h' e

/-- only the last block may be truncated -/
theorem blockLength_of_mem_dropLast {i n : Nat} {m : BlockMetadata} (h : m ∈ (blocksOf i n).dropLast) :
    m.blockLength = blockSize := by
  unfold blocksOf at h
  have hfull : m ∈ (List.range (n / blockSize)).map
      (fun index => (⟨i, index * blockSize, blockSize⟩ : BlockMetadata)) := by
    split at h
    · rwa [List.dropLast_concat] at h
    · rw [List.append_nil] at h
      exact List.mem_of_mem_dropLast h
  obtain ⟨k, -, rfl⟩ := List.mem_map.mp hfull
  rfl

theorem length_blocksOf (i n : Nat) : (blocksOf i n).length = (n + blockSize - 1) / blockSize := by
  have hfull : ((List.range (n / blockSize)).map
      (fun index => (⟨i, index * blockSize, blockSize⟩ : BlockMetadata))).length = n / blockSize := by
    rw [List.length_map, List.length_range]
  unfold blocksOf
  rw [List.length_append, hfull]
  have hdiv := Nat.div_add_mod n 16384
  show n / 16384 + (if n % 16384 > 0 then [_] else []).length = (n + 16384 - 1) / 16384
  split
  · show n / 16384 + 1 = _
    omega
  · show n / 16384 = _
    omega

/-- the blocks tile the piece: one behind the other from its first byte to its end, only the last one
truncated -/
structure Tiled (pieceIndex pieceLength : Nat) (blocks : List BlockMetadata) : Prop where
  consecutive : Contig 0 (blocks.map place) pieceLength
  disjoint : blocks.Pairwise fun a b => a.blockOffset + a.blockLength ≤ b.blockOffset
  index : ∀ m ∈ blocks, m.pieceIndex = pieceIndex
  bounds : ∀ m ∈ blocks, 1 ≤ m.blockLength ∧ m.blockLength ≤ blockSize
  full : ∀ m ∈ blocks.dropLast, m.blockLength = blockSize
  covers : ∀ k, k < pieceLength ↔ ∃ m ∈ blocks, m.blockOffset ≤ k ∧ k < m.blockOffset + m.blockLength

theorem blocksOf_tiled (i n : Nat) : Tiled i n (blocksOf i n) where
  consecutive := blocksOf_contig i n
  disjoint := List.pairwise_map.mp (blocksOf_contig i n).pairwise
  index _ h := pieceIndex_of_mem h
  bounds _ h := ⟨blockLength_pos h, blockLength_le h⟩
  full _ h := blockLength_of_mem_dropLast h
  covers k := by
    constructor
    · intro hk
      obtain ⟨x, hx, hspan⟩ := (blocksOf_contig i n).between_iff.mp ⟨Nat.zero_le k, hk⟩
      obtain ⟨m, hm, rfl⟩ := List.mem_map.mp hx
      exact ⟨m, hm, hspan⟩
    · rintro ⟨m, hm, hspan⟩
      exact ((blocksOf_contig i n).between_iff.mpr ⟨place m, List.mem_map_of_mem hm, hspan⟩).2

/-- **A piece is tiled exactly** by the blocks a new buffer asks for, and the buffer counts them. -/
theorem new_tiled (pieceIndex pieceLength : Nat) (torrentId : TorrentId) (peers : List PeerId) :
    Tiled pieceIndex pieceLength (new pieceIndex pieceLength torrentId peers).missingBlocks ∧
      (new pieceIndex pieceLength torrentId peers).totalBlocks
        = (new pieceIndex pieceLength torrentId peers).missingBlocks.length ∧
      (new pieceIndex pieceLength torrentId peers).totalBlocks = (pieceLength + blockSize - 1) / blockSize ∧
      (pieceLength = 0 → (new pieceIndex pieceLength torrentId peers).missingBlocks = []) := by
  refine ⟨blocksOf_tiled pieceIndex pieceLength, rfl, length_blocksOf pieceIndex pieceLength, ?_⟩
  rintro rfl
  rfl

/-! ## what happens to a buffer -/

end PieceBuffer

/-- the ways the handler changes a buffer -/
inductive BufferOp where
  | push (peer : PeerId)
  | remove (peer : PeerId)
  | add (peer : PeerId) (block : Block)
  | next

namespace PieceBuffer

def apply (b : PieceBuffer) : BufferOp → PieceBuffer
  | .push peer => { b with peers := b.peers ++ [peer] }
  | .remove peer => (b.removePeer peer).2
  | .add peer block => (b.addBlock peer block).2
  | .next => b.next.2

theorem removePeer_cases (b : PieceBuffer) (peer : PeerId) :
    (peer ∈ b.peers ∧ (b.removePeer peer).2 = { b with peers := b.peers.erase peer }) ∨
    (peer ∉ b.peers ∧ ∃ block, b.pendingBlocks.lookup peer = some block ∧
      (b.removePeer peer).2 = { b with
        pendingBlocks := b.pendingBlocks.erase peer
        missingBlocks := b.missingBlocks ++ [block] }) ∨
    (peer ∉ b.peers ∧ peer ∉ b.pendingBlocks ∧ (b.removePeer peer).2 = b) := by
  unfold removePeer
  split
  · exact Or.inl ⟨by assumption, rfl⟩
  · rename_i hp
    split
    · rename_i block hl
      exact Or.inr (Or.inl ⟨hp, block, hl, rfl⟩)
    · rename_i hl
      exact Or.inr (Or.inr ⟨hp, AList.lookup_eq_none.mp hl, rfl⟩)

theorem addBlock_cases (b : PieceBuffer) (peer : PeerId) (block : Block) :
    (b.pendingBlocks.lookup peer = some block.metadata ∧ b.addBlock peer block = (.ok block.metadata, { b with
        pendingBlocks := b.pendingBlocks.erase peer
        blocks := b.blocks.insert block.metadata.blockOffset block
        peers := b.peers ++ [peer] })) ∨
    (∃ expected, b.pendingBlocks.lookup peer = some expected ∧ block.metadata ≠ expected ∧
      b.addBlock peer block = (.error (.invalidBlock peer expected block), { b with
        pendingBlocks := b.pendingBlocks.erase peer
        missingBlocks := b.missingBlocks ++ [expected]
        peers := b.peers ++ [peer] })) ∨
    (b.pendingBlocks.lookup peer = none ∧
      b.addBlock peer block = (.error (.notRequested peer block), b)) := by
  unfold addBlock
  split
  · rename_i expected hl
    split
    · rename_i he
      subst he
      exact Or.inl ⟨hl, rfl⟩
    · rename_i he
      exact Or.inr (Or.inl ⟨expected, hl, he, rfl⟩)
  · rename_i hl
    exact Or.inr (Or.inr ⟨hl, rfl⟩)

theorem next_cases (b : PieceBuffer) :
    (∃ peers peer missing block, b.peers = peers ++ [peer] ∧ b.missingBlocks = missing ++ [block] ∧
      b.next = (some ⟨b.torrentId, block, peer⟩, { b with
        peers := peers
        missingBlocks := missing
        pendingBlocks := b.pendingBlocks.insert peer block })) ∨
    b.next = (none, b) := by
  unfold next
  split
  · rename_i peer hp
    split
    · rename_i block hm
      obtain ⟨peers, hp'⟩ := List.getLast?_eq_some_iff.mp hp
      obtain ⟨missing, hm'⟩ := List.getLast?_eq_some_iff.mp hm
      refine Or.inl ⟨peers, peer, missing, block, hp', hm', ?_⟩
      rw [hp', hm', List.dropLast_concat, List.dropLast_concat]
    · exact Or.inr rfl
  · exact Or.inr rfl

/-- the piece, its length and the block count of a buffer never change -/
theorem apply_static (b : PieceBuffer) (o : BufferOp) :
    (b.apply o).pieceIndex = b.pieceIndex ∧ (b.apply o).pieceLength = b.pieceLength ∧
      (b.apply o).totalBlocks = b.totalBlocks ∧ (b.apply o).torrentId = b.torrentId := by
  cases o with
  | push peer => exact ⟨rfl, rfl, rfl, rfl⟩
  | remove peer =>
    show (b.removePeer peer).2.pieceIndex = _ ∧ (b.removePeer peer).2.pieceLength = _ ∧
      (b.removePeer peer).2.totalBlocks = _ ∧ (b.removePeer peer).2.torrentId = _
    rcases b.removePeer_cases peer with ⟨-, h⟩ | ⟨-, _, -, h⟩ | ⟨-, -, h⟩ <;>
      rw [h] <;> exact ⟨rfl, rfl, rfl, rfl⟩
  | add peer block =>
    show (b.addBlock peer block).2.pieceIndex = _ ∧ (b.addBlock peer block).2.pieceLength = _ ∧
      (b.addBlock peer block).2.totalBlocks = _ ∧ (b.addBlock peer block).2.torrentId = _
    rcases b.addBlock_cases peer block with ⟨-, h⟩ | ⟨_, -, -, h⟩ | ⟨-, h⟩ <;>
      rw [h] <;> exact ⟨rfl, rfl, rfl, rfl⟩
  | next =>
    show b.next.2.pieceIndex = _ ∧ b.next.2.pieceLength = _ ∧ b.next.2.totalBlocks = _ ∧
      b.next.2.torrentId = _
    rcases b.next_cases with ⟨_, _, _, _, -, -, h⟩ | h <;> rw [h] <;> exact ⟨rfl, rfl, rfl, rfl⟩

/-! ## soundness of the known blocks -/

structure Sound (b : PieceBuffer) : Prop where
  missing : ∀ m ∈ b.missingBlocks, m ∈ blocksOf b.pieceIndex b.pieceLength
  pending : ∀ peer m, b.pendingBlocks.lookup peer = some m → m ∈ blocksOf b.pieceIndex b.pieceLength
  stored : ∀ e ∈ b.blocks.entries, e.2.metadata ∈ blocksOf b.pieceIndex b.pieceLength ∧
    e.1 = e.2.metadata.blockOffset ∧ e.2.blockData.length = e.2.metadata.blockLength
  total : b.totalBlocks = (blocksOf b.pieceIndex b.pieceLength).length

theorem new_sound (i n : Nat) (id : TorrentId) (peers : List PeerId) : (new i n id peers).Sound where
  missing := fun _ h => h
  pending := by
    intro peer m h
    have h' : (∅ : AList fun _ : PeerId => BlockMetadata).lookup peer = some m := h
    rw [AList.lookup_empty] at h'
    cases h'
  stored := fun _ h => (List.not_mem_nil h).elim
  total := rfl

/-- taking a pending block back into the missing ones -/
theorem Sound.giveBack {b : PieceBuffer} (hb : b.Sound) {peer : PeerId} {block : BlockMetadata}
    (hl : b.pendingBlocks.lookup peer = some block) (peers : List PeerId) :
    Sound { b with
      pendingBlocks := b.pendingBlocks.erase peer
      missingBlocks := b.missingBlocks ++ [block]
      peers := peers } where
  missing := by
    intro m hm
    rcases List.mem_append.mp hm with hm | hm
    · exact hb.missing m hm
    · rw [List.mem_singleton.mp hm]
      exact hb.pending peer block hl
  pending := by
    intro p m h
    rw [AList.lookup_erase_eq] at h
    split at h
    · cases h
    · exact hb.pending p m h
  stored := hb.stored
  total := hb.total

theorem Sound.apply {b : PieceBuffer} (hb : b.Sound) (o : BufferOp)
    (ho : ∀ peer block, o = .add peer block → block.blockData.length = block.metadata.blockLength) :
    (b.apply o).Sound := by
  cases o with
  | push peer => exact ⟨hb.missing, hb.pending, hb.stored, hb.total⟩
  | remove peer =>
    show Sound (b.removePeer peer).2
    rcases b.removePeer_cases peer with ⟨-, h⟩ | ⟨-, block, hl, h⟩ | ⟨-, -, h⟩ <;> rw [h]
    · exact ⟨hb.missing, hb.pending, hb.stored, hb.total⟩
    · exact hb.giveBack hl b.peers
    · exact hb
  | add peer block =>
    show Sound (b.addBlock peer block).2
    rcases b.addBlock_cases peer block with ⟨hl, h⟩ | ⟨expected, hl, -, h⟩ | ⟨-, h⟩ <;> rw [h]
    · refine ⟨hb.missing, ?_, ?_, hb.total⟩
      · intro p m h
        rw [AList.lookup_erase_eq] at h
        split at h
        · cases h
        · exact hb.pending p m h
      · intro e he
        rcases SortedMap.mem_insertEntries he with rfl | he
        · exact ⟨hb.pending peer _ hl, rfl, ho peer block rfl⟩
        · exact hb.stored e he
    · exact hb.giveBack hl (b.peers ++ [peer])
    · exact hb
  | next =>
    show Sound b.next.2
    rcases b.next_cases with ⟨peers, peer, missing, block, -, hm, h⟩ | h <;> rw [h]
    · have hblock : block ∈ blocksOf b.pieceIndex b.pieceLength :=
        hb.missing block (by rw [hm]; simp)
      refine ⟨?_, ?_, hb.stored, hb.total⟩
      · intro m hmem
        exact hb.missing m (by rw [hm]; exact List.mem_append_left _ hmem)
      · intro p m h
        rw [AList.lookup_insert_eq] at h
        split at h
        · cases h
          exact hblock
        · exact hb.pending p m h
    · exact hb

/-! ## finishing a piece -/

/-- counted full, the stored blocks are exactly the blocks of the piece, in their order -/
theorem Sound.metadata_of_full {b : PieceBuffer} (hb : b.Sound) (hfull : b.isFullPiece = true) :
    b.blocks.vals.map Block.metadata = blocksOf b.pieceIndex b.pieceLength := by
  have hkeys : b.blocks.entries.map Prod.fst
      = (blocksOf b.pieceIndex b.pieceLength).map BlockMetadata.blockOffset := by
    apply eq_of_increasing_subset b.blocks.sorted_keys (blocksOf_increasing _ _)
    · intro k hk
      obtain ⟨e, he, rfl⟩ := List.mem_map.mp hk
      obtain ⟨h1, h2, -⟩ := hb.stored e he
      exact List.mem_map.mpr ⟨_, h1, h2.symm⟩
    · have hlen : b.blocks.len = b.totalBlocks := of_decide_eq_true hfull
      rw [List.length_map, List.length_map, ← hb.total, ← hlen]
      exact Nat.le_refl _
  have hoff : (b.blocks.vals.map Block.metadata).map BlockMetadata.blockOffset
      = (blocksOf b.pieceIndex b.pieceLength).map BlockMetadata.blockOffset := by
    rw [← hkeys, SortedMap.vals, List.map_map, List.map_map]
    apply List.map_congr_left
    intro e he
    exact (hb.stored e he).2.1.symm
  -- both lists are made of blocks of the piece, where the offset is injective
  have hmem : ∀ m ∈ b.blocks.vals.map Block.metadata, m ∈ blocksOf b.pieceIndex b.pieceLength := by
    intro m hm
    obtain ⟨blk, hblk, rfl⟩ := List.mem_map.mp hm
    obtain ⟨e, he, rfl⟩ := List.mem_map.mp hblk
    exact (hb.stored e he).1
  have hlen : (b.blocks.vals.map Block.metadata).length = (blocksOf b.pieceIndex b.pieceLength).length := by
    have h := congrArg List.length hoff
    simp only [List.length_map] at h ⊢
    exact h
  apply List.ext_getElem hlen
  intro k h1 h2
  have hk := congrArg (fun l => l[k]?) hoff
  simp only [List.getElem?_map, List.getElem?_eq_getElem h1, List.getElem?_eq_getElem h2,
    Option.map_some, Option.some.injEq] at hk
  exact eq_of_blockOffset (hmem _ (List.getElem_mem h1)) (List.getElem_mem h2) hk

theorem Sound.stored_contig {b : PieceBuffer} (hb : b.Sound) (hfull : b.isFullPiece = true) :
    Contig 0 ((b.blocks.vals.map fun blk => (blk.metadata.blockOffset, blk.blockData)).map span)
      b.pieceLength := by
  have hplace : (b.blocks.vals.map fun blk => (blk.metadata.blockOffset, blk.blockData)).map span
      = (b.blocks.vals.map Block.metadata).map place := by
    rw [List.map_map, List.map_map]
    apply List.map_congr_left
    intro blk hblk
    obtain ⟨e, he, rfl⟩ := List.mem_map.mp hblk
    show (e.2.metadata.blockOffset, e.2.blockData.length) = (e.2.metadata.blockOffset, e.2.metadata.blockLength)
    rw [(hb.stored e he).2.2]
  rw [hplace, hb.metadata_of_full hfull]
  exact blocksOf_contig _ _

/-- **A full buffer is its piece.**  It finishes without an error, with as many bytes as the piece has,
and every byte is the one a stored block holds for that position. -/
theorem Sound.finalize {b : PieceBuffer} (hb : b.Sound) (hfull : b.isFullPiece = true) :
    ∃ data, b.tryFinalizePiece = .ok ⟨⟨b.pieceIndex, 0, b.pieceLength⟩, data⟩ ∧
      data.length = b.pieceLength ∧
      ∀ k, k < b.pieceLength → ∃ blk ∈ b.blocks.vals, blk.metadata.pieceIndex = b.pieceIndex ∧
        blk.metadata.blockOffset ≤ k ∧ k < blk.metadata.blockOffset + blk.blockData.length ∧
        data[k]? = blk.blockData[k - blk.metadata.blockOffset]? := by
  have hall : b.blocks.vals.all Block.isCorrectLen = true := by
    rw [List.all_eq_true]
    intro blk hblk
    obtain ⟨e, he, rfl⟩ := List.mem_map.mp hblk
    exact decide_eq_true (hb.stored e he).2.2
  have hcontig := hb.stored_contig hfull
  have hflat : (b.blocks.vals.map fun blk => (blk.metadata.blockOffset, blk.blockData)).flatMap Prod.snd
      = b.blocks.vals.flatMap Block.blockData := by
    rw [List.flatMap_map]
  refine ⟨b.blocks.vals.flatMap Block.blockData, ?_, ?_, ?_⟩
  · unfold tryFinalizePiece
    rw [if_pos hall]
  · have hlen := hcontig.length_flatMap
    rw [hflat, Nat.zero_add] at hlen
    exact hlen
  · intro k hk
    obtain ⟨x, hx, h1, h2, h3⟩ := hcontig.getElem_flatMap k (Nat.zero_le k) hk
    rw [hflat, Nat.sub_zero] at h3
    obtain ⟨blk, hblk, rfl⟩ := List.mem_map.mp hx
    refine ⟨blk, hblk, ?_, h1, h2, h3⟩
    obtain ⟨e, he, rfl⟩ := List.mem_map.mp hblk
    exact pieceIndex_of_mem (hb.stored e he).1

/-! ## exactness of the accounting -/

/-- every block the buffer accounts for -/
def accounted (b : PieceBuffer) : List BlockMetadata :=
  b.missingBlocks ++ b.pendingBlocks.vals ++ b.blocks.vals.map Block.metadata

/-- the candidates of the buffer are listed once and have no block outstanding -/
structure Apart (b : PieceBuffer) : Prop where
  nodup : b.peers.Nodup
  idle : ∀ peer ∈ b.peers, peer ∉ b.pendingBlocks

structure Exact (b : PieceBuffer) : Prop where
  keyed : ∀ e ∈ b.blocks.entries, e.1 = e.2.metadata.blockOffset
  perm : b.accounted.Perm (blocksOf b.pieceIndex b.pieceLength)

/-- a peer the buffer may send a request to, now or after its answer -/
def Candidate (b : PieceBuffer) (peer : PeerId) : Prop := peer ∈ b.peers ∨ peer ∈ b.pendingBlocks

instance (b : PieceBuffer) (peer : PeerId) : Decidable (b.Candidate peer) :=
  inferInstanceAs (Decidable (_ ∨ _))

theorem new_apart (i n : Nat) (id : TorrentId) {peers : List PeerId} (h : peers.Nodup) :
    (new i n id peers).Apart :=
  ⟨h, fun _ _ => AList.notMem_empty _⟩

theorem new_exact (i n : Nat) (id : TorrentId) (peers : List PeerId) : (new i n id peers).Exact where
  keyed := fun _ h => (List.not_mem_nil h).elim
  perm := by
    show (blocksOf i n ++ [] ++ []).Perm (blocksOf i n)
    rw [List.append_nil, List.append_nil]

theorem Apart.apply {b : PieceBuffer} (hb : b.Apart) (o : BufferOp)
    (ho : ∀ peer, o = .push peer → ¬ b.Candidate peer) : (b.apply o).Apart := by
  cases o with
  | push peer =>
    have hp : peer ∉ b.peers ∧ peer ∉ b.pendingBlocks := not_or.mp (ho peer rfl)
    refine ⟨?_, ?_⟩
    · exact hb.nodup.snoc hp.1
    · intro p hmem
      rcases List.mem_append.mp hmem with hmem | hmem
      · exact hb.idle p hmem
      · rw [List.mem_singleton.mp hmem]
        exact hp.2
  | remove peer =>
    show Apart (b.removePeer peer).2
    rcases b.removePeer_cases peer with ⟨-, h⟩ | ⟨-, block, -, h⟩ | ⟨-, -, h⟩ <;> rw [h]
    · exact ⟨hb.nodup.erase peer, fun p hp => hb.idle p (List.mem_of_mem_erase hp)⟩
    · refine ⟨hb.nodup, ?_⟩
      intro p hp hmem
      exact hb.idle p hp (AList.mem_erase.mp hmem).2
    · exact hb
  | add peer block =>
    -- the answering peer was busy, so it is not in the list yet
    have hback : ∀ m, b.pendingBlocks.lookup peer = some m →
        (b.peers ++ [peer]).Nodup ∧ ∀ p ∈ b.peers ++ [peer], p ∉ b.pendingBlocks.erase peer := by
      intro m hl
      have hbusy : peer ∈ b.pendingBlocks := AList.mem_of_lookup hl
      have hnot : peer ∉ b.peers := fun hp => hb.idle peer hp hbusy
      refine ⟨hb.nodup.snoc hnot, ?_⟩
      intro p hp hmem
      obtain ⟨hne, hmem⟩ := AList.mem_erase.mp hmem
      rcases List.mem_append.mp hp with hp | hp
      · exact hb.idle p hp hmem
      · exact hne (List.mem_singleton.mp hp)
    show Apart (b.addBlock peer block).2
    rcases b.addBlock_cases peer block with ⟨hl, h⟩ | ⟨expected, hl, -, h⟩ | ⟨-, h⟩ <;> rw [h]
    · exact ⟨(hback _ hl).1, (hback _ hl).2⟩
    · exact ⟨(hback _ hl).1, (hback _ hl).2⟩
    · exact hb
  | next =>
    show Apart b.next.2
    rcases b.next_cases with ⟨peers, peer, missing, block, hp, -, h⟩ | h <;> rw [h]
    · have hnd := hb.nodup
      rw [hp, List.nodup_append] at hnd
      obtain ⟨hnd, -, hne⟩ := hnd
      refine ⟨hnd, ?_⟩
      intro p hmem hbusy
      rcases (AList.mem_insert _).mp hbusy with e | hbusy
      · exact hne p hmem peer (List.mem_singleton_self peer) e
      · exact hb.idle p (by rw [hp]; exact List.mem_append_left _ hmem) hbusy
    · exact hb

theorem accounted_giveBack {b : PieceBuffer} {peer : PeerId} {block : BlockMetadata}
    (hl : b.pendingBlocks.lookup peer = some block) (peers : List PeerId) :
    (accounted { b with
      pendingBlocks := b.pendingBlocks.erase peer
      missingBlocks := b.missingBlocks ++ [block]
      peers := peers }).Perm b.accounted := by
  show (b.missingBlocks ++ [block] ++ (b.pendingBlocks.erase peer).vals ++ _).Perm
    (b.missingBlocks ++ b.pendingBlocks.vals ++ _)
  rw [List.append_assoc b.missingBlocks]
  exact ((AList.vals_perm_erase hl).symm.append_left _).append_right _

theorem accounted_next {b : PieceBuffer} {peers : List PeerId} {peer : PeerId}
    {missing : List BlockMetadata} {block : BlockMetadata} (hm : b.missingBlocks = missing ++ [block])
    (hidle : peer ∉ b.pendingBlocks) :
    (accounted { b with
      peers := peers
      missingBlocks := missing
      pendingBlocks := b.pendingBlocks.insert peer block }).Perm b.accounted := by
  show (missing ++ (b.pendingBlocks.insert peer block).vals ++ _).Perm
    (b.missingBlocks ++ b.pendingBlocks.vals ++ _)
  rw [AList.vals_insert_of_notMem hidle, hm, List.append_assoc missing [block]]
  exact List.Perm.refl _

theorem accounted_store {b : PieceBuffer} {peer : PeerId} {block : Block}
    (hl : b.pendingBlocks.lookup peer = some block.metadata)
    (hnew : ∀ e ∈ b.blocks.entries, e.1 ≠ block.metadata.blockOffset) (peers : List PeerId) :
    (accounted { b with
      pendingBlocks := b.pendingBlocks.erase peer
      blocks := b.blocks.insert block.metadata.blockOffset block
      peers := peers }).Perm b.accounted := by
  show (b.missingBlocks ++ (b.pendingBlocks.erase peer).vals ++
      (b.blocks.insert block.metadata.blockOffset block).vals.map Block.metadata).Perm
    (b.missingBlocks ++ b.pendingBlocks.vals ++ b.blocks.vals.map Block.metadata)
  rw [List.append_assoc, List.append_assoc]
  apply List.Perm.append_left
  have h1 : ((b.blocks.insert block.metadata.blockOffset block).vals.map Block.metadata).Perm
      (block.metadata :: b.blocks.vals.map Block.metadata) :=
    (b.blocks.vals_insert_perm _ block hnew).map Block.metadata
  have h2 : (block.metadata :: (b.pendingBlocks.erase peer).vals).Perm b.pendingBlocks.vals :=
    (AList.vals_perm_erase hl).symm
  exact (h1.append_left _).trans (List.perm_middle.trans (h2.append_right _))

/-- an outstanding block is not stored yet -/
theorem Exact.not_stored {b : PieceBuffer} (hb : b.Exact) {peer : PeerId} {m : BlockMetadata}
    (hl : b.pendingBlocks.lookup peer = some m) : ∀ e ∈ b.blocks.entries, e.1 ≠ m.blockOffset := by
  intro e he heq
  have hm : m ∈ b.pendingBlocks.vals := AList.mem_vals.mpr ⟨peer, hl⟩
  have hs : e.2.metadata ∈ b.blocks.vals.map Block.metadata :=
    List.mem_map_of_mem (List.mem_map_of_mem he)
  have hmem : ∀ x ∈ b.accounted, x ∈ blocksOf b.pieceIndex b.pieceLength :=
    fun x hx => hb.perm.mem_iff.mp hx
  have e1 : e.2.metadata = m := by
    apply eq_of_blockOffset (hmem _ (List.mem_append_right _ hs))
      (hmem _ (List.mem_append_left _ (List.mem_append_right _ hm)))
    rw [← hb.keyed e he, heq]
  have hnd : b.accounted.Nodup := hb.perm.nodup_iff.mpr (blocksOf_nodup _ _)
  have hdisj := (List.nodup_append.mp hnd).2.2
  exact hdisj m (List.mem_append_right _ hm) _ hs e1.symm

theorem Exact.apply {b : PieceBuffer} (hb : b.Exact) (ha : b.Apart) (o : BufferOp) : (b.apply o).Exact := by
  cases o with
  | push peer => exact ⟨hb.keyed, hb.perm⟩
  | remove peer =>
    show Exact (b.removePeer peer).2
    rcases b.removePeer_cases peer with ⟨-, h⟩ | ⟨-, block, hl, h⟩ | ⟨-, -, h⟩ <;> rw [h]
    · exact ⟨hb.keyed, hb.perm⟩
    · exact ⟨hb.keyed, (accounted_giveBack hl b.peers).trans hb.perm⟩
    · exact hb
  | add peer block =>
    show Exact (b.addBlock peer block).2
    rcases b.addBlock_cases peer block with ⟨hl, h⟩ | ⟨expected, hl, -, h⟩ | ⟨-, h⟩ <;> rw [h]
    · refine ⟨?_, (accounted_store hl (hb.not_stored hl) _).trans hb.perm⟩
      intro e he
      rcases SortedMap.mem_insertEntries he with rfl | he
      · rfl
      · exact hb.keyed e he
    · exact ⟨hb.keyed, (accounted_giveBack hl _).trans hb.perm⟩
    · exact hb
  | next =>
    show Exact b.next.2
    rcases b.next_cases with ⟨peers, peer, missing, block, hp, hm, h⟩ | h <;> rw [h]
    · have hidle : peer ∉ b.pendingBlocks := ha.idle peer (by rw [hp]; simp)
      exact ⟨hb.keyed, (accounted_next hm hidle).trans hb.perm⟩
    · exact hb

/-- no operation but a push makes a peer a candidate -/
theorem candidate_apply {b : PieceBuffer} {o : BufferOp} {peer : PeerId} (h : (b.apply o).Candidate peer) :
    b.Candidate peer ∨ o = .push peer := by
  cases o with
  | push p =>
    rcases h with h | h
    · rcases List.mem_append.mp h with h | h
      · exact Or.inl (Or.inl h)
      · exact Or.inr (by rw [List.mem_singleton.mp h])
    · exact Or.inl (Or.inr h)
  | remove p =>
    left
    have h : ((b.removePeer p).2).Candidate peer := h
    rcases b.removePeer_cases p with ⟨-, e⟩ | ⟨-, block, -, e⟩ | ⟨-, -, e⟩ <;> rw [e] at h
    · exact h.imp List.mem_of_mem_erase id
    · exact h.imp id (fun hm => (AList.mem_erase.mp hm).2)
    · exact h
  | add p block =>
    left
    have h : ((b.addBlock p block).2).Candidate peer := h
    have hback : ∀ m, b.pendingBlocks.lookup p = some m →
        peer ∈ b.peers ++ [p] ∨ peer ∈ b.pendingBlocks.erase p → b.Candidate peer := by
      intro m hl hm
      rcases hm with hm | hm
      · rcases List.mem_append.mp hm with hm | hm
        · exact Or.inl hm
        · rw [List.mem_singleton.mp hm]
          exact Or.inr (AList.mem_of_lookup hl)
      · exact Or.inr (AList.mem_erase.mp hm).2
    rcases b.addBlock_cases p block with ⟨hl, e⟩ | ⟨expected, hl, -, e⟩ | ⟨-, e⟩ <;> rw [e] at h
    · exact hback _ hl h
    · exact hback _ hl h
    · exact h
  | next =>
    left
    have h : (b.next.2).Candidate peer := h
    rcases b.next_cases with ⟨peers, p, missing, block, hp, -, e⟩ | e <;> rw [e] at h
    · rcases h with h | h
      · exact Or.inl (by rw [hp]; exact List.mem_append_left _ h)
      · rcases (AList.mem_insert _).mp h with rfl | h
        · exact Or.inl (by rw [hp]; simp)
        · exact Or.inr h
    · exact h

/-- a removed peer is no candidate any more, if it was listed once -/
theorem Apart.not_candidate_remove {b : PieceBuffer} (hb : b.Apart) (peer : PeerId) :
    ¬ (b.apply (.remove peer)).Candidate peer := by
  intro h
  have h : ((b.removePeer peer).2).Candidate peer := h
  rcases b.removePeer_cases peer with ⟨hp, e⟩ | ⟨hp, block, -, e⟩ | ⟨hp, hq, e⟩ <;> rw [e] at h
  · rcases h with h | h
    · exact (hb.nodup.not_mem_erase) h
    · exact hb.idle peer hp h
  · rcases h with h | h
    · exact hp h
    · exact (AList.mem_erase.mp h).1 rfl
  · exact h.elim hp hq

end PieceBuffer

end Btt
