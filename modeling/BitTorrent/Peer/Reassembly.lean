import BitTorrent.Peer.Leech
import BitTorrent.Peer.Selection

/-!
# Reassembling a piece

* `Solid`              the invariant of every handler: its buffer is `Sound` and has the length of its
                       piece.  No guard is needed, not even against lost blocks: a buffer that lost
                       one never fills up;
* `delivered`          a stored block came in by an accepted answer;
* `reassembly_exact`   a finished piece is made of the bytes of accepted answers, position by position.
-/

namespace Btt
open Run PieceBuffer

namespace TorrentPieceHandler

/-- a request for the block is out to the peer -/
def Outstanding (h : TorrentPieceHandler) (peer : PeerId) (m : BlockMetadata) : Prop :=
  ∃ b, h.pieceBuffer = some b ∧ b.pendingBlocks.lookup peer = some m

/-- `add_block` takes the block -/
def Accepts (h : TorrentPieceHandler) (peer : PeerId) (block : Block) : Prop :=
  ∃ m, (h.addBlock peer block).1 = .ok m

/-- only what is outstanding to the very peer is accepted -/
theorem Accepts.outstanding {h : TorrentPieceHandler} {peer : PeerId} {block : Block}
    (ha : h.Accepts peer block) : h.Outstanding peer block.metadata := by
  obtain ⟨m, hm⟩ := ha
  unfold addBlock at hm
  split at hm
  · rename_i b hb
    refine ⟨b, hb, ?_⟩
    rcases b.addBlock_cases peer block with ⟨hl, -⟩ | ⟨_, -, -, e⟩ | ⟨-, e⟩
    · exact hl
    · rw [e] at hm
      cases hm
    · rw [e] at hm
      cases hm
  · cases hm

theorem accepts_of_outstanding {h : TorrentPieceHandler} {b : PieceBuffer} (hb : h.pieceBuffer = some b)
    {peer : PeerId} {block : Block} (hl : b.pendingBlocks.lookup peer = some block.metadata) :
    h.Accepts peer block := by
  refine ⟨block.metadata, ?_⟩
  unfold addBlock
  rw [hb]
  rcases b.addBlock_cases peer block with ⟨-, e⟩ | ⟨_, hl', hne, -⟩ | ⟨hl', -⟩
  · exact congrArg Prod.fst e
  · rw [hl] at hl'
    cases hl'
    exact (hne rfl).elim
  · rw [hl] at hl'
    cases hl'

/-! ## soundness of every reachable buffer -/

def Solid (h : TorrentPieceHandler) : Prop :=
  ∀ b, h.pieceBuffer = some b → b.Sound ∧ b.pieceLength = h.pieceLengthAt b.pieceIndex ∧
    b.torrentId = h.id ∧ b.pieceIndex < h.bitfield.len

theorem solid_new (id : TorrentId) (sel : PieceSelection) (f : BitField) (n m : Nat) :
    (new id sel f n m).Solid := by
  intro b hb
  cases hb

/-- a block added by an operation came from the wire -/
theorem bufferOp_length {h : TorrentPieceHandler} {b : PieceBuffer} {op : HandlerOp} {peer : PeerId}
    {block : Block} (ho : h.bufferOp b op = some (.add peer block)) :
    ∃ piece, op = .addBlock peer piece ∧ block = Block.ofPiece piece := by
  cases op with
  | addBlock p piece =>
    cases ho
    exact ⟨piece, rfl, rfl⟩
  | insertPeer id peer =>
    simp only [bufferOp] at ho
    split at ho <;> cases ho
  | removePeer id =>
    simp only [bufferOp] at ho
    split at ho <;> cases ho
  | setChokeOnRemote id c =>
    simp only [bufferOp] at ho
    split at ho
    · cases c with
      | choked => cases ho
      | unChoked =>
        simp only at ho
        split at ho <;> cases ho
    · cases ho
  | _ => cases ho

theorem Solid.step {h : TorrentPieceHandler} (hs : h.Solid) (op : HandlerOp) : (h.step op).Solid := by
  intro b' hb'
  have hlen : ∀ i, (h.step op).pieceLengthAt i = h.pieceLengthAt i :=
    pieceLengthAt_of_static (h.step_static op)
  have hid : (h.step op).id = h.id := congrArg Prod.fst (h.step_static op)
  have hbits : (h.step op).bitfield.len = h.bitfield.len := congrArg (·.2.2.2.2) (h.step_static op)
  rw [hlen, hid, hbits]
  rcases step_buffer_cases hb' with ⟨hb, -⟩ | ⟨b, o, hb, ho, rfl⟩ | ⟨env, i, peers, -, -, hi, -, rfl⟩
  · exact hs b' hb
  · obtain ⟨h1, h2, h3, h4⟩ := hs b hb
    obtain ⟨e1, e2, -, e4⟩ := b.apply_static o
    rw [e1, e2, e4]
    refine ⟨h1.apply o ?_, h2, h3, h4⟩
    rintro peer block rfl
    obtain ⟨piece, -, rfl⟩ := bufferOp_length ho
    exact Block.length_ofPiece piece
  · obtain ⟨e1, e2, -, e4⟩ := (h.bufferFor i peers).apply_static .next
    rw [e1, e2, e4]
    refine ⟨(new_sound _ _ _ _).apply .next ?_, rfl, rfl, (List.getElem?_eq_some_iff.mp hi).1⟩
    intro peer block e
    cases e

theorem solid_exec (id : TorrentId) (sel : PieceSelection) (f : BitField) (n m : Nat)
    (ops : List HandlerOp) : (exec step (new id sel f n m) ops).Solid :=
  exec_inv (fun _ op hs => hs.step op) (solid_new id sel f n m) ops

/-- a poll that finishes a piece finishes it without an error; its bytes are the stored ones -/
theorem Solid.finished {h : TorrentPieceHandler} (hs : h.Solid) {env : PollEnv}
    {r : Except TorrentError Block} (hr : (h.poll env).1 = .pieceFinished r) :
    ∃ b data, h.pieceBuffer = some b ∧ b.isFullPiece = true ∧ b.pieceIndex < h.bitfield.len ∧
      r = .ok ⟨⟨b.pieceIndex, 0, h.pieceLengthAt b.pieceIndex⟩, data⟩ ∧
      data.length = h.pieceLengthAt b.pieceIndex ∧
      ∀ k, k < h.pieceLengthAt b.pieceIndex → ∃ blk ∈ b.blocks.vals, blk.metadata.pieceIndex = b.pieceIndex ∧
        blk.metadata.blockOffset ≤ k ∧ k < blk.metadata.blockOffset + blk.blockData.length ∧
        data[k]? = blk.blockData[k - blk.metadata.blockOffset]? := by
  have hok : ∀ b, h.pieceBuffer = some b → b.isFullPiece = true → b.tryFinalizePiece = r →
      ∃ b data, h.pieceBuffer = some b ∧ b.isFullPiece = true ∧ b.pieceIndex < h.bitfield.len ∧
        r = .ok ⟨⟨b.pieceIndex, 0, h.pieceLengthAt b.pieceIndex⟩, data⟩ ∧
        data.length = h.pieceLengthAt b.pieceIndex ∧
        ∀ k, k < h.pieceLengthAt b.pieceIndex → ∃ blk ∈ b.blocks.vals,
          blk.metadata.pieceIndex = b.pieceIndex ∧
          blk.metadata.blockOffset ≤ k ∧ k < blk.metadata.blockOffset + blk.blockData.length ∧
          data[k]? = blk.blockData[k - blk.metadata.blockOffset]? := by
    intro b hb hfull hfin
    obtain ⟨hsound, hlen, -, hi⟩ := hs b hb
    obtain ⟨data, hd, hdl, hbytes⟩ := hsound.finalize hfull
    rw [hlen] at hd hdl hbytes
    exact ⟨b, data, hb, hfull, hi, hfin.symm.trans hd, hdl, hbytes⟩
  rcases h.poll_cases env with ⟨b, block, hb, hfull, hfin, e⟩ | ⟨b, err, hb, hfull, hfin, e⟩ | ⟨_, -, -, e⟩ |
    ⟨_, -, -, e⟩ | ⟨-, st, hst, e⟩ | ⟨-, e⟩ <;> rw [e] at hr
  · cases hr
    exact hok b hb hfull hfin
  · cases hr
    exact hok b hb hfull hfin
  · cases hr
  · cases hr
  · rcases hst with rfl | rfl <;> cases hr
  · cases hr

/-! ## where the stored blocks come from -/

/-- the stored blocks after an operation of the buffer: the old ones, and the accepted one -/
theorem stored_apply {b : PieceBuffer} {o : BufferOp} {blk : Block} (h : blk ∈ (b.apply o).blocks.vals) :
    blk ∈ b.blocks.vals ∨ ∃ peer, o = .add peer blk ∧ b.pendingBlocks.lookup peer = some blk.metadata := by
  cases o with
  | push peer => exact Or.inl h
  | remove peer =>
    have h : blk ∈ (b.removePeer peer).2.blocks.vals := h
    rcases b.removePeer_cases peer with ⟨-, e⟩ | ⟨-, _, -, e⟩ | ⟨-, -, e⟩ <;> rw [e] at h <;> exact Or.inl h
  | add peer block =>
    have h : blk ∈ (b.addBlock peer block).2.blocks.vals := h
    rcases b.addBlock_cases peer block with ⟨hl, e⟩ | ⟨_, -, -, e⟩ | ⟨-, e⟩ <;> rw [e] at h
    · obtain ⟨x, hx, rfl⟩ := List.mem_map.mp h
      rcases SortedMap.mem_insertEntries hx with rfl | hx
      · exact Or.inr ⟨peer, rfl, hl⟩
      · exact Or.inl (List.mem_map_of_mem hx)
    · exact Or.inl h
    · exact Or.inl h
  | next =>
    have h : blk ∈ b.next.2.blocks.vals := h
    rcases b.next_cases with ⟨_, _, _, _, -, -, e⟩ | e <;> rw [e] at h <;> exact Or.inl h

/-- a stored block was delivered by an accepted answer of the run -/
theorem delivered {h0 : TorrentPieceHandler} (h0none : h0.pieceBuffer = none) (ops : List HandlerOp) :
    ∀ b, (exec step h0 ops).pieceBuffer = some b → ∀ blk ∈ b.blocks.vals,
      ∃ pre peer piece post, ops = pre ++ .addBlock peer piece :: post ∧
        (exec step h0 pre).Accepts peer (Block.ofPiece piece) ∧ blk = Block.ofPiece piece := by
  induction ops using List.reverseRecOn with
  | nil =>
    intro b hb
    rw [exec_nil, h0none] at hb
    cases hb
  | append_singleton ops op ih =>
    intro b' hb' blk hblk
    rw [exec_snoc] at hb'
    have hold : ∀ b, (exec step h0 ops).pieceBuffer = some b → blk ∈ b.blocks.vals →
        ∃ pre peer piece post, ops ++ [op] = pre ++ .addBlock peer piece :: post ∧
          (exec step h0 pre).Accepts peer (Block.ofPiece piece) ∧ blk = Block.ofPiece piece := by
      intro b hb hmem
      obtain ⟨pre, peer, piece, post, rfl, h2, h3⟩ := ih b hb blk hmem
      exact ⟨pre, peer, piece, post ++ [op], by simp, h2, h3⟩
    rcases step_buffer_cases hb' with ⟨hb, -⟩ | ⟨b, o, hb, ho, rfl⟩ | ⟨env, i, peers, -, -, -, -, rfl⟩
    · exact hold b' hb hblk
    · rcases stored_apply hblk with hblk | ⟨peer, rfl, hl⟩
      · exact hold b hb hblk
      · obtain ⟨piece, rfl, rfl⟩ := bufferOp_length ho
        exact ⟨ops, peer, piece, [], rfl, accepts_of_outstanding hb hl, rfl⟩
    · rcases stored_apply hblk with hblk | ⟨peer, e, -⟩
      · cases hblk
      · cases e

/-- **Reassembly is exact.**  A poll that finishes a piece returns it without an error, with the length of
the piece, and every byte is the one an accepted answer delivered for that position; an accepted answer
was outstanding to the peer that sent it, with its metadata. -/
theorem reassembly_exact (id : TorrentId) (sel : PieceSelection) (f : BitField) (n m : Nat)
    (ops : List HandlerOp) (env : PollEnv) (r : Except TorrentError Block)
    (hr : ((exec step (new id sel f n m) ops).poll env).1 = .pieceFinished r) :
    ∃ b data, (exec step (new id sel f n m) ops).pieceBuffer = some b ∧
      r = .ok ⟨⟨b.pieceIndex, 0, (new id sel f n m).pieceLengthAt b.pieceIndex⟩, data⟩ ∧
      data.length = (new id sel f n m).pieceLengthAt b.pieceIndex ∧
      ∀ k, k < data.length → ∃ pre peer piece post, ops = pre ++ .addBlock peer piece :: post ∧
        (exec step (new id sel f n m) pre).Accepts peer (Block.ofPiece piece) ∧
        (exec step (new id sel f n m) pre).Outstanding peer (Block.ofPiece piece).metadata ∧
        piece.index.toNat = b.pieceIndex ∧ piece.begin_.toNat ≤ k ∧
        k < piece.begin_.toNat + piece.block.length ∧
        data[k]? = piece.block[k - piece.begin_.toNat]? := by
  obtain ⟨b, data, hb, -, -, h1, h2, h3⟩ := (solid_exec id sel f n m ops).finished hr
  have hlen := pieceLengthAt_of_static (exec_static (new id sel f n m) ops) b.pieceIndex
  rw [hlen] at h1 h2 h3
  refine ⟨b, data, hb, h1, h2, ?_⟩
  intro k hk
  rw [h2] at hk
  obtain ⟨blk, hblk, e1, e2, e3, e4⟩ := h3 k hk
  obtain ⟨pre, peer, piece, post, hops, hacc, rfl⟩ := delivered rfl ops b hb blk hblk
  exact ⟨pre, peer, piece, post, hops, hacc, hacc.outstanding, e1, e2, e3, e4⟩

/-- a piece of two bytes and one of one byte, asked for and delivered one behind the other -/
def threeBytesRun : List HandlerOp :=
  seeding ⟨[]⟩ ⟨[true, true]⟩ ++
    [.poll ⟨.same, .same⟩, .addBlock ⟨[]⟩ ⟨0, 0, [97, 98]⟩, .poll ⟨.same, .same⟩, .poll ⟨.same, .same⟩,
      .addBlock ⟨[]⟩ ⟨1, 0, [99]⟩]

theorem reassembly_exact_two_pieces :
    (∃ b data, (exec step (new ⟨0⟩ .random ⟨[false, false]⟩ 2 1) (threeBytesRun.take 6)).pieceBuffer = some b ∧
      ((exec step (new ⟨0⟩ .random ⟨[false, false]⟩ 2 1) (threeBytesRun.take 6)).poll ⟨.same, .same⟩).1
        = .pieceFinished (.ok ⟨⟨b.pieceIndex, 0, 2⟩, data⟩) ∧ data.length = 2) ∧
    ∃ b data, (exec step (new ⟨0⟩ .random ⟨[false, false]⟩ 2 1) threeBytesRun).pieceBuffer = some b ∧
      ((exec step (new ⟨0⟩ .random ⟨[false, false]⟩ 2 1) threeBytesRun).poll ⟨.same, .same⟩).1
        = .pieceFinished (.ok ⟨⟨b.pieceIndex, 0, 1⟩, data⟩) ∧ data.length = 1 := by
  have hfirst : ((exec step (new ⟨0⟩ .random ⟨[false, false]⟩ 2 1) (threeBytesRun.take 6)).poll ⟨.same, .same⟩).1
      = .pieceFinished (.ok ⟨⟨0, 0, 2⟩, [97, 98]⟩) := rfl
  have hsecond : ((exec step (new ⟨0⟩ .random ⟨[false, false]⟩ 2 1) threeBytesRun).poll ⟨.same, .same⟩).1
      = .pieceFinished (.ok ⟨⟨1, 0, 1⟩, [99]⟩) := rfl
  refine ⟨?_, ?_⟩
  · obtain ⟨b, data, hb, h1, h2, -⟩ := reassembly_exact _ _ _ _ _ _ _ _ hfirst
    cases hb
    exact ⟨_, data, rfl, hfirst.trans (congrArg HandlerState.pieceFinished h1), h2⟩
  · obtain ⟨b, data, hb, h1, h2, -⟩ := reassembly_exact _ _ _ _ _ _ _ _ hsecond
    cases hb
    exact ⟨_, data, rfl, hsecond.trans (congrArg HandlerState.pieceFinished h1), h2⟩

end TorrentPieceHandler

end Btt
