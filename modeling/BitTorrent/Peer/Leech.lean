import BitTorrent.Peer.Handler

/-!
# Leeching a piece

Runs of a `TorrentPieceHandler` from `new`, over every operation of `HandlerOp`.

* `accounting_exact`    no block of the current piece is lost or duplicated, as long as no candidate
                        of the buffer unchokes the client again (`UnchokesIdle`); a second unchoke
                        lists the peer twice, and its second request overwrites the first
                        (`second_unchoke_loses_block`).
-/

namespace Btt
open Run PieceBuffer

namespace TorrentPieceHandler

/-! ## accounting for the blocks -/

/-- no peer is pushed to the buffer by an unchoke while it is a candidate already -/
def UnchokesIdle (h : TorrentPieceHandler) : HandlerOp → Prop
  | .setChokeOnRemote id .unChoked => ∀ b ∈ h.pieceBuffer, ∀ p ∈ h.peers.lookup id,
      { p with remoteChoke := .unChoked }.remoteCanSeedPiece b.pieceIndex = true → ¬ b.Candidate id
  | _ => True

/-- the buffer accounts for its piece, and its candidates are tracked peers -/
structure Accounting (h : TorrentPieceHandler) (b : PieceBuffer) : Prop where
  apart : b.Apart
  exact_ : b.Exact
  tracked : ∀ id, b.Candidate id → id ∈ h.peers
  length : b.pieceLength = h.pieceLengthAt b.pieceIndex

/-- a pushed peer is no candidate: it is untracked, or the guard says so -/
theorem not_candidate_of_push {h : TorrentPieceHandler} {b : PieceBuffer} (hb : h.pieceBuffer = some b)
    (ha : h.Accounting b) {op : HandlerOp} (hG : h.UnchokesIdle op) {id : PeerId}
    (hpush : h.bufferOp b op = some (.push id)) : ¬ b.Candidate id := by
  cases op with
  | insertPeer i peer =>
    simp only [bufferOp] at hpush
    split at hpush
    · rename_i hc
      cases hpush
      exact fun hcand => hc.2 (ha.tracked id hcand)
    · cases hpush
  | setChokeOnRemote i c =>
    simp only [bufferOp] at hpush
    split at hpush
    · rename_i p hl
      cases c with
      | choked => cases hpush
      | unChoked =>
        simp only at hpush
        split at hpush
        · rename_i hcan
          cases hpush
          exact hG b hb p hl hcan
        · cases hpush
    · cases hpush
  | removePeer i =>
    simp only [bufferOp] at hpush
    split at hpush <;> cases hpush
  | _ => cases hpush

/-- a pushed peer is tracked afterwards -/
theorem mem_step_of_push {h : TorrentPieceHandler} {b : PieceBuffer} {op : HandlerOp} {id : PeerId}
    (hpush : h.bufferOp b op = some (.push id)) : id ∈ (h.step op).peers := by
  rw [← AList.lookup_isSome, lookup_step]
  cases op with
  | insertPeer i peer =>
    simp only [bufferOp] at hpush
    split at hpush
    · cases hpush
      simp [HandlerOp.onPeer]
    · cases hpush
  | setChokeOnRemote i c =>
    simp only [bufferOp] at hpush
    split at hpush
    · rename_i p hl
      have hi : i = id := by
        cases c with
        | choked => cases hpush
        | unChoked =>
          simp only at hpush
          split at hpush <;> cases hpush
          rfl
      subst hi
      simp [HandlerOp.onPeer, hl]
    · cases hpush
  | removePeer i =>
    simp only [bufferOp] at hpush
    split at hpush <;> cases hpush
  | _ => cases hpush

theorem accounting_new (h : TorrentPieceHandler) {env : PollEnv} {i : Nat} {peers : List PeerId}
    (hs : h.seedersOf env i = some peers) : h.Accounting (h.bufferFor i peers) := by
  obtain ⟨hnd, htr⟩ := seedersOf_spec hs
  refine ⟨new_apart _ _ _ hnd, new_exact _ _ _ _, ?_, rfl⟩
  intro id hid
  rcases hid with hid | hid
  · obtain ⟨p, hp, -⟩ := htr id hid
    exact AList.mem_of_lookup hp
  · exact (AList.notMem_empty _ hid).elim

theorem accounting_step {h : TorrentPieceHandler} {op : HandlerOp} (hG : h.UnchokesIdle op)
    (hI : ∀ b, h.pieceBuffer = some b → h.Accounting b) :
    ∀ b, (h.step op).pieceBuffer = some b → (h.step op).Accounting b := by
  intro b' hb'
  have hlen : ∀ i, (h.step op).pieceLengthAt i = h.pieceLengthAt i :=
    pieceLengthAt_of_static (h.step_static op)
  -- a tracked candidate stays tracked, unless it is the removed peer: that one is no candidate
  have hkeep : ∀ id, id ∈ h.peers → op ≠ .removePeer id → id ∈ (h.step op).peers := by
    intro id hid hne
    rw [← AList.lookup_isSome, lookup_step]
    exact onPeer_isSome (AList.lookup_isSome.mpr hid) hne
  rcases step_buffer_cases hb' with ⟨hb, ho⟩ | ⟨b, o, hb, ho, rfl⟩ | ⟨env, i, peers, -, rfl, -, hs, rfl⟩
  · have ha := hI b' hb
    refine ⟨ha.apart, ha.exact_, ?_, ha.length.trans (hlen _).symm⟩
    intro id hid
    apply hkeep id (ha.tracked id hid)
    rintro rfl
    rw [bufferOp, if_pos (ha.tracked id hid)] at ho
    cases ho
  · have ha := hI b hb
    have hpush : ∀ p, o = .push p → ¬ b.Candidate p := by
      rintro p rfl
      exact not_candidate_of_push hb ha hG ho
    obtain ⟨e1, e2, -⟩ := b.apply_static o
    refine ⟨ha.apart.apply o hpush, ha.exact_.apply ha.apart o, ?_, ?_⟩
    · intro id hid
      rcases candidate_apply hid with hold | rfl
      · apply hkeep id (ha.tracked id hold)
        rintro rfl
        rw [bufferOp, if_pos (ha.tracked id hold)] at ho
        cases ho
        exact ha.apart.not_candidate_remove id hid
      · exact mem_step_of_push ho
    · rw [e1, e2, hlen]
      exact ha.length
  · have ha := h.accounting_new hs
    have hpush : ∀ p, BufferOp.next = .push p → ¬ (h.bufferFor i peers).Candidate p := by
      intro p e
      cases e
    obtain ⟨e1, e2, -⟩ := (h.bufferFor i peers).apply_static .next
    refine ⟨ha.apart.apply .next hpush, ha.exact_.apply ha.apart .next, ?_, ?_⟩
    · intro id hid
      show id ∈ (h.poll env).2.peers
      rw [lookup_poll]
      rcases candidate_apply hid with hid | hid
      · exact ha.tracked id hid
      · cases hid
    · rw [e1, e2, hlen]
      exact ha.length

/-- **No block is lost or duplicated.**  Along every run without an unchoke by a candidate, the missing,
pending and stored blocks are the blocks of the current piece, each once. -/
theorem accounting_exact (id : TorrentId) (sel : PieceSelection) (f : BitField) (n m : Nat)
    (ops : List HandlerOp) (hG : Along step UnchokesIdle (new id sel f n m) ops) (b : PieceBuffer)
    (hb : (exec step (new id sel f n m) ops).pieceBuffer = some b) :
    (b.missingBlocks ++ b.pendingBlocks.vals ++ b.blocks.vals.map Block.metadata).Perm
        (blocksOf b.pieceIndex ((new id sel f n m).pieceLengthAt b.pieceIndex)) ∧
      (blocksOf b.pieceIndex ((new id sel f n m).pieceLengthAt b.pieceIndex)).Nodup := by
  have hI := exec_inv_along (I := fun h : TorrentPieceHandler => ∀ b, h.pieceBuffer = some b → h.Accounting b)
    (fun h op hI hG => accounting_step hG hI) (fun b h0 => by cases h0) hG
  have ha := hI b hb
  have hlen : b.pieceLength = (new id sel f n m).pieceLengthAt b.pieceIndex := by
    rw [ha.length, pieceLengthAt_of_static (exec_static _ ops)]
  rw [← hlen]
  exact ⟨ha.exact_.perm, blocksOf_nodup _ _⟩

section
variable (p : PeerId) (hash : ShaHash)

/-- a peer connects, announces its only piece and unchokes the interested client, which asks it for a
block -/
def firstRequest : List HandlerOp :=
  [.insertPeer p (.new hash 0), .setPeerBitfield p ⟨[true]⟩, .setClientInterest p .interested,
    .setChokeOnRemote p .unChoked, .poll ⟨.same, .same⟩]

/-- the same peer unchokes the client again, and is asked again -/
def secondUnchoke : List HandlerOp :=
  firstRequest p hash ++ [.setChokeOnRemote p .unChoked, .poll ⟨.same, .same⟩]

end

/-- a torrent of one missing piece of two blocks -/
def onePiece : TorrentPieceHandler := new ⟨0⟩ .random ⟨[false]⟩ 32768 32768

theorem accounting_exact_firstRequest :
    ∃ b, (exec step onePiece (firstRequest ⟨[]⟩ (.replicate 0))).pieceBuffer = some b ∧
      b.pendingBlocks.vals = [⟨0, 16384, 16384⟩] ∧
      (b.missingBlocks ++ b.pendingBlocks.vals ++ b.blocks.vals.map Block.metadata).Perm
        (blocksOf b.pieceIndex (onePiece.pieceLengthAt b.pieceIndex)) := by
  have hG : Along step UnchokesIdle onePiece (firstRequest ⟨[]⟩ (.replicate 0)) :=
    ⟨trivial, trivial, trivial, fun _ h => (by cases h), trivial, trivial⟩
  have hv : (exec step onePiece (firstRequest ⟨[]⟩ (.replicate 0))).pieceBuffer.map (·.pendingBlocks.vals)
      = some [⟨0, 16384, 16384⟩] := rfl
  obtain ⟨b, hb, hv⟩ := Option.map_eq_some_iff.mp hv
  exact ⟨b, hb, hv, (accounting_exact _ _ _ _ _ _ hG b hb).1⟩

/-- the second request overwrites the first: the upper block of the piece is neither missing nor
pending nor stored -/
theorem second_unchoke_loses_block :
    ∃ b, (exec step onePiece (secondUnchoke ⟨[]⟩ (.replicate 0))).pieceBuffer = some b ∧
      b.missingBlocks ++ b.pendingBlocks.vals ++ b.blocks.vals.map Block.metadata = [⟨0, 0, 16384⟩] ∧
      ¬ (b.missingBlocks ++ b.pendingBlocks.vals ++ b.blocks.vals.map Block.metadata).Perm
        (blocksOf b.pieceIndex (onePiece.pieceLengthAt b.pieceIndex)) := by
  have hv : (exec step onePiece (secondUnchoke ⟨[]⟩ (.replicate 0))).pieceBuffer.map
      (fun b => (b.missingBlocks ++ b.pendingBlocks.vals ++ b.blocks.vals.map Block.metadata, b.pieceIndex))
      = some ([⟨0, 0, 16384⟩], 0) := rfl
  obtain ⟨b, hb, hv⟩ := Option.map_eq_some_iff.mp hv
  obtain ⟨h1, h2⟩ := Prod.mk.inj hv
  refine ⟨b, hb, h1, ?_⟩
  rw [h1, h2]
  intro h
  exact absurd h.length_eq (by decide)

end TorrentPieceHandler

end Btt
