import Mathlib.Algebra.Group.Prod
import Mathlib.Algebra.Order.Group.Multiset
import BitTorrent.Peer.Completion
import BitTorrent.Peer.Selection
import BitTorrent.Peer.Progress

/-!
# The books of a download

The blocks that are still to be asked for, the requests that are out, the pieces that are still to be finished and the
report that all is finished are the accounts of a `TorrentPieceHandler` (`stock`).  An operation takes from them what
it asks for, what it is answered and what it finishes (`taken`), and gives what it asks for to the requests that are
out (`given`).

* `Keeps`        the operation gives up no request that is out, and sets no missing piece as owned;
* `Orderly`      the invariant: the buffer is sound and accounts for its piece, and nothing is left once the torrent
                 is finished;
* `books_step`   every step of an orderly handler that keeps its requests balances.
-/

namespace Btt
open Run PieceBuffer

namespace PieceBuffer

/-- what a buffer still wants: its piece, the blocks it has to ask for and those it has asked for -/
def demand (b : PieceBuffer) : Nat × List BlockMetadata × List BlockMetadata :=
  (b.pieceIndex, b.missingBlocks, b.pendingBlocks.vals)

/-- taking out a peer that has nothing to answer leaves the demand as it is -/
theorem demand_remove {b : PieceBuffer} {peer : PeerId} (hidle : peer ∉ b.pendingBlocks) :
    (b.apply (.remove peer)).demand = b.demand := by
  show demand (b.removePeer peer).2 = b.demand
  rcases b.removePeer_cases peer with ⟨-, e⟩ | ⟨-, block, hl, -⟩ | ⟨-, -, e⟩
  · rw [e]; rfl
  · exact (hidle (AList.mem_of_lookup hl)).elim
  · rw [e]

/-- what is asked for goes from the missing blocks to the outstanding ones -/
theorem demand_next {b : PieceBuffer} (ha : b.Apart) :
    ((b.next.1.map NextBlock.blockMetadata).toList ++ b.next.2.missingBlocks).Perm b.missingBlocks ∧
      b.next.2.pendingBlocks.vals.Perm (b.pendingBlocks.vals ++ (b.next.1.map NextBlock.blockMetadata).toList) := by
  rcases b.next_cases with ⟨peers, peer, missing, block, hp, hm, e⟩ | e
  · have hidle : peer ∉ b.pendingBlocks := ha.idle peer (by rw [hp]; simp)
    rw [e, hm]
    show ([block] ++ missing).Perm (missing ++ [block]) ∧
      (b.pendingBlocks.insert peer block).vals.Perm (b.pendingBlocks.vals ++ [block])
    rw [AList.vals_insert_of_notMem hidle]
    exact ⟨(List.perm_append_singleton block missing).symm, (List.perm_append_singleton block _).symm⟩
  · rw [e]
    show ([] ++ b.missingBlocks).Perm b.missingBlocks ∧ b.pendingBlocks.vals.Perm (b.pendingBlocks.vals ++ [])
    rw [List.nil_append, List.append_nil]
    exact ⟨List.Perm.refl _, List.Perm.refl _⟩

/-- the block that was asked for is not outstanding any more -/
theorem demand_add {b : PieceBuffer} {peer : PeerId} {block : Block}
    (hm : ∀ m, b.pendingBlocks.lookup peer = some m → block.metadata = m) :
    (b.addBlock peer block).2.missingBlocks = b.missingBlocks ∧
      ((b.addBlock peer block).1.toOption.toList ++ (b.addBlock peer block).2.pendingBlocks.vals).Perm
        b.pendingBlocks.vals := by
  rcases b.addBlock_cases peer block with ⟨hl, e⟩ | ⟨expected, hl, hne, -⟩ | ⟨-, e⟩
  · rw [e]
    exact ⟨rfl, (AList.vals_perm_erase hl).symm⟩
  · exact (hne (hm expected hl)).elim
  · rw [e]
    exact ⟨rfl, List.Perm.refl _⟩

/-- nothing of a full buffer is missing or asked for -/
theorem Exact.demand_of_full {b : PieceBuffer} (hb : b.Exact) (hs : b.Sound) (hfull : b.isFullPiece = true) :
    b.missingBlocks = [] ∧ b.pendingBlocks.vals = [] := by
  have hlen := hb.perm.length_eq
  have hstored : b.blocks.vals.length = (blocksOf b.pieceIndex b.pieceLength).length := by
    rw [← hs.total, ← show b.blocks.len = b.totalBlocks from of_decide_eq_true hfull]
    exact List.length_map ..
  rw [accounted, List.length_append, List.length_append, List.length_map, hstored] at hlen
  exact ⟨List.eq_nil_of_length_eq_zero (by omega), List.eq_nil_of_length_eq_zero (by omega)⟩

end PieceBuffer

/-- the block that a peer is asked for -/
def HandlerState.request : HandlerState → List BlockMetadata
  | .leechBlock next => (next.map NextBlock.blockMetadata).toList
  | _ => []

namespace TorrentPieceHandler

/-! ## the accounts -/

/-- the blocks of the pieces that no buffer has been made for -/
def unstarted (h : TorrentPieceHandler) : List BlockMetadata :=
  h.missingPieceIndices.flatMap fun i => blocksOf i (h.pieceLengthAt i)

/-- the blocks that are still to be asked for -/
def toAsk (h : TorrentPieceHandler) : List BlockMetadata :=
  h.pieceBuffer.elim [] PieceBuffer.missingBlocks ++ h.unstarted

/-- the blocks that are asked for and not answered yet -/
def asked (h : TorrentPieceHandler) : List BlockMetadata := h.pieceBuffer.elim [] fun b => b.pendingBlocks.vals

/-- the pieces that are still to be finished -/
def unfinishedPieces (h : TorrentPieceHandler) : List Nat :=
  (h.pieceBuffer.map PieceBuffer.pieceIndex).toList ++ h.missingPieceIndices

/-- blocks to ask for, blocks asked for, pieces to finish, and the report that all is finished -/
abbrev Books := Multiset BlockMetadata × Multiset BlockMetadata × Multiset Nat × Nat

def stock (h : TorrentPieceHandler) : Books :=
  (h.toAsk, h.asked, h.unfinishedPieces, if h.finished then 0 else 1)

/-- the block that a poll asks a peer for -/
def requests (h : TorrentPieceHandler) (op : HandlerOp) : List BlockMetadata :=
  (h.result op).elim [] HandlerState.request

/-- the block that an answer brings -/
def answers (h : TorrentPieceHandler) : HandlerOp → List BlockMetadata
  | .addBlock peer piece => ((h.addBlock peer (Block.ofPiece piece)).1.toOption).toList
  | _ => []

def completions (h : TorrentPieceHandler) (op : HandlerOp) : List Nat :=
  ((h.result op).bind HandlerState.piece).toList

def reports (h : TorrentPieceHandler) (op : HandlerOp) : Nat :=
  if (h.result op).any HandlerState.isFinished then 1 else 0

def taken (h : TorrentPieceHandler) (op : HandlerOp) : Books :=
  (h.requests op, h.answers op, h.completions op, h.reports op)

def given (h : TorrentPieceHandler) (op : HandlerOp) : Books := (0, h.requests op, 0, 0)

/-- no request that is out is given up: its peer does not leave, chokes us only when it has answered, and answers
with the block it was asked for; no peer that is a candidate already unchokes us again, and no missing piece is set as
owned -/
def Keeps (h : TorrentPieceHandler) : HandlerOp → Prop
  | .setChokeOnRemote id .unChoked => h.UnchokesIdle (.setChokeOnRemote id .unChoked)
  | .setChokeOnRemote id .choked => ∀ m, ¬ h.Outstanding id m
  | .removePeer id => ∀ m, ¬ h.Outstanding id m
  | .addBlock peer piece => ∀ m, h.Outstanding peer m → (Block.ofPiece piece).metadata = m
  | .setPiece i => i ∉ h.missingPieceIndices
  | _ => True

theorem Keeps.unchokesIdle {h : TorrentPieceHandler} {op : HandlerOp} (hk : h.Keeps op) : h.UnchokesIdle op := by
  cases op with
  | setChokeOnRemote id c =>
    cases c with
    | choked => trivial
    | unChoked => exact hk
  | _ => trivial

section
variable {h : TorrentPieceHandler}

theorem toAsk_none (hb : h.pieceBuffer = none) : h.toAsk = h.unstarted := by
  rw [toAsk, hb]
  exact List.nil_append _

theorem toAsk_some {b : PieceBuffer} (hb : h.pieceBuffer = some b) : h.toAsk = b.missingBlocks ++ h.unstarted := by
  rw [toAsk, hb]
  rfl

theorem asked_none (hb : h.pieceBuffer = none) : h.asked = [] := by
  rw [asked, hb]
  rfl

theorem asked_some {b : PieceBuffer} (hb : h.pieceBuffer = some b) : h.asked = b.pendingBlocks.vals := by
  rw [asked, hb]
  rfl

theorem unfinishedPieces_none (hb : h.pieceBuffer = none) : h.unfinishedPieces = h.missingPieceIndices := by
  rw [unfinishedPieces, hb]
  exact List.nil_append _

theorem unfinishedPieces_some {b : PieceBuffer} (hb : h.pieceBuffer = some b) :
    h.unfinishedPieces = b.pieceIndex :: h.missingPieceIndices := by
  rw [unfinishedPieces, hb]
  rfl

end

/-! ## what stays as it is -/

theorem pieceLengthAt_step (h : TorrentPieceHandler) (op : HandlerOp) (i : Nat) :
    (h.step op).pieceLengthAt i = h.pieceLengthAt i := pieceLengthAt_of_static (h.step_static op) i

/-- the missing pieces depend on the bits and the piece in the buffer -/
theorem missingPieceIndices_congr {h h' : TorrentPieceHandler} (hbits : h'.bitfield = h.bitfield)
    (hbuf : h'.pieceBuffer.map PieceBuffer.pieceIndex = h.pieceBuffer.map PieceBuffer.pieceIndex) :
    h'.missingPieceIndices = h.missingPieceIndices := by
  unfold missingPieceIndices
  rw [hbits, hbuf]

theorem unstarted_congr {h h' : TorrentPieceHandler} (hmissing : h'.missingPieceIndices = h.missingPieceIndices)
    (hlen : ∀ i, h'.pieceLengthAt i = h.pieceLengthAt i) : h'.unstarted = h.unstarted := by
  unfold unstarted
  rw [hmissing]
  simp only [hlen]

/-- the accounts depend on the lengths, the missing pieces, the demand of the buffer and the flag -/
theorem stock_congr {h h' : TorrentPieceHandler} (hlen : ∀ i, h'.pieceLengthAt i = h.pieceLengthAt i)
    (hmissing : h'.missingPieceIndices = h.missingPieceIndices) (hfin : h'.finished = h.finished)
    (hbuf : h'.pieceBuffer.map demand = h.pieceBuffer.map demand) : h'.stock = h.stock := by
  have hask : h'.pieceBuffer.elim [] PieceBuffer.missingBlocks = h.pieceBuffer.elim [] PieceBuffer.missingBlocks := by
    have e := congrArg (fun o => Option.elim o [] fun d => d.2.1) hbuf
    rwa [Option.elim_map, Option.elim_map] at e
  have hout : h'.asked = h.asked := by
    have e := congrArg (fun o => Option.elim o [] fun d => d.2.2) hbuf
    rwa [Option.elim_map, Option.elim_map] at e
  have hindex : h'.pieceBuffer.map PieceBuffer.pieceIndex = h.pieceBuffer.map PieceBuffer.pieceIndex := by
    have e := congrArg (Option.map Prod.fst) hbuf
    rwa [Option.map_map, Option.map_map] at e
  unfold stock toAsk unfinishedPieces
  rw [unstarted_congr hmissing hlen, hask, hout, hindex, hmissing, hfin]

/-- the flag is set by a poll only -/
theorem finished_step (h : TorrentPieceHandler) {op : HandlerOp} (hop : ∀ env, op ≠ .poll env) :
    (h.step op).finished = h.finished := by
  rcases h.step_cases op with ⟨peers, buffer, e⟩ | ⟨p, m, r, rfl⟩ | ⟨test, e⟩ | ⟨i, rfl⟩ | ⟨env, rfl⟩
  · rw [e]
  · rfl
  · rw [e]
  · show (h.setPiece i).finished = _
    rw [setPiece_eq]
  · exact (hop env rfl).elim

/-- setting a piece that is owned, or in the buffer, leaves the missing pieces as they are -/
theorem missingPieceIndices_setPiece {h : TorrentPieceHandler} {i : Nat} (hi : i ∉ h.missingPieceIndices) :
    (h.setPiece i).missingPieceIndices = h.missingPieceIndices := by
  rw [setPiece_eq]
  unfold missingPieceIndices
  rw [BitField.len_set]
  apply List.filter_congr
  intro j hj
  by_cases e : i = j
  · subst e
    have hnot : ¬ (h.bitfield.get i = some false ∧ h.pieceBuffer.map PieceBuffer.pieceIndex ≠ some i) :=
      fun hc => hi (List.mem_filter.mpr ⟨hj, decide_eq_true hc⟩)
    have hset : ¬ ((h.bitfield.set i true).get i = some false ∧
        h.pieceBuffer.map PieceBuffer.pieceIndex ≠ some i) := by
      rw [BitField.get_set, if_pos rfl, if_pos (List.mem_range.mp hj)]
      exact fun hc => by cases hc.1
    rw [decide_eq_false hnot, decide_eq_false hset]
  · rw [BitField.get_set, if_neg e]

/-! ## the invariant -/

/-- the buffer is sound and accounts for its piece, and nothing is left to do when the torrent is finished -/
structure Orderly (h : TorrentPieceHandler) : Prop where
  solid : h.Solid
  accounting : ∀ b, h.pieceBuffer = some b → h.Accounting b
  settled : h.finished = true → h.pieceBuffer = none ∧ h.bitfield.all = true

theorem all_set {f : BitField} (h : f.all = true) (i : Nat) : (f.set i true).all = true := by
  rw [BitField.all, List.all_eq_true] at h ⊢
  intro b hb
  rcases List.mem_or_eq_of_mem_set hb with hb | rfl
  · exact h b hb
  · rfl

/-- the flag is set by the poll that reports it -/
theorem finished_of_poll {h : TorrentPieceHandler} {env : PollEnv} (hf : (h.poll env).2.finished = true) :
    h.finished = true ∨ (h.poll env).1 = .finished := by
  rcases h.poll_cases env with ⟨_, _, -, -, -, e⟩ | ⟨_, _, -, -, -, e⟩ | ⟨_, -, -, e⟩ | ⟨_, -, -, e⟩ |
    ⟨-, _, -, e⟩ | ⟨-, e⟩ <;> rw [e] at hf ⊢
  case inr.inr.inr.inr.inr => exact Or.inr rfl
  all_goals exact Or.inl hf

theorem settled_step {h : TorrentPieceHandler} (hs : h.finished = true → h.pieceBuffer = none ∧ h.bitfield.all = true)
    (op : HandlerOp) : (h.step op).finished = true → (h.step op).pieceBuffer = none ∧ (h.step op).bitfield.all = true := by
  intro hf
  have hnow : h.pieceBuffer = none ∧ h.bitfield.all = true ∧ (h.step op).pieceBuffer = none := by
    by_cases hfin : h.finished = true
    · obtain ⟨hnone, hall⟩ := hs hfin
      exact ⟨hnone, hall, (Seeding.step ⟨hfin, hnone⟩ op).1.idle⟩
    · cases op with
      | poll env =>
        rcases finished_of_poll hf with hfin' | hst
        · exact (hfin hfin').elim
        · obtain ⟨hall, hnone, hseed⟩ := seeding_of_finished hst
          exact ⟨hnone, hall, hseed.idle⟩
      | _ =>
        rw [finished_step h (fun env e => by cases e)] at hf
        exact (hfin hf).elim
  obtain ⟨hnone, hall, hnone'⟩ := hnow
  refine ⟨hnone', ?_⟩
  rcases h.bitfield_step op with e | ⟨i, -, e⟩ | ⟨env, -, b, hb, -⟩
  · rw [e]
    exact hall
  · rw [e]
    exact all_set hall i
  · rw [hnone] at hb
    cases hb

theorem orderly_new (id : TorrentId) (sel : PieceSelection) (f : BitField) (n m : Nat) :
    (new id sel f n m).Orderly where
  solid := solid_new id sel f n m
  accounting := nofun
  settled h := ⟨rfl, h⟩

theorem orderly_step {h : TorrentPieceHandler} (hI : h.Orderly) {op : HandlerOp} (hG : h.UnchokesIdle op) :
    (h.step op).Orderly where
  solid := hI.solid.step op
  accounting := accounting_step hG hI.accounting
  settled := settled_step hI.settled op

/-! ## one step -/

theorem books_balance {h h' : TorrentPieceHandler} {op : HandlerOp} (hask : (h.requests op ++ h'.toAsk).Perm h.toAsk)
    (hout : (h.answers op ++ h'.asked).Perm (h.asked ++ h.requests op))
    (hpieces : (h.completions op ++ h'.unfinishedPieces).Perm h.unfinishedPieces)
    (hreport : h.reports op + (if h'.finished then 0 else 1) = if h.finished then 0 else 1) :
    h.taken op + h'.stock = h.stock + h.given op := by
  refine Prod.ext ?_ (Prod.ext ?_ (Prod.ext ?_ hreport))
  · show (↑(h.requests op ++ h'.toAsk) : Multiset BlockMetadata) = ↑h.toAsk + 0
    rw [add_zero]
    exact Multiset.coe_eq_coe.mpr hask
  · exact Multiset.coe_eq_coe.mpr hout
  · show (↑(h.completions op ++ h'.unfinishedPieces) : Multiset Nat) = ↑h.unfinishedPieces + 0
    rw [add_zero]
    exact Multiset.coe_eq_coe.mpr hpieces

/-- the books of a poll that is answered `st` -/
theorem books_of_poll {h h' : TorrentPieceHandler} {env : PollEnv} {st : HandlerState} (e : h.poll env = (st, h'))
    (hask : (st.request ++ h'.toAsk).Perm h.toAsk) (hout : h'.asked.Perm (h.asked ++ st.request))
    (hpieces : (st.piece.toList ++ h'.unfinishedPieces).Perm h.unfinishedPieces)
    (hreport : (if st.isFinished then 1 else 0) + (if h'.finished then 0 else 1) = if h.finished then 0 else 1) :
    h.taken (.poll env) + (h.poll env).2.stock = h.stock + h.given (.poll env) := by
  have hst : h.result (.poll env) = some st := congrArg some (congrArg Prod.fst e)
  rw [e]
  apply books_balance
  · unfold requests
    rw [hst]
    exact hask
  · unfold requests
    rw [hst]
    exact hout
  · unfold completions
    rw [hst]
    exact hpieces
  · unfold reports
    rw [hst]
    exact hreport

/-- the buffer is left to what an operation that is neither a poll nor an answer does: a push, or the removal of a
peer that has nothing to answer -/
theorem Keeps.bufferOp {h : TorrentPieceHandler} {b : PieceBuffer} (hb : h.pieceBuffer = some b) {op : HandlerOp}
    (hk : h.Keeps op) (hpoll : ∀ env, op ≠ .poll env) (hadd : ∀ peer piece, op ≠ .addBlock peer piece)
    {o : BufferOp} (ho : h.bufferOp b op = some o) :
    (∃ peer, o = .push peer) ∨ ∃ peer, o = .remove peer ∧ peer ∉ b.pendingBlocks := by
  have hidle : ∀ {id : PeerId}, (∀ m, ¬ h.Outstanding id m) → id ∉ b.pendingBlocks := by
    intro id hout hid
    obtain ⟨m, hm⟩ := AList.mem_iff_lookup.mp hid
    exact hout m ⟨b, hb, hm⟩
  cases op with
  | insertPeer id peer =>
    simp only [TorrentPieceHandler.bufferOp] at ho
    split at ho <;> cases ho
    exact Or.inl ⟨id, rfl⟩
  | removePeer id =>
    simp only [TorrentPieceHandler.bufferOp] at ho
    split at ho <;> cases ho
    exact Or.inr ⟨id, rfl, hidle hk⟩
  | setChokeOnRemote id c =>
    simp only [TorrentPieceHandler.bufferOp] at ho
    split at ho
    · cases c with
      | choked =>
        cases ho
        exact Or.inr ⟨id, rfl, hidle hk⟩
      | unChoked =>
        simp only at ho
        split at ho <;> cases ho
        exact Or.inl ⟨id, rfl⟩
    · cases ho
  | addBlock peer piece => exact (hadd peer piece rfl).elim
  | poll env => exact (hpoll env rfl).elim
  | _ => cases ho

theorem stock_quiet {h : TorrentPieceHandler} {op : HandlerOp} (hk : h.Keeps op) (hpoll : ∀ env, op ≠ .poll env)
    (hadd : ∀ peer piece, op ≠ .addBlock peer piece) : (h.step op).stock = h.stock := by
  have hbuf : (h.step op).pieceBuffer.map demand = h.pieceBuffer.map demand := by
    rw [h.pieceBuffer_step hpoll, Option.map_map]
    apply Option.map_congr
    intro b hb
    show demand ((h.bufferOp b op).elim b b.apply) = demand b
    cases ho : h.bufferOp b op with
    | none => rfl
    | some o =>
      rcases hk.bufferOp hb hpoll hadd ho with ⟨peer, rfl⟩ | ⟨peer, rfl, hidle⟩
      · rfl
      · exact demand_remove hidle
  refine stock_congr (h.pieceLengthAt_step op) ?_ (h.finished_step hpoll) hbuf
  rcases h.bitfield_step op with e | ⟨i, rfl, -⟩ | ⟨env, rfl, -⟩
  · refine missingPieceIndices_congr e ?_
    have e1 := congrArg (Option.map Prod.fst) hbuf
    rwa [Option.map_map, Option.map_map] at e1
  · exact missingPieceIndices_setPiece hk
  · exact (hpoll env rfl).elim

theorem books_quiet {h : TorrentPieceHandler} {op : HandlerOp} (hk : h.Keeps op) (hpoll : ∀ env, op ≠ .poll env)
    (hadd : ∀ peer piece, op ≠ .addBlock peer piece) : h.taken op + (h.step op).stock = h.stock + h.given op := by
  have hresult : h.result op = none := by
    cases op with
    | poll env => exact (hpoll env rfl).elim
    | _ => rfl
  have hanswers : h.answers op = [] := by
    cases op with
    | addBlock peer piece => exact (hadd peer piece rfl).elim
    | _ => rfl
  have htaken : h.taken op = 0 := by
    unfold taken requests completions reports
    rw [hresult, hanswers]
    rfl
  have hgiven : h.given op = 0 := by
    unfold given requests
    rw [hresult]
    rfl
  rw [htaken, hgiven, zero_add, add_zero]
  exact stock_quiet hk hpoll hadd

/-- a step that changes nothing but the buffer, and leaves it its piece, leaves the pieces as they are -/
theorem missingPieceIndices_buffer {h : TorrentPieceHandler} {b b' : PieceBuffer} (hb : h.pieceBuffer = some b)
    (hindex : b'.pieceIndex = b.pieceIndex) :
    ({ h with pieceBuffer := some b' } : TorrentPieceHandler).missingPieceIndices = h.missingPieceIndices := by
  refine missingPieceIndices_congr rfl ?_
  rw [hb]
  exact congrArg some hindex

theorem books_addBlock {h : TorrentPieceHandler} {peer : PeerId} {piece : Piece} (hk : h.Keeps (.addBlock peer piece)) :
    h.taken (.addBlock peer piece) + (h.step (.addBlock peer piece)).stock = h.stock + h.given (.addBlock peer piece) := by
  have hanswers : h.answers (.addBlock peer piece) = (h.addBlock peer (Block.ofPiece piece)).1.toOption.toList := rfl
  show _ + stock (h.addBlock peer (Block.ofPiece piece)).2 = _
  cases hb : h.pieceBuffer with
  | none =>
    have e : h.addBlock peer (Block.ofPiece piece) = (.error (.notRequested peer (Block.ofPiece piece)), h) := by
      unfold addBlock
      rw [hb]
    rw [e] at hanswers ⊢
    refine books_balance (List.Perm.refl _) ?_ (List.Perm.refl _) (zero_add _)
    rw [hanswers]
    exact List.Perm.of_eq (List.append_nil _).symm
  | some b =>
    have e : h.addBlock peer (Block.ofPiece piece) = ((b.addBlock peer (Block.ofPiece piece)).1,
        { h with pieceBuffer := some (b.addBlock peer (Block.ofPiece piece)).2 }) := by
      unfold addBlock
      rw [hb]
    have hexpected : ∀ m, b.pendingBlocks.lookup peer = some m → (Block.ofPiece piece).metadata = m :=
      fun m hm => hk m ⟨b, hb, hm⟩
    obtain ⟨hask, hout⟩ := demand_add hexpected
    have hindex : (b.addBlock peer (Block.ofPiece piece)).2.pieceIndex = b.pieceIndex :=
      (b.apply_static (.add peer (Block.ofPiece piece))).1
    have hmissing := missingPieceIndices_buffer hb hindex
    rw [e] at hanswers ⊢
    refine books_balance ?_ ?_ ?_ (zero_add _)
    · rw [toAsk_some hb, toAsk_some rfl, unstarted_congr hmissing fun _ => rfl, hask]
      exact List.Perm.refl _
    · rw [asked_some hb, asked_some rfl, hanswers]
      exact hout.trans (List.Perm.of_eq (List.append_nil _).symm)
    · rw [unfinishedPieces_some hb, unfinishedPieces_some rfl, hmissing, hindex]
      exact List.Perm.refl _

/-- the piece that is selected is not among the missing ones any more -/
theorem missingPieceIndices_select {h : TorrentPieceHandler} (hb : h.pieceBuffer = none) {i : Nat}
    (hi : h.bitfield.get i = some false) {b : PieceBuffer} (hbi : b.pieceIndex = i) :
    h.missingPieceIndices.Perm (i :: ({ h with pieceBuffer := some b } : TorrentPieceHandler).missingPieceIndices) := by
  have hnd : h.missingPieceIndices.Nodup := List.nodup_range.filter _
  have hrest : ({ h with pieceBuffer := some b } : TorrentPieceHandler).missingPieceIndices
      = h.missingPieceIndices.erase i := by
    rw [hnd.erase_eq_filter]
    unfold missingPieceIndices
    rw [List.filter_filter]
    apply List.filter_congr
    intro j _
    rw [hb, ← hbi, Bool.eq_iff_iff, Bool.and_eq_true, decide_eq_true_iff, decide_eq_true_iff, bne_iff_ne]
    constructor
    · rintro ⟨hbit, hne⟩
      exact ⟨fun e => hne (congrArg some e.symm), hbit, nofun⟩
    · rintro ⟨hne, hbit, -⟩
      exact ⟨hbit, fun e => hne (Option.some.inj e).symm⟩
  rw [hrest]
  exact List.perm_cons_erase ((mem_missingPieceIndices_iff hb).mpr hi)

/-- a poll that selects a piece -/
theorem books_select {h : TorrentPieceHandler} (hb : h.pieceBuffer = none) {env : PollEnv} {b : PieceBuffer}
    (hnext : h.nextPieceBuffer env = some b)
    (e : h.poll env = (.leechBlock b.next.1, { h with pieceBuffer := some b.next.2 })) :
    h.taken (.poll env) + (h.poll env).2.stock = h.stock + h.given (.poll env) := by
  obtain ⟨i, peers, hi, hs, rfl⟩ := nextPieceBuffer_spec hnext
  obtain ⟨hask, hout⟩ := demand_next (h.accounting_new hs).apart
  have hindex : (h.bufferFor i peers).next.2.pieceIndex = i :=
    ((h.bufferFor i peers).apply_static .next).1
  have hmissing := missingPieceIndices_select hb hi hindex
  refine books_of_poll e ?_ ?_ ?_ (zero_add _)
  · rw [toAsk_none hb, toAsk_some rfl, ← List.append_assoc]
    refine (hask.append_right _).trans ?_
    exact (hmissing.flatMap_right (fun j => blocksOf j (h.pieceLengthAt j))).symm
  · rw [asked_none hb, asked_some rfl]
    exact hout
  · rw [unfinishedPieces_none hb, unfinishedPieces_some rfl, hindex]
    exact hmissing.symm

/-- the piece of a full buffer was not among the missing ones, and is owned afterwards -/
theorem missingPieceIndices_finish {h : TorrentPieceHandler} {b : PieceBuffer} (hb : h.pieceBuffer = some b)
    (hlt : b.pieceIndex < h.bitfield.len) :
    ({ h with pieceBuffer := none, bitfield := h.bitfield.set b.pieceIndex true } : TorrentPieceHandler).missingPieceIndices
      = h.missingPieceIndices := by
  unfold missingPieceIndices
  rw [BitField.len_set]
  apply List.filter_congr
  intro j _
  rw [BitField.get_set, hb, Bool.eq_iff_iff, decide_eq_true_iff, decide_eq_true_iff]
  by_cases hj : b.pieceIndex = j
  · rw [if_pos hj, if_pos hlt]
    refine iff_of_false (fun hc => by cases hc.1) ?_
    exact fun hc => hc.2 (congrArg some hj)
  · rw [if_neg hj]
    refine and_congr_right fun _ => iff_of_true nofun ?_
    exact fun hc => hj (Option.some.inj hc)

/-- a poll that finishes the piece in the buffer -/
theorem books_finish {h : TorrentPieceHandler} (hI : h.Orderly) {b : PieceBuffer} (hb : h.pieceBuffer = some b)
    (hfull : b.isFullPiece = true) {env : PollEnv} {block : Block} (hok : b.tryFinalizePiece = .ok block)
    (e : h.poll env = (.pieceFinished (.ok block),
      { h with pieceBuffer := none, bitfield := h.bitfield.set block.metadata.pieceIndex true })) :
    h.taken (.poll env) + (h.poll env).2.stock = h.stock + h.given (.poll env) := by
  obtain ⟨hsound, -, -, hlt⟩ := hI.solid b hb
  obtain ⟨data, hd, -, -⟩ := hsound.finalize hfull
  rw [hd] at hok
  cases hok
  obtain ⟨hask, hout⟩ := (hI.accounting b hb).exact_.demand_of_full hsound hfull
  have hmissing := missingPieceIndices_finish hb hlt
  refine books_of_poll e ?_ ?_ ?_ (zero_add _)
  · rw [toAsk_some hb, hask, toAsk_none rfl]
    exact List.Perm.of_eq (unstarted_congr hmissing (pieceLengthAt_of_static (by simp [static])))
  · rw [asked_some hb, hout, asked_none rfl]
    exact List.Perm.refl _
  · rw [unfinishedPieces_some hb, unfinishedPieces_none rfl]
    exact List.Perm.of_eq (congrArg (b.pieceIndex :: ·) hmissing)

theorem books_poll {h : TorrentPieceHandler} (hI : h.Orderly) (env : PollEnv) :
    h.taken (.poll env) + (h.poll env).2.stock = h.stock + h.given (.poll env) := by
  rcases h.poll_cases env with ⟨b, block, hb, hfull, hok, e⟩ | ⟨b, err, hb, hfull, herr, -⟩ | ⟨b, hb, -, e⟩ |
    ⟨b, hb, hnext, e⟩ | ⟨hb, st, hst, e⟩ | ⟨hb, e⟩
  · exact books_finish hI hb hfull hok e
  · obtain ⟨data, hd, -, -⟩ := (hI.solid b hb).1.finalize hfull
    rw [hd] at herr
    cases herr
  · obtain ⟨hask, hout⟩ := demand_next (hI.accounting b hb).apart
    have hindex : b.next.2.pieceIndex = b.pieceIndex := (b.apply_static .next).1
    have hmissing := missingPieceIndices_buffer hb hindex
    refine books_of_poll e ?_ ?_ ?_ (zero_add _)
    · rw [toAsk_some hb, toAsk_some rfl, ← List.append_assoc, unstarted_congr hmissing fun _ => rfl]
      exact hask.append_right _
    · rw [asked_some hb, asked_some rfl]
      exact hout
    · rw [unfinishedPieces_some hb, unfinishedPieces_some rfl, hmissing, hindex]
      exact List.Perm.refl _
  · exact books_select hb hnext e
  · -- nothing is answered that is booked
    have hst : st.request = [] ∧ st.piece = none ∧ st.isFinished = false := by
      rcases hst with rfl | rfl <;> exact ⟨rfl, rfl, rfl⟩
    refine books_of_poll e ?_ ?_ ?_ ?_
    · rw [hst.1]
      exact List.Perm.refl _
    · rw [hst.1, List.append_nil]
    · rw [hst.2.1]
      exact List.Perm.refl _
    · rw [hst.2.2]
      exact zero_add _
  · -- the report is given once: the flag was not set before
    have hfin : h.finished = false := by
      rcases poll_of_none hb env with ⟨-, e'⟩ | ⟨hfin, -, -⟩ | ⟨hfin, -⟩
      · rw [e] at e'
        cases e'
      · exact hfin
      · exact hfin
    refine books_of_poll e (List.Perm.refl _) (List.Perm.of_eq (List.append_nil _).symm) (List.Perm.refl _) ?_
    rw [hfin]
    rfl

/-- **Every step balances.** -/
theorem books_step {h : TorrentPieceHandler} (hI : h.Orderly) {op : HandlerOp} (hk : h.Keeps op) :
    h.taken op + (h.step op).stock = h.stock + h.given op := by
  cases op with
  | poll env => exact books_poll hI env
  | addBlock peer piece => exact books_addBlock hk
  | _ => exact books_quiet hk (fun env e => by cases e) (fun peer piece e => by cases e)

end TorrentPieceHandler

end Btt
