import BitTorrent.Lib.Balance
import BitTorrent.Peer.Books
import BitTorrent.Peer.OnWire

/-!
# The whole download of a torrent

Runs of a `TorrentPieceHandler` in which no outstanding request is given up.

* `asked_exactly_once`    the requests handed out, with what is still to be asked for, are the blocks of the missing
                          pieces, each once; the answers and the finished pieces likewise;
* `Served`                there is a piece to select when one is needed, and the buffer is not deserted;
* `poll_or_wait`          then every poll gets on with the work, unless an answer is due;
* `download_completes`    so an endless run that keeps polling and gets its answers finishes the torrent.
-/

namespace Btt
open Run PieceBuffer

namespace TorrentPieceHandler

/-! ## whole runs -/

/-- the blocks asked for in a run -/
def asks (h : TorrentPieceHandler) (ops : List HandlerOp) : Multiset BlockMetadata :=
  booked step (fun h op => (h.requests op : Multiset BlockMetadata)) h ops

/-- the blocks that arrived in a run -/
def arrivals (h : TorrentPieceHandler) (ops : List HandlerOp) : Multiset BlockMetadata :=
  booked step (fun h op => (h.answers op : Multiset BlockMetadata)) h ops

theorem booked_completions (h : TorrentPieceHandler) (ops : List HandlerOp) :
    booked step (fun h op => (h.completions op : Multiset Nat)) h ops = h.finishedPieces ops := by
  induction ops using List.reverseRecOn with
  | nil => rfl
  | append_singleton ops op ih =>
    rw [booked_append, ih, finishedPieces_snoc, booked_cons, booked_nil, add_zero, ← Multiset.coe_add]
    rfl

theorem orderly_exec {h : TorrentPieceHandler} (hI : h.Orderly) {ops : List HandlerOp}
    (hG : Along step UnchokesIdle h ops) : (exec step h ops).Orderly :=
  exec_inv_along (I := Orderly) (fun _ _ hI hG => orderly_step hI hG) hI hG

/-- the books of a run, in any account -/
theorem books_exec {M : Type} [AddCommMonoid M] (φ : Books →+ M) {h : TorrentPieceHandler} (hI : h.Orderly)
    {ops : List HandlerOp} (hG : Along step Keeps h ops) :
    booked step (fun h op => φ (h.taken op)) h ops + φ (exec step h ops).stock
      = φ h.stock + booked step (fun h op => φ (h.given op)) h ops := by
  refine balance (I := Orderly) (fun h : TorrentPieceHandler => φ h.stock) _ _ ?_ ?_ hI hG
  · intro h op hI hk
    exact orderly_step hI hk.unchokesIdle
  · intro h op hI hk
    rw [← map_add, ← map_add, books_step hI hk]

/-- the books of a run from `h` to `h'` -/
structure Balanced (h h' : TorrentPieceHandler) (ops : List HandlerOp) : Prop where
  asked : h.asks ops + h'.toAsk = h.toAsk
  answered : h.arrivals ops + h'.asked = h.asked + h.asks ops
  finished : (h.finishedPieces ops ++ h'.unfinishedPieces).Perm h.unfinishedPieces

theorem balanced_exec {h : TorrentPieceHandler} (hI : h.Orderly) {ops : List HandlerOp}
    (hG : Along step Keeps h ops) : h.Balanced (exec step h ops) ops where
  asked := by
    have e := books_exec (AddMonoidHom.fst _ _) hI hG
    refine e.trans ?_
    show (h.toAsk : Multiset BlockMetadata) + booked step (fun _ _ => 0) h ops = h.toAsk
    rw [booked_zero, add_zero]
  answered := books_exec ((AddMonoidHom.fst _ _).comp (AddMonoidHom.snd _ _)) hI hG
  finished := by
    have e := books_exec ((AddMonoidHom.fst _ _).comp ((AddMonoidHom.snd _ _).comp (AddMonoidHom.snd _ _))) hI hG
    rw [← Multiset.coe_eq_coe, ← Multiset.coe_add, ← booked_completions]
    refine e.trans ?_
    show (h.unfinishedPieces : Multiset Nat) + booked step (fun _ _ => 0) h ops = h.unfinishedPieces
    rw [booked_zero, add_zero]

/-- nothing is to be asked for twice -/
theorem toAsk_nodup {h : TorrentPieceHandler} (hI : h.Orderly) : h.toAsk.Nodup := by
  have hunstarted : h.unstarted.Nodup := by
    refine List.nodup_flatMap.mpr ⟨fun i _ => blocksOf_nodup i _, ?_⟩
    refine (List.nodup_range.filter _ : h.missingPieceIndices.Nodup).imp ?_
    intro i j hne m hi hj
    exact hne ((pieceIndex_of_mem hi).symm.trans (pieceIndex_of_mem hj))
  cases hb : h.pieceBuffer with
  | none =>
    rw [toAsk_none hb]
    exact hunstarted
  | some b =>
    have ha := (hI.accounting b hb).exact_
    have hmem : ∀ m ∈ b.missingBlocks, m ∈ b.accounted :=
      fun m hm => List.mem_append_left _ (List.mem_append_left _ hm)
    rw [toAsk_some hb, List.nodup_append]
    refine ⟨?_, hunstarted, ?_⟩
    · have hnd : b.accounted.Nodup := ha.perm.nodup_iff.mpr (blocksOf_nodup _ _)
      exact (List.nodup_append.mp (List.nodup_append.mp hnd).1).1
    · rintro m hm _ hm' rfl
      obtain ⟨i, hi, hmi⟩ := List.mem_flatMap.mp hm'
      have hindex : b.pieceIndex = i :=
        (pieceIndex_of_mem (ha.perm.mem_iff.mp (hmem m hm))).symm.trans (pieceIndex_of_mem hmi)
      have hne := (of_decide_eq_true (List.mem_filter.mp hi).2).2
      rw [hb] at hne
      exact hne (congrArg some hindex)

/-- a finished torrent has nothing left -/
theorem nothing_left {h : TorrentPieceHandler} (hI : h.Orderly) (hf : h.finished = true) :
    h.toAsk = [] ∧ h.asked = [] ∧ h.unfinishedPieces = [] := by
  obtain ⟨hnone, hall⟩ := hI.settled hf
  have hmissing : h.missingPieceIndices = [] := by
    refine List.eq_nil_iff_forall_not_mem.mpr ?_
    intro i hi
    have hbit := mem_missingPieceIndices hi
    rw [BitField.all, List.all_eq_true] at hall
    have h1 := hall false (List.mem_of_getElem? hbit)
    cases h1
  refine ⟨?_, asked_none hnone, ?_⟩
  · rw [toAsk_none hnone, unstarted, hmissing]
    rfl
  · rw [unfinishedPieces_none hnone, hmissing]

/-- the books of a run that ends finished -/
theorem finished_books {h : TorrentPieceHandler} (hI : h.Orderly) {ops : List HandlerOp} (hkeeps : Along step Keeps h ops)
    (hf : (exec step h ops).finished = true) :
    h.asks ops = h.toAsk ∧ h.arrivals ops = h.asked + h.toAsk ∧ (h.finishedPieces ops).Perm h.unfinishedPieces := by
  have hend : (exec step h ops).Orderly :=
    exec_inv_along (I := Orderly) (fun _ _ hI hk => orderly_step hI hk.unchokesIdle) hI hkeeps
  obtain ⟨hasked, hanswered, hfinished⟩ := balanced_exec hI hkeeps
  obtain ⟨h1, h2, h3⟩ := nothing_left hend hf
  rw [h1, Multiset.coe_nil, add_zero] at hasked
  rw [h2, Multiset.coe_nil, add_zero, hasked] at hanswered
  rw [h3, List.append_nil] at hfinished
  exact ⟨hasked, hanswered, hfinished⟩

/-- **Every block is asked for once, and every piece is finished once.**  In a run that gives up no request, from
any state reached without an unchoke by a candidate: what is asked for and what is still to be asked for are the
blocks that were to be asked for, no two of them equal; what arrives and what is outstanding is what was outstanding
or is asked for; what is finished and what is still to be finished are the unfinished pieces.  A run that ends
finished has asked for all of it, got all of it, and finished every piece. -/
theorem asked_exactly_once (id : TorrentId) (sel : PieceSelection) (f : BitField) (n m : Nat)
    (before ops : List HandlerOp) (hbefore : Along step UnchokesIdle (new id sel f n m) before)
    (hkeeps : Along step Keeps (exec step (new id sel f n m) before) ops) :
    (exec step (new id sel f n m) before).Balanced (exec step (new id sel f n m) (before ++ ops)) ops ∧
    ((exec step (new id sel f n m) before).asks ops).Nodup ∧
    ((exec step (new id sel f n m) (before ++ ops)).finished = true →
      (exec step (new id sel f n m) before).asks ops = (exec step (new id sel f n m) before).toAsk ∧
      (exec step (new id sel f n m) before).arrivals ops
        = (exec step (new id sel f n m) before).asked + (exec step (new id sel f n m) before).toAsk ∧
      ((exec step (new id sel f n m) before).finishedPieces ops).Perm
        (exec step (new id sel f n m) before).unfinishedPieces) := by
  rw [exec_append]
  have hI := orderly_exec (orderly_new id sel f n m) hbefore
  generalize exec step (new id sel f n m) before = h at hI hkeeps
  have hbook := balanced_exec hI hkeeps
  refine ⟨hbook, ?_, finished_books hI hkeeps⟩
  have hnd : (h.toAsk : Multiset BlockMetadata).Nodup := toAsk_nodup hI
  rw [← hbook.asked] at hnd
  exact (Multiset.nodup_add.mp hnd).1

/-- the requests that are out, as they stand in the buffer -/
theorem outstanding_iff {h : TorrentPieceHandler} {peer : PeerId} {m : BlockMetadata} :
    h.Outstanding peer m ↔
      (⟨peer, m⟩ : Sigma fun _ : PeerId => BlockMetadata) ∈ h.pieceBuffer.elim [] fun b => b.pendingBlocks.entries := by
  unfold Outstanding
  cases h.pieceBuffer with
  | none => exact iff_of_false (fun ⟨_, hb, _⟩ => nomatch hb) List.not_mem_nil
  | some b =>
    exact ⟨fun ⟨_, hb, hl⟩ => Option.some.inj hb ▸ AList.mem_entries.mpr hl,
      fun hm => ⟨b, rfl, AList.mem_entries.mp hm⟩⟩

/-- an answer with the only block that is asked for keeps the request -/
theorem keeps_answer {h : TorrentPieceHandler} {peer : PeerId} {piece : Piece}
    (hasked : h.pieceBuffer.elim [] (fun b => b.pendingBlocks.entries) = [⟨peer, (Block.ofPiece piece).metadata⟩]) :
    h.Keeps (.addBlock peer piece) := by
  intro m hout
  rw [outstanding_iff, hasked] at hout
  cases List.mem_singleton.mp hout
  rfl

/-- a torrent of two pieces of one byte -/
def twoBytes : TorrentPieceHandler := new ⟨0⟩ .random ⟨[false, false]⟩ 1 1

/-- its download from a peer that has it: each piece is asked for, answered and finished, then the end is reported -/
def twoBytesOps : Nat → HandlerOp
  | 1 => .addBlock ⟨[7]⟩ ⟨0, 0, [97]⟩
  | 4 => .addBlock ⟨[7]⟩ ⟨1, 0, [98]⟩
  | _ => .poll ⟨.same, .same⟩

theorem twoBytes_before : Along step UnchokesIdle twoBytes (seeding ⟨[7]⟩ ⟨[true, true]⟩) :=
  ⟨trivial, trivial, trivial, fun _ h => (by cases h), trivial⟩

theorem asked_exactly_once_two_pieces :
    (exec step twoBytes (seeding ⟨[7]⟩ ⟨[true, true]⟩)).asks ((List.range 7).map twoBytesOps)
        = {⟨0, 0, 1⟩, ⟨1, 0, 1⟩} ∧
      ((exec step twoBytes (seeding ⟨[7]⟩ ⟨[true, true]⟩)).finishedPieces ((List.range 7).map twoBytesOps)).Perm [0, 1] := by
  have hkeeps : Along step Keeps (exec step twoBytes (seeding ⟨[7]⟩ ⟨[true, true]⟩)) ((List.range 7).map twoBytesOps) :=
    ⟨trivial, keeps_answer rfl, trivial, trivial, keeps_answer rfl, trivial, trivial, trivial⟩
  obtain ⟨h1, -, h3⟩ := (asked_exactly_once _ _ _ _ _ _ _ twoBytes_before hkeeps).2.2 rfl
  exact ⟨h1, h3⟩

/-! ## the download gets on -/

/-- where a piece is needed there is one that every peer can seed, and some peer; and the piece in the buffer has
a candidate -/
structure Served (h : TorrentPieceHandler) : Prop where
  selects : h.pieceBuffer = none → h.missingPieceIndices ≠ [] → h.peers ≠ ∅ ∧ ∃ i ∈ h.missingPieceIndices, h.EveryCanSeed i
  candidate : ∀ b, h.pieceBuffer = some b → ∃ id, b.Candidate id

/-- the steps that are still to be made: two for each block to ask for, one for each block asked for and each piece -/
def steps (b : Books) : Nat := 2 * b.1.card + b.2.1.card + b.2.2.1.card + b.2.2.2

/-- the steps that a step makes -/
def made (b : Books) : Nat := b.1.card + b.2.1.card + b.2.2.1.card + b.2.2.2

theorem made_step {h : TorrentPieceHandler} (hI : h.Orderly) {op : HandlerOp} (hk : h.Keeps op) :
    made (h.taken op) + steps (h.step op).stock = steps h.stock := by
  have e := books_step hI hk
  have e1 := congrArg (fun x : Books => x.1.card) e
  have e2 := congrArg (fun x : Books => x.2.1.card) e
  have e3 := congrArg (fun x : Books => x.2.2.1.card) e
  have e4 := congrArg (fun x : Books => x.2.2.2) e
  simp only [Prod.fst_add, Prod.snd_add, Multiset.card_add] at e1 e2 e3 e4
  have g1 : (h.given op).1.card = 0 := rfl
  have g2 : (h.given op).2.1.card = (h.taken op).1.card := rfl
  have g3 : (h.given op).2.2.1.card = 0 := rfl
  have g4 : (h.given op).2.2.2 = 0 := rfl
  unfold made steps
  omega

/-- no step is left once the torrent is finished, and only then -/
theorem steps_eq_zero_iff {h : TorrentPieceHandler} (hI : h.Orderly) : steps h.stock = 0 ↔ h.finished = true := by
  have hreport : h.stock.2.2.2 = if h.finished then 0 else 1 := rfl
  constructor
  · intro h0
    cases hf : h.finished with
    | true => rfl
    | false =>
      rw [hf] at hreport
      unfold steps at h0
      simp only [Bool.false_eq_true, if_false] at hreport
      omega
  · intro hf
    obtain ⟨h1, h2, h3⟩ := nothing_left hI hf
    unfold steps stock
    rw [h1, h2, h3, hf]
    rfl

theorem made_pos_of_poll {h h' : TorrentPieceHandler} {env : PollEnv} {st : HandlerState} (e : h.poll env = (st, h'))
    (hst : st.request ≠ [] ∨ st.piece ≠ none ∨ st.isFinished = true) : 0 < made (h.taken (.poll env)) := by
  have hres : h.result (.poll env) = some st := congrArg some (congrArg Prod.fst e)
  have h1 : (h.taken (.poll env)).1.card = st.request.length := by
    show (h.requests (.poll env)).length = _
    rw [requests, hres]
    rfl
  have h3 : (h.taken (.poll env)).2.2.1.card = st.piece.toList.length := by
    show (h.completions (.poll env)).length = _
    rw [completions, hres]
    rfl
  have h4 : (h.taken (.poll env)).2.2.2 = if st.isFinished then 1 else 0 := by
    show h.reports (.poll env) = _
    rw [reports, hres]
    rfl
  unfold made
  rw [h1, h3, h4]
  rcases hst with hreq | hpiece | hfin
  · have := List.length_pos_of_ne_nil hreq
    omega
  · obtain ⟨i, hi⟩ := Option.ne_none_iff_exists'.mp hpiece
    rw [hi, Option.toList_some, List.length_singleton]
    omega
  · rw [if_pos hfin]
    omega

/-- a buffer that is not full and has no request out has a block to ask for -/
theorem Exact.missing_ne_nil {b : PieceBuffer} (hb : b.Exact) (hs : b.Sound) (hfull : b.isFullPiece = false)
    (hpending : b.pendingBlocks.vals = []) : b.missingBlocks ≠ [] := by
  intro hmissing
  have hlen := hb.perm.length_eq
  rw [accounted, hmissing, hpending, List.nil_append, List.nil_append, List.length_map, ← hs.total] at hlen
  have hne : b.blocks.len ≠ b.totalBlocks := of_decide_eq_false hfull
  exact hne ((List.length_map ..).symm.trans hlen)

/-- **A poll gets on with the work, or an answer is due.** -/
theorem poll_or_wait {h : TorrentPieceHandler} (hI : h.Orderly) (hserved : h.Served)
    (hpos : ∀ i, 0 < h.pieceLengthAt i) (hf : h.finished = false) (env : PollEnv) :
    0 < made (h.taken (.poll env)) ∨ ∃ peer m, h.Outstanding peer m := by
  cases hb : h.pieceBuffer with
  | none =>
    left
    cases hall : h.bitfield.all with
    | true =>
      have e : h.poll env = (.finished, { h with finished := true }) := by
        unfold poll
        simp only [hb, hf, hall, Bool.false_eq_true, if_false, if_true]
      exact made_pos_of_poll e (Or.inr (Or.inr rfl))
    | false =>
      obtain ⟨i, hi⟩ : ∃ i, h.bitfield.get i = some false := by
        rw [BitField.all, List.all_eq_false] at hall
        obtain ⟨bit, hbit, hne⟩ := hall
        obtain ⟨i, hi⟩ := List.getElem?_of_mem hbit
        exact ⟨i, hi.trans (congrArg some (Bool.eq_false_iff.mpr hne))⟩
      obtain ⟨hpeers, hevery⟩ := hserved.selects hb (List.ne_nil_of_mem ((mem_missingPieceIndices_iff hb).mpr hi))
      obtain ⟨b, hnext⟩ := Option.isSome_iff_exists.mp
        (nextPieceBuffer_isSome_iff.mpr ⟨fun he => (hpeers he).elim, hevery⟩ : (h.nextPieceBuffer env).isSome = true)
      have e : h.poll env = (.leechBlock b.next.1, { h with pieceBuffer := some b.next.2 }) := by
        unfold poll
        simp only [hb, hf, hall, hnext, Bool.false_eq_true, if_false]
      have hcand := (nextPieceBuffer_candidates hnext).2
      obtain ⟨j, peers, -, -, rfl⟩ := nextPieceBuffer_spec hnext
      have hidle : (h.bufferFor j peers).peers ≠ [] := by
        intro hnil
        refine hpeers (AList.eq_empty_iff.mpr fun id hid => ?_)
        have hmem := (hcand id).mpr hid
        rw [hnil] at hmem
        cases hmem
      have hblocks : (h.bufferFor j peers).missingBlocks ≠ [] := by
        intro hnil
        have hlen := length_blocksOf j (h.pieceLengthAt j)
        rw [show blocksOf j (h.pieceLengthAt j) = [] from hnil] at hlen
        have hp := hpos j
        simp only [List.length_nil, blockSize] at hlen
        omega
      obtain ⟨nb, hnb, -⟩ := next_of_ne_nil hidle hblocks
      refine made_pos_of_poll e (Or.inl ?_)
      rw [hnb]
      exact List.cons_ne_nil _ _
  | some b =>
    obtain ⟨hsound, -, -, -⟩ := hI.solid b hb
    have ha := hI.accounting b hb
    cases hfull : b.isFullPiece with
    | true =>
      left
      obtain ⟨data, hd, -, -⟩ := hsound.finalize hfull
      have e : h.poll env = (.pieceFinished (.ok ⟨⟨b.pieceIndex, 0, b.pieceLength⟩, data⟩),
          ({ h with pieceBuffer := none } : TorrentPieceHandler).setPiece b.pieceIndex) := by
        unfold poll
        simp only [hb, hfull, hd, if_true]
      exact made_pos_of_poll e (Or.inr (Or.inl (Option.some_ne_none _)))
    | false =>
      have e : h.poll env = (.leechBlock b.next.1, { h with pieceBuffer := some b.next.2 }) := by
        unfold poll
        simp only [hb, hfull, Bool.false_eq_true, if_false]
      by_cases hpending : b.pendingBlocks.vals = []
      · -- nothing is out, so there is a block to ask for, and the candidate is idle
        left
        have hmissing := Exact.missing_ne_nil ha.exact_ hsound hfull hpending
        have hidle : b.peers ≠ [] := by
          obtain ⟨id, hid | hid⟩ := hserved.candidate b hb
          · exact List.ne_nil_of_mem hid
          · obtain ⟨m, hm⟩ := AList.mem_iff_lookup.mp hid
            have hmem := AList.mem_vals.mpr ⟨id, hm⟩
            rw [hpending] at hmem
            cases hmem
        obtain ⟨nb, hnb, -⟩ := next_of_ne_nil hidle hmissing
        refine made_pos_of_poll e (Or.inl ?_)
        rw [hnb]
        exact List.cons_ne_nil _ _
      · right
        obtain ⟨m, hm⟩ := List.exists_mem_of_ne_nil _ hpending
        obtain ⟨peer, hl⟩ := AList.mem_vals.mp hm
        exact ⟨peer, m, b, hb, hl⟩

theorem made_pos_of_accepts {h : TorrentPieceHandler} {peer : PeerId} {piece : Piece}
    (ha : h.Accepts peer (Block.ofPiece piece)) : 0 < made (h.taken (.addBlock peer piece)) := by
  obtain ⟨m, hm⟩ := ha
  have h2 : (h.taken (.addBlock peer piece)).2.1.card = 1 := by
    show (h.answers (.addBlock peer piece)).length = 1
    show (h.addBlock peer (Block.ofPiece piece)).1.toOption.toList.length = 1
    rw [hm]
    rfl
  unfold made
  omega

/-- **A served download completes.**  The pieces and the last piece have positive lengths.  From any state reached
without an unchoke by a candidate, take an endless run
that gives up no request, is served in all its states, is polled again and again, and has every request answered at
some time.  It finishes: there is a state in which the torrent is reported as finished, every bit is set, every block
has been asked for once and has arrived, and every piece has been finished once. -/
theorem download_completes (id : TorrentId) (sel : PieceSelection) (f : BitField) (n m : Nat) (hn : 0 < n) (hm : 0 < m)
    (before : List HandlerOp) (hbefore : Along step UnchokesIdle (new id sel f n m) before) (ops : Nat → HandlerOp)
    (hkeeps : ∀ k, (trajectory step (exec step (new id sel f n m) before) ops k).Keeps (ops k))
    (hserved : ∀ k, (trajectory step (exec step (new id sel f n m) before) ops k).Served)
    (hpolls : ∀ k, ∃ l, k ≤ l ∧ ∃ env, ops l = .poll env)
    (hanswers : ∀ k peer block, (trajectory step (exec step (new id sel f n m) before) ops k).Outstanding peer block →
      ∃ l, k ≤ l ∧ ∃ piece, ops l = .addBlock peer piece ∧
        (trajectory step (exec step (new id sel f n m) before) ops l).Accepts peer (Block.ofPiece piece)) :
    ∃ k, (trajectory step (exec step (new id sel f n m) before) ops k).Seeding ∧
      (trajectory step (exec step (new id sel f n m) before) ops k).bitfield.all = true ∧
      (exec step (new id sel f n m) before).asks ((List.range k).map ops)
        = (exec step (new id sel f n m) before).toAsk ∧
      (exec step (new id sel f n m) before).arrivals ((List.range k).map ops)
        = (exec step (new id sel f n m) before).asked + (exec step (new id sel f n m) before).toAsk ∧
      ((exec step (new id sel f n m) before).finishedPieces ((List.range k).map ops)).Perm
        (exec step (new id sel f n m) before).unfinishedPieces := by
  have hI : ∀ k, (trajectory step (exec step (new id sel f n m) before) ops k).Orderly :=
    trajectory_inv (I := Orderly) (fun _ _ hI hk => orderly_step hI hk.unchokesIdle)
      (orderly_exec (orderly_new id sel f n m) hbefore) hkeeps
  have hpos : ∀ k i, 0 < (trajectory step (exec step (new id sel f n m) before) ops k).pieceLengthAt i := by
    intro k i
    rw [trajectory, ← exec_append, pieceLengthAt_of_static (exec_static _ _)]
    unfold pieceLengthAt
    split
    · exact hm
    · exact hn
  obtain ⟨k, hk⟩ := exhausts (I := Orderly) (G := Keeps) (fun h => steps h.stock) (fun h op => made (h.taken op))
    (fun _ _ hI hk => orderly_step hI hk.unchokesIdle)
    (fun _ _ hI hk => made_step hI hk) (hI 0) hkeeps (by
      intro k
      obtain ⟨l, hl, env, hop⟩ := hpolls k
      cases hf : (trajectory step (exec step (new id sel f n m) before) ops l).finished with
      | true => exact ⟨l, hl, Or.inl ((steps_eq_zero_iff (hI l)).mpr hf)⟩
      | false =>
        rcases poll_or_wait (hI l) (hserved l) (hpos l) hf env with hmade | ⟨peer, block, hout⟩
        · refine ⟨l, hl, Or.inr ?_⟩
          rw [hop]
          exact hmade
        · obtain ⟨l', hl', piece, hop', hacc⟩ := hanswers l peer block hout
          refine ⟨l', hl.trans hl', Or.inr ?_⟩
          rw [hop']
          exact made_pos_of_accepts hacc)
  have hf := (steps_eq_zero_iff (hI k)).mp hk
  obtain ⟨hnone, hall⟩ := (hI k).settled hf
  exact ⟨k, ⟨hf, hnone⟩, hall, finished_books (hI 0) (along_range hkeeps k) hf⟩

/-- once it is finished nothing changes any more -/
theorem trajectory_twoBytes (k : Nat) :
    trajectory step (exec step twoBytes (seeding ⟨[7]⟩ ⟨[true, true]⟩)) twoBytesOps (k + 7)
      = trajectory step (exec step twoBytes (seeding ⟨[7]⟩ ⟨[true, true]⟩)) twoBytesOps 7 := by
  induction k with
  | zero => rfl
  | succ k ih =>
    rw [Nat.succ_add, trajectory_succ, ih]
    rfl

/-- in every state of the download a request is kept, there is somebody to ask, and an answer is due after one step -/
theorem twoBytes_fits (k : Nat) {h : TorrentPieceHandler}
    (hh : trajectory step (exec step twoBytes (seeding ⟨[7]⟩ ⟨[true, true]⟩)) twoBytesOps k = h) :
    h.Keeps (twoBytesOps k) ∧ h.Served ∧
      ∀ peer block, h.Outstanding peer block → (k = 1 ∨ k = 4) ∧ peer = ⟨[7]⟩ := by
  have hidle : h.pieceBuffer.elim [] (fun b => b.pendingBlocks.entries) = [] →
      ∀ peer block, h.Outstanding peer block → (k = 1 ∨ k = 4) ∧ peer = ⟨[7]⟩ := by
    intro he peer block hout
    rw [outstanding_iff, he] at hout
    cases hout
  have hdue : ∀ m, h.pieceBuffer.elim [] (fun b => b.pendingBlocks.entries) = [⟨⟨[7]⟩, m⟩] →
      ∀ peer block, h.Outstanding peer block → peer = ⟨[7]⟩ := by
    intro m he peer block hout
    rw [outstanding_iff, he] at hout
    cases List.mem_singleton.mp hout
    rfl
  have hbusy : ∀ b, h.pieceBuffer = some b → (∃ id, b.Candidate id) → h.Served := by
    intro b hb hcandidate
    exact ⟨fun hnone => (by cases hnone.symm.trans hb), fun b' hb' => Option.some.inj (hb.symm.trans hb') ▸ hcandidate⟩
  match k with
  | 0 =>
    subst hh
    exact ⟨trivial, ⟨fun _ _ => ⟨nofun, 0, by decide, everyCanSeed_iff.mpr (by decide)⟩, nofun⟩, hidle rfl⟩
  | 1 =>
    subst hh
    exact ⟨keeps_answer rfl, hbusy _ rfl ⟨⟨[7]⟩, by decide⟩, fun peer block hout => ⟨Or.inl rfl, hdue _ rfl peer block hout⟩⟩
  | 2 =>
    subst hh
    exact ⟨trivial, hbusy _ rfl ⟨⟨[7]⟩, by decide⟩, hidle rfl⟩
  | 3 =>
    subst hh
    exact ⟨trivial, ⟨fun _ _ => ⟨nofun, 1, by decide, everyCanSeed_iff.mpr (by decide)⟩, nofun⟩, hidle rfl⟩
  | 4 =>
    subst hh
    exact ⟨keeps_answer rfl, hbusy _ rfl ⟨⟨[7]⟩, by decide⟩, fun peer block hout => ⟨Or.inr rfl, hdue _ rfl peer block hout⟩⟩
  | 5 =>
    subst hh
    exact ⟨trivial, hbusy _ rfl ⟨⟨[7]⟩, by decide⟩, hidle rfl⟩
  | 6 =>
    subst hh
    exact ⟨trivial, ⟨fun _ hne => (hne rfl).elim, nofun⟩, hidle rfl⟩
  | k + 7 =>
    rw [trajectory_twoBytes] at hh
    subst hh
    exact ⟨trivial, ⟨fun _ hne => (hne rfl).elim, nofun⟩, hidle rfl⟩

theorem download_completes_two_pieces :
    ∃ k, (trajectory step (exec step twoBytes (seeding ⟨[7]⟩ ⟨[true, true]⟩)) twoBytesOps k).Seeding := by
  obtain ⟨k, hk, -⟩ := download_completes _ _ _ _ _ Nat.one_pos Nat.one_pos _ twoBytes_before twoBytesOps
    (fun k => (twoBytes_fits k rfl).1) (fun k => (twoBytes_fits k rfl).2.1)
    (fun k => ⟨k + 5, Nat.le_add_right k 5, ⟨.same, .same⟩, rfl⟩) (by
      intro k peer block hout
      obtain ⟨rfl | rfl, rfl⟩ := (twoBytes_fits k rfl).2.2 peer block hout
      · exact ⟨1, Nat.le_refl 1, _, rfl, _, rfl⟩
      · exact ⟨4, Nat.le_refl 4, _, rfl, _, rfl⟩)
  exact ⟨k, hk⟩

end TorrentPieceHandler

end Btt
