import BitTorrent.Peer.Handler

/-!
# Progress of a download

Runs of a `TorrentPieceHandler` from `new`, over every operation of `HandlerOp`, and the results of their
polls.

* `Progress`           the invariant: finished pieces are owned, were missing at the start and are listed
                       once, and the piece in the buffer is not among them;
* `progress_monotone`  owned pieces stay owned, every piece is finished once, and after `Finished` every
                       poll is answered `Seed`.
-/

namespace Btt
open Run

/-- the piece that a poll finished -/
def HandlerState.piece : HandlerState → Option Nat
  | .pieceFinished (.ok block) => some block.metadata.pieceIndex
  | _ => none

def HandlerState.isFinished : HandlerState → Bool
  | .finished => true
  | _ => false

namespace TorrentPieceHandler

/-- the result of a poll -/
def result (h : TorrentPieceHandler) : HandlerOp → Option HandlerState
  | .poll env => some (h.poll env).1
  | _ => none

/-- the results of the polls of a run -/
def results (h : TorrentPieceHandler) (ops : List HandlerOp) : List HandlerState := outputs step result h ops

/-- the pieces the polls of a run finished -/
def finishedPieces (h : TorrentPieceHandler) (ops : List HandlerOp) : List Nat :=
  (h.results ops).filterMap HandlerState.piece

theorem finishedPieces_snoc (h : TorrentPieceHandler) (ops : List HandlerOp) (op : HandlerOp) :
    h.finishedPieces (ops ++ [op])
      = h.finishedPieces ops ++ (((exec step h ops).result op).bind HandlerState.piece).toList := by
  rw [finishedPieces, results, outputs_snoc, List.filterMap_append]
  cases (exec step h ops).result op with
  | none => rfl
  | some st => cases hst : st.piece <;> simp [finishedPieces, results, hst]

/-! ## one step -/

/-- a poll without a buffer: seeding, finishing now, or choosing a piece -/
theorem poll_of_none {h : TorrentPieceHandler} (hb : h.pieceBuffer = none) (env : PollEnv) :
    (h.finished = true ∧ h.poll env = (.seed, h)) ∨
    (h.finished = false ∧ h.bitfield.all = true ∧ h.poll env = (.finished, { h with finished := true })) ∨
    (h.finished = false ∧ (h.poll env).1 ≠ .finished) := by
  unfold poll
  rw [hb]
  simp only
  split
  · rename_i hf
    exact Or.inl ⟨hf, rfl⟩
  · rename_i hf
    right
    split
    · rename_i hall
      exact Or.inl ⟨Bool.eq_false_iff.mpr hf, hall, rfl⟩
    · right
      split <;> exact ⟨Bool.eq_false_iff.mpr hf, fun hst => by cases hst⟩

/-- owned pieces stay owned -/
theorem bit_step {h : TorrentPieceHandler} {i : Nat} (hi : h.bitfield.get i = some true) (op : HandlerOp) :
    (h.step op).bitfield.get i = some true := by
  have hset : ∀ j, (h.bitfield.set j true).get i = some true := by
    intro j
    have hlt : i < h.bitfield.len := (List.getElem?_eq_some_iff.mp hi).1
    rw [BitField.get_set]
    split
    · rename_i e
      rw [if_pos (e ▸ hlt)]
    · exact hi
  rcases h.step_cases op with ⟨peers, buffer, e⟩ | ⟨p, m, r, rfl⟩ | ⟨test, e⟩ | ⟨j, rfl⟩ | ⟨env, rfl⟩
  · rw [e]
    exact hi
  · exact hi
  · rw [e]
    exact hi
  · show (h.setPiece j).bitfield.get i = _
    rw [setPiece_eq]
    exact hset j
  · show (h.poll env).2.bitfield.get i = _
    rcases h.poll_cases env with ⟨_, block, -, -, -, e⟩ | ⟨_, _, -, -, -, e⟩ | ⟨_, -, -, e⟩ | ⟨_, -, -, e⟩ |
      ⟨-, _, -, e⟩ | ⟨-, e⟩ <;> rw [e]
    · exact hset _
    all_goals exact hi

/-- only a poll finishes pieces, and finishes the one in the buffer -/
theorem piece_of_result {h : TorrentPieceHandler} {op : HandlerOp} {i : Nat}
    (hi : (h.result op).bind HandlerState.piece = some i) :
    ∃ b, h.pieceBuffer = some b ∧ b.pieceIndex = i ∧ (h.step op).pieceBuffer = none ∧
      (h.step op).bitfield = h.bitfield.set i true := by
  cases op with
  | poll env =>
    have hi : (h.poll env).1.piece = some i := hi
    show ∃ b, _ ∧ _ ∧ (h.poll env).2.pieceBuffer = none ∧ (h.poll env).2.bitfield = _
    rcases h.poll_cases env with ⟨b, block, hb, -, hok, e⟩ | ⟨_, _, -, -, -, e⟩ | ⟨_, -, -, e⟩ | ⟨_, -, -, e⟩ |
      ⟨-, st, hst, e⟩ | ⟨-, e⟩ <;> rw [e] at hi ⊢
    · unfold PieceBuffer.tryFinalizePiece at hok
      split at hok <;> cases hok
      cases hi
      exact ⟨b, hb, rfl, rfl, rfl⟩
    · cases hi
    · cases hi
    · cases hi
    · rcases hst with rfl | rfl <;> cases hi
    · cases hi
  | _ => cases hi

/-! ## the invariant -/

structure Progress (f : BitField) (h : TorrentPieceHandler) (pieces : List Nat) : Prop where
  grown : ∀ i, f.get i = some true → h.bitfield.get i = some true
  len : h.bitfield.len = f.len
  once : pieces.Nodup
  owned : ∀ i ∈ pieces, h.bitfield.get i = some true
  missing : ∀ i ∈ pieces, f.get i = some false
  buffer : ∀ b, h.pieceBuffer = some b → f.get b.pieceIndex = some false ∧ b.pieceIndex ∉ pieces

theorem progress_new (id : TorrentId) (sel : PieceSelection) (f : BitField) (n m : Nat) :
    Progress f (new id sel f n m) [] where
  grown _ hi := hi
  len := rfl
  once := List.nodup_nil
  owned := nofun
  missing := nofun
  buffer := nofun

theorem Progress.step {f : BitField} {h : TorrentPieceHandler} {pieces : List Nat} (hp : Progress f h pieces)
    (op : HandlerOp) :
    Progress f (h.step op) (pieces ++ ((h.result op).bind HandlerState.piece).toList) := by
  have hlen : (h.step op).bitfield.len = f.len := by
    rw [← hp.len]
    exact congrArg (·.2.2.2.2) (h.step_static op)
  cases hpiece : (h.result op).bind HandlerState.piece with
  | none =>
    rw [Option.toList_none, List.append_nil]
    refine ⟨fun i hi => bit_step (hp.grown i hi) op, hlen, hp.once, fun i hi => bit_step (hp.owned i hi) op,
      hp.missing, ?_⟩
    intro b' hb'
    rcases step_buffer_cases hb' with ⟨hb, -⟩ | ⟨b, o, hb, -, rfl⟩ | ⟨env, i, peers, -, -, hi, -, rfl⟩
    · exact hp.buffer b' hb
    · rw [(b.apply_static o).1]
      exact hp.buffer b hb
    · -- a piece is chosen that is missing now, so it was missing before and is not finished
      rw [((h.bufferFor i peers).apply_static .next).1]
      refine ⟨?_, ?_⟩
      · cases hf : f.get i with
        | none =>
          have hlt : i < h.bitfield.len := (List.getElem?_eq_some_iff.mp hi).1
          have hge : f.len ≤ i := List.getElem?_eq_none_iff.mp hf
          rw [hp.len] at hlt
          omega
        | some bit =>
          cases bit with
          | false => exact hf
          | true => cases hi.symm.trans (hp.grown i hf)
      · intro hmem
        cases hi.symm.trans (hp.owned i hmem)
  | some i =>
    obtain ⟨b, hb, rfl, hnone, hbits⟩ := piece_of_result hpiece
    obtain ⟨hmiss, hnew⟩ := hp.buffer b hb
    have hbit : (h.step op).bitfield.get b.pieceIndex = some true := by
      have hlt : b.pieceIndex < h.bitfield.len := hp.len ▸ (List.getElem?_eq_some_iff.mp hmiss).1
      rw [hbits, BitField.get_set, if_pos rfl, if_pos hlt]
    refine ⟨fun i hi => bit_step (hp.grown i hi) op, hlen, ?_, ?_, ?_, ?_⟩
    · exact hp.once.snoc hnew
    · intro i hi
      rcases List.mem_append.mp hi with hi | hi
      · exact bit_step (hp.owned i hi) op
      · rw [List.mem_singleton.mp hi]
        exact hbit
    · intro i hi
      rcases List.mem_append.mp hi with hi | hi
      · exact hp.missing i hi
      · rw [List.mem_singleton.mp hi]
        exact hmiss
    · intro b' hb'
      rw [hnone] at hb'
      cases hb'

theorem progress_exec (id : TorrentId) (sel : PieceSelection) (f : BitField) (n m : Nat)
    (ops : List HandlerOp) :
    Progress f (exec step (new id sel f n m) ops) ((new id sel f n m).finishedPieces ops) := by
  induction ops using List.reverseRecOn with
  | nil => exact progress_new id sel f n m
  | append_singleton ops op ih =>
    rw [exec_snoc, finishedPieces_snoc]
    exact ih.step op

/-! ## after the last piece -/

/-- nothing is left to download -/
structure Seeding (h : TorrentPieceHandler) : Prop where
  finished : h.finished = true
  idle : h.pieceBuffer = none

theorem Seeding.step {h : TorrentPieceHandler} (hs : h.Seeding) (op : HandlerOp) :
    (h.step op).Seeding ∧ ∀ r, h.result op = some r → r = .seed := by
  have hpoll : ∀ env, h.poll env = (.seed, h) := by
    intro env
    unfold poll
    rw [hs.idle]
    exact if_pos hs.finished
  have hidle : (h.step op).pieceBuffer = none := by
    cases hb : (h.step op).pieceBuffer with
    | none => rfl
    | some b =>
      obtain ⟨env, -, -, rfl, -⟩ := step_none hs.idle hb
      have hb : (h.poll env).2.pieceBuffer = some b := hb
      rw [hpoll, hs.idle] at hb
      cases hb
  have hfinished : (h.step op).finished = true := by
    rcases h.step_cases op with ⟨peers, buffer, e⟩ | ⟨p, m, r, rfl⟩ | ⟨test, e⟩ | ⟨j, rfl⟩ | ⟨env, rfl⟩
    · rw [e]
      exact hs.finished
    · exact hs.finished
    · rw [e]
      exact hs.finished
    · show (h.setPiece j).finished = true
      rw [setPiece_eq]
      exact hs.finished
    · show (h.poll env).2.finished = true
      rw [hpoll]
      exact hs.finished
  refine ⟨⟨hfinished, hidle⟩, ?_⟩
  intro r hr
  cases op with
  | poll env =>
    cases hr
    rw [hpoll]
  | _ => cases hr

theorem Seeding.results {h : TorrentPieceHandler} (hs : h.Seeding) (ops : List HandlerOp) :
    ∀ r ∈ h.results ops, r = .seed := by
  induction ops generalizing h with
  | nil =>
    intro r hr
    cases hr
  | cons op ops ih =>
    intro r hr
    rcases List.mem_append.mp hr with hr | hr
    · exact (hs.step op).2 r (Option.mem_toList.mp hr)
    · exact ih (hs.step op).1 r hr

/-- `Finished` is the answer to a poll that finds every bit set and no buffer, and seeding begins with it -/
theorem seeding_of_finished {h : TorrentPieceHandler} {env : PollEnv} (hp : (h.poll env).1 = .finished) :
    h.bitfield.all = true ∧ h.pieceBuffer = none ∧ (h.poll env).2.Seeding := by
  cases hb : h.pieceBuffer with
  | none =>
    rcases poll_of_none hb env with ⟨-, e⟩ | ⟨-, hall, e⟩ | ⟨-, hne⟩
    · rw [e] at hp
      cases hp
    · rw [e]
      exact ⟨hall, rfl, rfl, hb⟩
    · exact (hne hp).elim
  | some b =>
    unfold poll at hp
    rw [hb] at hp
    simp only at hp
    split at hp
    · split at hp <;> cases hp
    · cases hp

theorem seed_after_finished {h : TorrentPieceHandler} {ops : List HandlerOp} {before after : List HandlerState}
    (hr : h.results ops = before ++ .finished :: after) : ∀ r ∈ after, r = .seed := by
  induction ops generalizing h before with
  | nil =>
    have hr : [] = before ++ .finished :: after := hr
    simp at hr
  | cons op ops ih =>
    have hr : (h.result op).toList ++ (h.step op).results ops = before ++ .finished :: after := hr
    cases hres : h.result op with
    | none =>
      rw [hres] at hr
      exact ih hr
    | some st =>
      rw [hres] at hr
      cases before with
      | cons st' before =>
        rw [Option.toList_some, List.singleton_append, List.cons_append] at hr
        exact ih (List.cons.inj hr).2
      | nil =>
        obtain ⟨rfl, hafter⟩ := List.cons.inj hr
        cases op with
        | poll env =>
          rw [← hafter]
          exact (seeding_of_finished (Option.some.inj hres)).2.2.results ops
        | _ => cases hres

/-- a poll is answered `Finished` at most once -/
theorem countP_isFinished_le {l : List HandlerState}
    (h : ∀ before after, l = before ++ .finished :: after → ∀ r ∈ after, r = .seed) :
    l.countP HandlerState.isFinished ≤ 1 := by
  induction l with
  | nil => exact Nat.zero_le 1
  | cons st l ih =>
    cases st with
    | finished =>
      have hseed := h [] l rfl
      have hzero : l.countP HandlerState.isFinished = 0 := by
        rw [List.countP_eq_zero]
        intro r hr
        rw [hseed r hr]
        exact Bool.false_ne_true
      rw [List.countP_cons_of_pos rfl, hzero]
    | _ =>
      rw [List.countP_cons_of_neg Bool.false_ne_true]
      exact ih fun before after hl => h (_ :: before) after (congrArg _ hl)

/-- **Progress is monotone and every piece is finished once.**  In every run from `new`: bits stay set; the
finished pieces are pairwise distinct and were missing at the start; `Finished` is answered at most once, only
when every bit is set and there is no buffer, and then every poll is answered `Seed`, as it is from the start
if no piece is missing. -/
theorem progress_monotone (id : TorrentId) (sel : PieceSelection) (f : BitField) (n m : Nat)
    (ops : List HandlerOp) :
    (∀ more i, (exec step (new id sel f n m) ops).bitfield.get i = some true →
      (exec step (new id sel f n m) (ops ++ more)).bitfield.get i = some true) ∧
    ((new id sel f n m).finishedPieces ops).Nodup ∧
    (∀ i ∈ (new id sel f n m).finishedPieces ops, f.get i = some false) ∧
    (∀ env, ((exec step (new id sel f n m) ops).poll env).1 = .finished →
      (exec step (new id sel f n m) ops).bitfield.all = true ∧
        (exec step (new id sel f n m) ops).pieceBuffer = none) ∧
    ((new id sel f n m).results ops).countP HandlerState.isFinished ≤ 1 ∧
    (∀ before after, (new id sel f n m).results ops = before ++ .finished :: after → ∀ r ∈ after, r = .seed) ∧
    (f.all = true → ∀ r ∈ (new id sel f n m).results ops, r = .seed) := by
  have hp := progress_exec id sel f n m ops
  refine ⟨?_, hp.once, hp.missing, ?_, countP_isFinished_le fun _ _ => seed_after_finished,
    fun _ _ => seed_after_finished, ?_⟩
  · intro more i hi
    rw [exec_append]
    exact exec_inv (I := fun h : TorrentPieceHandler => h.bitfield.get i = some true)
      (fun _ op h => bit_step h op) hi more
  · intro env hf
    exact ⟨(seeding_of_finished hf).1, (seeding_of_finished hf).2.1⟩
  · intro hall
    exact Seeding.results ⟨hall, rfl⟩ ops

end TorrentPieceHandler

end Btt
