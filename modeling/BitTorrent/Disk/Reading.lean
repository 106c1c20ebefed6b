import BitTorrent.Disk.Accounting

/-!
# The reads that are outstanding

`reading dm t` lists the blocks of the torrent `t` with a read that is queued or active.  A call adds its block, a
poll takes away the block of the read it answers (`poll_reading`), and nothing else changes the list.

`pollMoves` lists the moves a poll comes to.  `ReadFails` says what makes a read fail when it is its turn: its torrent,
its block, an open, or what the calls for its file give.  A poll that answers an error comes to a read that fails
(`readFails_of_poll`).
-/

namespace Btt
open Run

/-- the block a message asks to read from the torrent `t` -/
def DiskMessageIn.readOf (t : TorrentId) : DiskMessageIn → Option BlockMetadata
  | .readBlock id metadata => if id = t then some metadata else none
  | _ => none

/-- the block a job reads from the torrent `t` -/
def BlockJob.readOf {File : Type} (t : TorrentId) : BlockJob File → Option BlockMetadata
  | .read r => if r.torrent = t then some r.metadata else none
  | .write _ => none

/-- the read has not got exactly the bytes of its window, or its block lies in several files -/
def BlockJob.Spoiled {File : Type} : BlockJob File → Prop
  | .read (.single _ block) => block.block.length ≠ block.fileWindow.length
  | .read (.overlap _ _ blocks) => blocks ≠ []
  | .write _ => False

namespace DiskManager
variable {File World Err : Type}

/-- the blocks of `t` with a read that is queued or active -/
def reading (dm : DiskManager File World) (t : TorrentId) : List BlockMetadata :=
  dm.queuedEvents.filterMap (DiskMessageIn.readOf t) ++ dm.activeBlocks.filterMap (BlockJob.readOf t)

/-- the blocks whose read an answer ends -/
inductive Spent (t : TorrentId) : Option DiskMessageOut → List BlockMetadata → Prop
  | nothing : Spent t none []
  | other {msg} (h : msg.reads t = false) : Spent t (some msg) []
  | read {block} : Spent t (some (.blockRead t block)) [block.metadata]
  | failed {e m} : Spent t (some (.readBlockError t e)) [m]

/-- every message of the queue was put there by a call, every job serves one -/
def Called (dm : DiskManager File World) : Prop := ∃ ins, Accounted ins [] dm

theorem Serves.readOf {msg : DiskMessageIn} {job : BlockJob File} (h : Serves msg job) (t : TorrentId) :
    job.readOf t = msg.readOf t := by
  cases msg with
  | readBlock id m =>
    cases job with
    | read r => rw [BlockJob.readOf, DiskMessageIn.readOf, h.1, h.2]
    | write r => cases h
  | writeBlock id block =>
    cases job with
    | read r => cases h
    | write r => rfl
  | _ => cases h

/-- the message of an answer has the block of the read that ends -/
theorem AnswersTo.spent {msg : DiskMessageIn} {out : DiskMessageOut} (h : AnswersTo msg out) (t : TorrentId) :
    Spent t (some out) (msg.readOf t).toList := by
  have hreads := (h.kind t).1
  by_cases hout : out.reads t = true
  · cases msg with
    | readBlock id m =>
      cases out with
      | blockRead id' block =>
        obtain ⟨rfl, rfl⟩ := h
        obtain rfl : id' = t := of_decide_eq_true hout
        rw [DiskMessageIn.readOf, if_pos rfl]
        exact .read
      | readBlockError id' e =>
        obtain rfl : id' = id := h
        obtain rfl : id' = t := of_decide_eq_true hout
        rw [DiskMessageIn.readOf, if_pos rfl]
        exact .failed
      | _ => cases h
    | _ => cases hreads.symm.trans hout
  · have hnone : msg.readOf t = none := by
      cases msg with
      | readBlock id m =>
        rw [DiskMessageIn.readOf, if_neg]
        intro hid
        exact hout (hreads.trans (decide_eq_true hid))
      | _ => rfl
    rw [hnone]
    exact .other (Bool.eq_false_iff.mpr hout)

/-! ## calls -/

theorem called_withCapacity (world : World) (capacity : Nat) :
    (withCapacity world capacity : DiskManager File World).Called := ⟨[], accounted_withCapacity world capacity⟩

theorem Called.push {dm : DiskManager File World} (h : dm.Called) (op : DiskOp) {msg : DiskMessageIn}
    (hop : op.message = some msg) : (dm.push msg).Called := by
  obtain ⟨ins, ha⟩ := h
  refine ⟨ins ++ [msg], ha.filed, ?_, ha.ledger.call msg⟩
  intro m hm
  rcases List.mem_append.mp hm with hm | hm
  · exact ha.called m hm
  · exact ⟨op, by rw [hop, List.mem_singleton.mp hm]⟩

theorem reading_push (dm : DiskManager File World) (msg : DiskMessageIn) (t : TorrentId) :
    ((dm.push msg).reading t).Perm ((msg.readOf t).toList ++ dm.reading t) := by
  show ((dm.queuedEvents ++ [msg]).filterMap _ ++ _).Perm _
  rw [List.filterMap_append, ← Option.toList_some, Option.filterMap_toList, reading, ← List.append_assoc]
  exact List.perm_append_comm.append_right _

/-! ## polls -/

section
variable {fs : FileSystem File World Err} {sha1 : List UInt8 → ShaHash} {dm dm' : DiskManager File World}

theorem Accounted.moves {ins : List DiskMessageIn} {outs out : List DiskMessageOut} (ha : Accounted ins outs dm)
    {ops : List DiskOp} (h : Moves fs sha1 dm ops out dm') : Accounted ins (outs ++ out) dm' := by
  obtain ⟨hcalls, hrun, hanswers⟩ := h
  have hall : Accounted (ins ++ calls ops) (outs ++ answers fs sha1 (some dm) ops) dm' := by
    refine run_inv (I := fun i o dm => Accounted (ins ++ i) (outs ++ o) dm) ?_ ?_ hrun
    · intro i o dm1 op out1 dm2 h1 hm
      rw [← List.append_assoc, ← List.append_assoc]
      exact h1.moved hm
    · rw [List.append_nil, List.append_nil]
      exact ha
  rw [hcalls, hanswers, List.append_nil] at hall
  exact hall

/-- moves with at most one answer end the read it answers, and no other -/
theorem moves_reading {ops : List DiskOp} {out : Option DiskMessageOut} (h : dm.Called)
    (hops : Moves fs sha1 dm ops out.toList dm') :
    dm'.Called ∧ ∀ t, ∃ spent, Spent t out spent ∧ (dm.reading t).Perm (dm'.reading t ++ spent) := by
  obtain ⟨ins, ha⟩ := h
  have ha' : Accounted ins out.toList dm' := ha.moves hops
  refine ⟨?_, ?_⟩
  · obtain ⟨ins', hsub, hl⟩ := ha'.ledger.rebase
    exact ⟨ins', ha'.filed, fun m hm => ha'.called m (hsub m hm), hl⟩
  · intro t
    obtain ⟨none', hnil, hbefore⟩ := ha.ledger.outstanding fun m j hmj => hmj.readOf t
    cases hnil
    obtain ⟨answered, hgiven, hafter⟩ := ha'.ledger.outstanding fun m j hmj => hmj.readOf t
    rw [List.filterMap_nil, List.append_nil] at hbefore
    refine ⟨answered.filterMap (DiskMessageIn.readOf t), ?_, hbefore.symm.trans hafter⟩
    cases out with
    | none =>
      cases hgiven
      exact .nothing
    | some msg =>
      cases hgiven with
      | @cons _ m _ rest hm hrest =>
        cases hrest
        rw [← Option.toList_some, Option.filterMap_toList]
        exact AnswersTo.spent hm t

/-- **A poll ends the read it answers**, and no other. -/
theorem poll_reading {order : Arrangement FileEntry} {rounds : Nat} {out : Option DiskMessageOut} (h : dm.Called)
    (hpoll : DiskPoll.left (dm.poll fs sha1 order rounds) = some (out, dm')) :
    dm'.Called ∧ ∀ t, ∃ spent, Spent t out spent ∧ (dm.reading t).Perm (dm'.reading t ++ spent) := by
  obtain ⟨ops, hops⟩ := poll_run hpoll
  exact moves_reading h hops

/-- moves without an answer end no read -/
theorem silent_reading {ops : List DiskOp} (h : dm.Called) (hops : Moves fs sha1 dm ops [] dm') :
    dm'.Called ∧ ∀ t, (dm.reading t).Perm (dm'.reading t) := by
  obtain ⟨hcalled, hreading⟩ := @moves_reading _ _ _ fs sha1 dm dm' ops none h hops
  refine ⟨hcalled, ?_⟩
  intro t
  obtain ⟨spent, hspent, hperm⟩ := hreading t
  cases hspent
  rwa [List.append_nil] at hperm

end

/-! ## the moves of a poll -/

section
variable (fs : FileSystem File World Err) (sha1 : List UInt8 → ShaHash) (order : Arrangement FileEntry)

/-- the moves that the loop over the jobs comes to, each with the state it finds -/
def activeMoves : Nat → DiskManager File World → List (DiskManager File World × DiskOp)
  | 0, _ => []
  | i + 1, dm =>
    (dm, .pollJob i) ::
      match pollJob fs i dm with
      | some (none, dm) => activeMoves i dm
      | _ => []

/-- those of the loop over the queue -/
def queueMoves : Nat → DiskManager File World → List (DiskManager File World × DiskOp)
  | 0, _ => []
  | rounds + 1, dm =>
    match dm.queuedEvents with
    | [] => []
    | msg :: queue =>
      (dm, .pollMessage order) ::
        match handle fs sha1 order { dm with queuedEvents := queue } msg with
        | some (none, dm) => queueMoves rounds dm
        | _ => []

/-- those of a whole poll -/
def pollMoves : Nat → DiskManager File World → List (DiskManager File World × DiskOp)
  | 0, _ => []
  | rounds + 1, dm =>
    activeMoves fs dm.activeBlocks.length dm ++
      match pollActive fs dm.activeBlocks.length dm with
      | some (none, dm) =>
        queueMoves fs sha1 order dm.queuedEvents.length dm ++
          match pollQueue fs sha1 order dm.queuedEvents.length dm with
          | some (none, dm) => if dm.activeBlocks.isEmpty then [] else pollMoves rounds dm
          | _ => []
      | _ => []

/-- silent moves lead from `dm` to a state in `visited`, whose move gives the answer and leaves `dm'` behind -/
def AnswersAt (dm : DiskManager File World) (visited : List (DiskManager File World × DiskOp)) (msg : DiskMessageOut)
    (dm' : DiskManager File World) : Prop :=
  ∃ ops dm1 op, Moves fs sha1 dm ops [] dm1 ∧ (dm1, op) ∈ visited ∧ dm1.move fs sha1 op = some (some msg, dm')

end

section
variable {fs : FileSystem File World Err} {sha1 : List UInt8 → ShaHash} {order : Arrangement FileEntry}
  {dm dm' : DiskManager File World} {msg : DiskMessageOut}

theorem AnswersAt.after {ops : List DiskOp} {dm1 : DiskManager File World}
    {visited visited' : List (DiskManager File World × DiskOp)} (h : AnswersAt fs sha1 dm1 visited msg dm')
    (hops : Moves fs sha1 dm ops [] dm1) (hsub : visited ⊆ visited') : AnswersAt fs sha1 dm visited' msg dm' := by
  obtain ⟨ops', dm2, op, hops', hmem, hmove⟩ := h
  exact ⟨ops ++ ops', dm2, op, hops.trans hops', hsub hmem, hmove⟩

theorem pollActive_answers {i : Nat} (h : pollActive fs i dm = some (some msg, dm')) :
    AnswersAt fs sha1 dm (activeMoves fs i dm) msg dm' := by
  induction i generalizing dm with
  | zero => cases h
  | succ i ih =>
    rw [pollActive_succ] at h
    obtain ⟨⟨out, dm1⟩, h1, h⟩ := Option.bind_eq_some_iff.mp h
    have hone : dm.move fs sha1 (.pollJob i) = some (out, dm1) := h1
    cases out with
    | some msg =>
      cases h
      exact ⟨[], dm, .pollJob i, Moves.nil dm, List.mem_cons_self, hone⟩
    | none =>
      refine (ih h).after (Moves.cons rfl hone (Moves.nil dm1)) ?_
      rw [activeMoves, h1]
      exact List.subset_cons_self _ _

theorem pollQueue_answers {rounds : Nat} (h : pollQueue fs sha1 order rounds dm = some (some (.ready msg), dm')) :
    AnswersAt fs sha1 dm (queueMoves fs sha1 order rounds dm) msg dm' := by
  induction rounds generalizing dm with
  | zero => cases h
  | succ rounds ih =>
    unfold pollQueue at h
    split at h
    · cases h
    · rename_i call queue hq
      split at h
      · cases h
      · rename_i p dm1 hh
        cases h
        refine ⟨[], dm, .pollMessage order, Moves.nil dm, ?_, move_of_handle hq hh⟩
        rw [queueMoves, hq]
        exact List.mem_cons_self
      · rename_i dm1 hh
        refine (ih h).after (Moves.cons rfl (move_of_handle hq hh) (Moves.nil dm1)) ?_
        rw [queueMoves, hq]
        simp only [hh]
        exact List.subset_cons_self _ _

/-- **A poll that answers ends with the move that gives the answer.** -/
theorem poll_answers {rounds : Nat} (h : dm.poll fs sha1 order rounds = .ready msg dm') :
    AnswersAt fs sha1 dm (dm.pollMoves fs sha1 order rounds) msg dm' := by
  induction rounds generalizing dm with
  | zero => cases h
  | succ rounds ih =>
    unfold poll at h
    rw [pollMoves]
    split at h
    · cases h
    · rename_i msg dm1 hactive
      cases h
      exact (pollActive_answers hactive).after (Moves.nil dm) (List.subset_append_left _ _)
    · rename_i dm1 hactive
      obtain ⟨ops, hops⟩ : ∃ ops, Moves fs sha1 dm ops [] dm1 := pollActive_run hactive
      rw [hactive]
      simp only
      split at h
      · cases h
      · rename_i msg dm2 hqueue
        cases h
        exact (pollQueue_answers hqueue).after hops fun visit h => List.mem_append_right _ (List.mem_append_left _ h)
      · cases h
      · rename_i dm2 hqueue
        obtain ⟨ops', hops'⟩ := pollQueue_run hqueue
        rw [hqueue]
        simp only
        split at h
        · cases h
        · rename_i hempty
          rw [if_neg hempty]
          exact (ih h).after (hops.trans hops') fun visit h => List.mem_append_right _ (List.mem_append_right _ h)

end

/-! ## reads that fail -/

/-- what makes a read of the block `m` of the torrent `t` fail when it is its turn: the message at the head of the queue
asks for it, and the torrent is not there, the block is refused or a file of it does not open; or a job reads it, and the
calls for its file end without exactly the bytes of its window, or it lies in several files -/
inductive ReadFails (fs : FileSystem File World Err) (dm : DiskManager File World) :
    DiskOp → TorrentId → BlockMetadata → Prop
  | unknown {order t m queue} (hq : dm.queuedEvents = .readBlock t m :: queue) (h : dm.torrents.lookup t = none) :
      ReadFails fs dm (.pollMessage order) t m
  | refused {order t m queue F e} (hq : dm.queuedEvents = .readBlock t m :: queue) (hF : dm.torrents.lookup t = some F)
      (h : F.filesForBlock order m = some (.error e)) : ReadFails fs dm (.pollMessage order) t m
  | unopened {order t m queue files e dm1} (hq : dm.queuedEvents = .readBlock t m :: queue)
      (ht : dm.Touches order t m files)
      (h : takeFiles fs files [] true { dm with queuedEvents := queue } = (.error e, dm1)) :
      ReadFails fs dm (.pollMessage order) t m
  | spoiled {i t m job rest r job' w} (hjob : swapRemove dm.activeBlocks i = some (job, rest))
      (hread : job.readOf t = some m) (hpoll : job.poll fs dm.world = some (.ready r, job', w)) (h : job'.Spoiled) :
      ReadFails fs dm (.pollJob i) t m

section
variable {fs : FileSystem File World Err} {sha1 : List UInt8 → ShaHash} {dm dm' : DiskManager File World}
  {t : TorrentId} {e : TorrentError}

theorem spoiled_of_error {r : BlockRead File} (h : answerOf (.read r) = .readBlockError t e) :
    (BlockJob.read r).Spoiled := by
  cases r with
  | overlap id m blocks =>
    rintro rfl
    cases h
  | single m b =>
    intro hfull
    unfold answerOf BlockJob.finalize BlockRead.finalize at h
    simp only [if_pos hfull] at h
    cases h

/-- a job that ends with an error was a read that fails -/
theorem readFails_of_job {i : Nat} (h : pollJob fs i dm = some (some (.readBlockError t e), dm')) :
    ∃ m, ReadFails fs dm (.pollJob i) t m ∧ (dm.reading t).Perm (m :: dm'.reading t) := by
  unfold pollJob at h
  split at h
  · cases h
  · rename_i job rest hswap
    split at h
    · cases h
    · rename_i r job' w hpoll
      simp only [finalizeBlock_eq] at h
      obtain ⟨hout, rfl⟩ := Prod.mk.inj (Option.some.inj h)
      replace hout := Option.some.inj hout
      cases job' with
      | write r' =>
        rcases answerOf_write r' with ⟨data, hw⟩ | hw <;> rw [hw] at hout <;> cases hout
      | read r' =>
        obtain ⟨r0, rfl, htorrent, hmeta⟩ := (BlockJob.continues_poll hpoll).read
        have ht : r'.torrent = t := by
          rcases answerOf_read r' with ⟨data, hr⟩ | hr
          · rw [hr] at hout
            cases hout
          · rw [hr] at hout
            exact (DiskMessageOut.readBlockError.inj hout).1
        have hread : (BlockJob.read r0).readOf t = some r0.metadata := if_pos (htorrent.symm.trans ht)
        refine ⟨r0.metadata, .spoiled hswap hread hpoll (spoiled_of_error hout), ?_⟩
        have hactive := (perm_swapRemove hswap).filterMap (BlockJob.readOf t)
        rw [List.filterMap_cons_some hread] at hactive
        exact (hactive.append_left _).trans List.perm_middle
    · cases h

/-- a message that is answered with a read error asked for a read that fails -/
theorem readFails_of_message {order : Arrangement FileEntry} {msg : DiskMessageIn} {queue : List DiskMessageIn}
    (hq : dm.queuedEvents = msg :: queue)
    (h : Handled fs sha1 order { dm with queuedEvents := queue } msg (some (.ready (.readBlockError t e))) dm') :
    ∃ m, ReadFails fs dm (.pollMessage order) t m ∧ (dm.reading t).Perm (m :: dm'.reading t) := by
  generalize hout : some (Poll.ready (DiskMessageOut.readBlockError t e)) = out at h
  cases h with
  | removed =>
    have hne : (({ dm with queuedEvents := queue } : DiskManager File World).removeTorrent _).1 = .readBlockError t e :=
      (Poll.ready.inj (Option.some.inj hout)).symm
    unfold removeTorrent at hne
    split at hne <;> cases hne
  | @refused msg id m e' dm1 hmsg h =>
    have hrefusal : msg.refusal e' = .readBlockError t e := (Poll.ready.inj (Option.some.inj hout)).symm
    cases msg with
    | readBlock id' m' =>
      cases hmsg
      cases hrefusal
      have hframe := h.frame
      refine ⟨m, ?_, ?_⟩
      · generalize hr : Poll.ready (Except.error e) = r at h
        cases h with
        | unknown hnone => exact .unknown hq hnone
        | outside hF hfiles => exact .refused hq hF hfiles
        | failed ht htake => exact .unopened hq ⟨ht.torrent, ht.nonempty⟩ htake
        | held => cases hr
        | waiting => cases hr
      · have hhead : (DiskMessageIn.readBlock t m).readOf t = some m := if_pos rfl
        rw [reading, reading, hq, List.filterMap_cons_some hhead, hframe.queuedEvents, hframe.activeBlocks]
        exact List.Perm.refl _
    | _ => cases hrefusal
  | _ => cases hout

/-- a move that answers a read error comes to a read that fails -/
theorem readFails_of_move {op : DiskOp} (h : dm.move fs sha1 op = some (some (.readBlockError t e), dm')) :
    ∃ m, ReadFails fs dm op t m ∧ (dm.reading t).Perm (m :: dm'.reading t) := by
  cases op with
  | pollJob i => exact readFails_of_job h
  | pollMessage order =>
    generalize hout : some (DiskMessageOut.readBlockError t e) = out at h
    generalize hop : DiskOp.pollMessage order = op at h
    cases move_cases h with
    | call hmsg =>
      rw [← hop] at hmsg
      cases hmsg
    | job => cases hop
    | idle => cases hout
    | @message _ msg queue r _ hq hh =>
      cases hop
      have hr : r = some (.ready (.readBlockError t e)) := by
        cases r with
        | none => cases hout
        | some p =>
          cases p with
          | pending => cases hout
          | ready a =>
            cases hout
            rfl
      rw [hr] at hh
      exact readFails_of_message hq hh
  | _ => cases h

/-- **A poll that answers a read error comes to a read that fails**, the one whose block is not being read any more. -/
theorem readFails_of_poll {order : Arrangement FileEntry} {rounds : Nat} (hcalled : dm.Called)
    (hpoll : dm.poll fs sha1 order rounds = .ready (.readBlockError t e) dm') :
    ∃ visit ∈ dm.pollMoves fs sha1 order rounds, ∃ m, ReadFails fs visit.1 visit.2 t m ∧
      (dm.reading t).Perm (m :: dm'.reading t) := by
  obtain ⟨ops, dm1, op, hops, hmem, hmove⟩ := poll_answers hpoll
  obtain ⟨m, hfails, hread⟩ := readFails_of_move hmove
  exact ⟨(dm1, op), hmem, m, hfails, ((silent_reading hcalled hops).2 t).trans hread⟩

end

end DiskManager

end Btt
