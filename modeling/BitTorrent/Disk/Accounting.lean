import BitTorrent.Disk.Moves

/-!
# No request is lost or answered twice

A request travels from the queue, possibly back to its end any number of times, to the active jobs and from
there to its answer.  Over the calls, the answers and the manager of a run, `Accounted` says that these three
places hold every request exactly once and as it was given (`accounted_run`), so that per torrent and kind the
calls are the answers, the queued requests and the active jobs together (`requests_conserved`).
-/

namespace Btt
open Run

/-! ## kinds of requests, jobs and answers -/

def DiskMessageIn.reads (t : TorrentId) : DiskMessageIn → Bool
  | .readBlock id _ => id = t
  | _ => false

def DiskMessageIn.writes (t : TorrentId) : DiskMessageIn → Bool
  | .writeBlock id _ => id = t
  | _ => false

def BlockJob.reads {File : Type} (t : TorrentId) : BlockJob File → Bool
  | .read r => r.torrent = t
  | .write _ => false

def BlockJob.writes {File : Type} (t : TorrentId) : BlockJob File → Bool
  | .read _ => false
  | .write r => r.torrent = t

/-- `BlockRead` and `ReadBlockError` -/
def DiskMessageOut.reads (t : TorrentId) : DiskMessageOut → Bool
  | .blockRead id _ => id = t
  | .readBlockError id _ => id = t
  | _ => false

/-- `PieceWritten` and `WriteBlockError` -/
def DiskMessageOut.writes (t : TorrentId) : DiskMessageOut → Bool
  | .pieceWritten id _ => id = t
  | .writeBlockError id _ => id = t
  | _ => false

namespace DiskManager
variable {File World Err : Type}

/-- a job is of the kind of its request -/
theorem Serves.kind {msg : DiskMessageIn} {job : BlockJob File} (h : Serves msg job) (t : TorrentId) :
    job.reads t = msg.reads t ∧ job.writes t = msg.writes t := by
  cases msg with
  | readBlock id m =>
    cases job with
    | read r => exact ⟨by rw [BlockJob.reads, DiskMessageIn.reads, h.1], rfl⟩
    | write r => cases h
  | writeBlock id block =>
    cases job with
    | read r => cases h
    | write r => exact ⟨rfl, by rw [BlockJob.writes, DiskMessageIn.writes, h.1]⟩
  | _ => cases h

theorem AnswersTo.kind {msg : DiskMessageIn} {out : DiskMessageOut} (h : AnswersTo msg out) (t : TorrentId) :
    out.reads t = msg.reads t ∧ out.writes t = msg.writes t := by
  cases msg with
  | readBlock id m =>
    cases out with
    | blockRead id' block => exact ⟨by rw [DiskMessageOut.reads, DiskMessageIn.reads, h.1], rfl⟩
    | readBlockError id' e => exact ⟨by rw [DiskMessageOut.reads, DiskMessageIn.reads, show id' = id from h], rfl⟩
    | _ => cases h
  | writeBlock id b =>
    cases out with
    | pieceWritten id' block => exact ⟨rfl, by rw [DiskMessageOut.writes, DiskMessageIn.writes, h.1]⟩
    | writeBlockError id' e => exact ⟨rfl, by rw [DiskMessageOut.writes, DiskMessageIn.writes, show id' = id from h]⟩
    | _ => cases h
  | addTorrent id info =>
    cases out with
    | torrentAdded id' => exact ⟨rfl, rfl⟩
    | torrentError id' e => exact ⟨rfl, rfl⟩
    | _ => cases h
  | _ => cases out <;> cases h

/-! ## the invariant -/

/-- the calls, the answers and the manager after them -/
structure Accounted (ins : List DiskMessageIn) (outs : List DiskMessageOut) (dm : DiskManager File World) :
    Prop where
  filed : dm.Filed
  /-- nothing but a call puts a message into the queue -/
  called : ∀ msg ∈ ins, ∃ op : DiskOp, op.message = some msg
  ledger : Ledger Serves AnswersTo ins dm.queuedEvents dm.activeBlocks outs

theorem accounted_withCapacity (world : World) (capacity : Nat) :
    Accounted [] [] (withCapacity world capacity : DiskManager File World) := by
  refine ⟨filed_withCapacity world capacity, ?_, Ledger.nil⟩
  intro msg hmsg
  cases hmsg

section
variable {fs : FileSystem File World Err} {sha1 : List UInt8 → ShaHash} {order : Arrangement FileEntry}
  {dm dm' : DiskManager File World} {ins : List DiskMessageIn} {outs : List DiskMessageOut}

/-- the message at the head is answered, becomes a job, or goes to the end as it is -/
theorem ledger_handled {msg : DiskMessageIn} (hfiled : dm.Filed) (hcall : ∃ op : DiskOp, op.message = some msg)
    (hl : Ledger Serves AnswersTo ins (msg :: dm.queuedEvents) dm.activeBlocks outs)
    {r : Option (Poll DiskMessageOut)} (h : Handled fs sha1 order dm msg r dm') :
    Ledger Serves AnswersTo ins dm'.queuedEvents dm'.activeBlocks (outs ++ (r.bind Poll.answer).toList) := by
  obtain ⟨op, hop⟩ := hcall
  cases h with
  | existing h => exact hl.refuse rfl
  | added h hnew => exact hl.refuse rfl
  | removed => cases op <;> cases hop
  | synced => cases op <;> cases hop
  | moved => cases op <;> cases hop
  | bad h => exact hl.refuse rfl
  | refused hmsg h =>
    rw [h.frame.queuedEvents, h.frame.activeBlocks]
    exact hl.refuse (answersTo_refusal hmsg _)
  | @started _ id _ files job dm1 hmsg hgood h hjob =>
    obtain ⟨hne, hown⟩ := h.torrent_of_mem fun F hF => (hfiled id F hF).1
    rw [h.frame.queuedEvents, h.frame.activeBlocks]
    show Ledger _ _ _ _ _ (outs ++ [])
    rw [List.append_nil]
    exact hl.start (serves_jobFor hmsg hne hown hjob)
  | @requeued _ _ _ dm1 hmsg hgood h =>
    show Ledger _ _ _ (dm1.queuedEvents ++ [msg]) dm1.activeBlocks (outs ++ [])
    rw [h.frame.queuedEvents, h.frame.activeBlocks, List.append_nil]
    exact hl.requeue

theorem ledger_jobPolled (hl : Ledger Serves AnswersTo ins dm.queuedEvents dm.activeBlocks outs)
    {out : Option DiskMessageOut} (h : JobPolled fs dm out dm') :
    Ledger Serves AnswersTo ins dm'.queuedEvents dm'.activeBlocks (outs ++ out.toList) := by
  cases h with
  | finished hjobs h =>
    have hcont := BlockJob.continues_poll h
    exact hl.finish hjobs fun m hm => (hm.continues hcont).answersTo
  | pending hjobs h =>
    have hcont := BlockJob.continues_poll h
    show Ledger _ _ _ _ _ (outs ++ [])
    rw [List.append_nil]
    exact hl.progress hjobs fun m hm => hm.continues hcont

theorem Accounted.moved (ha : Accounted ins outs dm) {op : DiskOp} {out : Option DiskMessageOut}
    (h : Moved fs sha1 dm op out dm') : Accounted (ins ++ op.message.toList) (outs ++ out.toList) dm' := by
  have hcalled : ∀ msg ∈ ins ++ op.message.toList, ∃ op : DiskOp, op.message = some msg := by
    intro msg hmsg
    rcases List.mem_append.mp hmsg with h1 | h1
    · exact ha.called msg h1
    · exact ⟨op, Option.mem_toList.mp h1⟩
  refine ⟨ha.filed.moved h, hcalled, ?_⟩
  cases h with
  | @call _ msg hop =>
    rw [hop]
    show Ledger _ _ _ _ _ (outs ++ [])
    rw [List.append_nil]
    exact ha.ledger.call msg
  | job h =>
    show Ledger _ _ (ins ++ []) _ _ _
    rw [List.append_nil]
    exact ledger_jobPolled ha.ledger h
  | idle h =>
    show Ledger _ _ (ins ++ []) _ _ (outs ++ [])
    rw [List.append_nil, List.append_nil]
    exact ha.ledger
  | @message order msg queue r _ hq h =>
    have hl := ha.ledger
    rw [hq] at hl
    have hcall : ∃ op : DiskOp, op.message = some msg := ha.called msg (hl.mem_calls List.mem_cons_self)
    have hfiled : { dm with queuedEvents := queue }.Filed := ha.filed
    show Ledger _ _ (ins ++ []) _ _ _
    rw [List.append_nil]
    exact ledger_handled hfiled hcall hl h

/-- no message removes a torrent, so every torrent stays -/
theorem Accounted.lookup_kept (ha : Accounted ins outs dm) {op : DiskOp} {out : Option DiskMessageOut}
    (h : Moved fs sha1 dm op out dm') {t : TorrentId} {F : TorrentFile} (hF : dm.torrents.lookup t = some F) :
    dm'.torrents.lookup t = some F := by
  cases h with
  | call h => exact hF
  | job h => rwa [h.torrents]
  | idle h => exact hF
  | @message order msg queue r _ hq h =>
    refine h.lookup_kept ?_ hF
    rintro rfl
    obtain ⟨op, hop⟩ := ha.called _ (ha.ledger.mem_calls (by rw [hq]; exact List.mem_cons_self))
    cases op <;> cases hop

/-- **Every run is accounted for.** -/
theorem accounted_run {world : World} {capacity : Nat} {ops : List DiskOp}
    (h : exec (next fs sha1) (some (withCapacity world capacity)) ops = some dm) :
    Accounted (calls ops) (answers fs sha1 (some (withCapacity world capacity)) ops) dm :=
  run_inv (fun _ _ _ _ _ _ ha hm => ha.moved hm) (accounted_withCapacity world capacity) h

end

/-- **Requests are conserved.**  Per torrent, the reads asked for are those answered, queued and active, and so
are the writes; and a queued request is one of the calls as it was made, an active job serves one. -/
theorem requests_conserved (fs : FileSystem File World Err) (sha1 : List UInt8 → ShaHash) (world : World)
    (capacity : Nat) (ops : List DiskOp) (dm : DiskManager File World)
    (h : exec (next fs sha1) (some (withCapacity world capacity)) ops = some dm) :
    (∀ t, (calls ops).countP (DiskMessageIn.reads t)
        = (answers fs sha1 (some (withCapacity world capacity)) ops).countP (DiskMessageOut.reads t)
          + dm.queuedEvents.countP (DiskMessageIn.reads t) + dm.activeBlocks.countP (BlockJob.reads t)) ∧
    (∀ t, (calls ops).countP (DiskMessageIn.writes t)
        = (answers fs sha1 (some (withCapacity world capacity)) ops).countP (DiskMessageOut.writes t)
          + dm.queuedEvents.countP (DiskMessageIn.writes t) + dm.activeBlocks.countP (BlockJob.writes t)) ∧
    ∃ started answered,
      (calls ops).Perm (dm.queuedEvents ++ (started ++ answered)) ∧
      List.Forall₂ (fun job msg => Serves msg job) dm.activeBlocks started ∧
      List.Forall₂ (fun out msg => AnswersTo msg out)
        (answers fs sha1 (some (withCapacity world capacity)) ops) answered := by
  have ha := (accounted_run h).ledger
  refine ⟨?_, ?_, ?_⟩
  · intro t
    have hcount := ha.countP_eq (fun m j hmj => (hmj.kind t).1) (fun m a hma => (hma.kind t).1)
    rw [hcount]
    omega
  · intro t
    have hcount := ha.countP_eq (fun m j hmj => (hmj.kind t).2) (fun m a hma => (hma.kind t).2)
    rw [hcount]
    omega
  · obtain ⟨started, answered, hall, hjobs, hgiven⟩ := ha
    exact ⟨started, answered, hall, hjobs, hgiven⟩

/-- a read is put back once, because its file is not open yet, and then started -/
def oneRead : List DiskOp :=
  [.addTorrent ⟨0⟩ oneByte, .readBlock ⟨0⟩ ⟨0, 0, 1⟩, .pollMessage .same, .pollMessage .same, .pollMessage .same]

theorem requests_conserved_one_read :
    ∃ dm, exec (next scriptedDisk firstByte) (some (withCapacity [false] 100)) oneRead = some dm ∧
      dm.queuedEvents = [] ∧ dm.activeBlocks.length = 1 ∧
      (calls oneRead).countP (DiskMessageIn.reads ⟨0⟩)
        = (answers scriptedDisk firstByte (some (withCapacity [false] 100)) oneRead).countP (DiskMessageOut.reads ⟨0⟩)
          + dm.queuedEvents.countP (DiskMessageIn.reads ⟨0⟩) + dm.activeBlocks.countP (BlockJob.reads ⟨0⟩) :=
  ⟨_, rfl, rfl, rfl, (requests_conserved scriptedDisk firstByte [false] 100 oneRead _ rfl).1 ⟨0⟩⟩

end DiskManager

end Btt
