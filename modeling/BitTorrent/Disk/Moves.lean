import BitTorrent.Disk.Manager
import BitTorrent.Lib.Ledger
import BitTorrent.Lib.Machine

/-!
# The moves of the disk manager

`DiskManager::poll` cut into its single moves, and what one move can do.

* `DiskOp`, `next`         the calls from outside, and the two moves of `poll`: poll an active job, take
                           the message at the head of the queue;
* `answers`                what a run answers;
* `poll_run`               a call of `poll` is a run of moves that answers what the poll returns;
* `pollJob_cases`, `pollMessage_cases`   everything a move of `poll` can do.
-/

namespace Btt
open Run

/-! ## requests -/

/-- the torrent and the block a message asks to read or write -/
def DiskMessageIn.request : DiskMessageIn → Option (TorrentId × BlockMetadata)
  | .readBlock id metadata => some (id, metadata)
  | .writeBlock id block => some (id, block.metadata)
  | _ => none

/-- the answer to a request that failed -/
def DiskMessageIn.refusal : DiskMessageIn → TorrentError → DiskMessageOut
  | .readBlock id _, e => .readBlockError id e
  | .writeBlock id _, e => .writeBlockError id e
  | .addTorrent id _, e => .torrentError id e
  | .removeTorrent id, e => .torrentError id e
  | .moveTorrent id _, e => .torrentError id e
  | .syncTorrent id, e => .torrentError id e

namespace DiskManager
variable {File World Err : Type}

/-- the job for a request, once its files are there; `none` is a panic -/
def jobFor (files : List (FileWindow × BlockFile File)) : DiskMessageIn → Option (BlockJob File)
  | .readBlock id metadata =>
    match files with
    | [(window, file)] => some (.read (.single metadata (.new file window)))
    | files => some (.read (.overlap id metadata (files.map fun (window, file) => .new file window)))
  | .writeBlock id block =>
    match files with
    | [(window, file)] => some (.write (.single block.metadata (.new file block.blockData window)))
    | files => (fragments block.blockData 0 files).map fun blocks => .write (.overlap id block.metadata blocks)
  | _ => none

/-- what a finished job answers -/
def answerOf (job : BlockJob File) : DiskMessageOut :=
  match job.finalize with
  | .read torrent _ (.ok block) => .blockRead torrent block
  | .read torrent _ (.error metadata) => .readBlockError torrent (.badBlock metadata)
  | .write torrent _ (.ok block) => .pieceWritten torrent block
  | .write torrent _ (.error metadata) => .writeBlockError torrent (.badPiece metadata.pieceIndex)

/-- the files of a finished job are free again -/
def freed (job : BlockJob File) : List (TorrentFileId × FileState File) :=
  job.files.map fun f => (f.id, .ready f.inner)

theorem finalizeBlock_eq (dm : DiskManager File World) (job : BlockJob File) :
    dm.finalizeBlock job = (answerOf job, dm.cacheAll (freed job)) := by
  unfold finalizeBlock answerOf freed
  cases job with
  | read r => rcases r.finalize_eq with ⟨data, h⟩ | h <;> rw [BlockJob.finalize, h] <;> rfl
  | write r => rcases r.finalize_eq with ⟨data, h⟩ | h <;> rw [BlockJob.finalize, h] <;> rfl

/-- a finished read is answered for its torrent and block -/
theorem answerOf_read (r : BlockRead File) :
    (∃ data, answerOf (.read r) = .blockRead r.torrent ⟨r.metadata, data⟩) ∨
      answerOf (.read r) = .readBlockError r.torrent (.badBlock r.metadata) := by
  unfold answerOf
  rcases r.finalize_eq with ⟨data, h⟩ | h <;> rw [BlockJob.finalize, h]
  · exact Or.inl ⟨data, rfl⟩
  · exact Or.inr rfl

theorem answerOf_write (r : BlockWrite File) :
    (∃ data, answerOf (.write r) = .pieceWritten r.torrent ⟨r.metadata, data⟩) ∨
      answerOf (.write r) = .writeBlockError r.torrent (.badPiece r.metadata.pieceIndex) := by
  unfold answerOf
  rcases r.finalize_eq with ⟨data, h⟩ | h <;> rw [BlockJob.finalize, h]
  · exact Or.inl ⟨data, rfl⟩
  · exact Or.inr rfl

/-! ## files -/

/-- the two managers differ in their cache and in the file system only -/
structure Frame (dm dm' : DiskManager File World) : Prop where
  queuedEvents : dm'.queuedEvents = dm.queuedEvents
  activeBlocks : dm'.activeBlocks = dm.activeBlocks
  torrents : dm'.torrents = dm.torrents

section
variable {fs : FileSystem File World Err} {sha1 : List UInt8 → ShaHash} {order : Arrangement FileEntry}
  {dm dm' : DiskManager File World}

/-- taking files changes the cache only; what is taken was asked for, and if all is ready it is all that was
asked for -/
theorem takeFiles_spec {files : List (FileEntry × FileWindow)} {queued q : List (TorrentFileId × File × FileWindow)}
    {allReady ready : Bool} (h : takeFiles fs files queued allReady dm = (.ok (q, ready), dm')) :
    ∃ taken, q = queued ++ taken ∧ (taken.map Prod.fst).Sublist (files.map fun x => x.1.id) ∧
      (ready = true → allReady = true ∧
        taken.map (fun x => (x.1, x.2.2)) = files.map fun x => (x.1.id, x.2)) := by
  induction files generalizing queued allReady dm with
  | nil =>
    cases h
    exact ⟨[], (List.append_nil _).symm, List.Sublist.refl _, fun hr => ⟨hr, rfl⟩⟩
  | cons file files ih =>
    obtain ⟨file, window⟩ := file
    -- one more file is taken, and the rest follows
    have htake : ∀ (f : File) (ready' : Bool) (dm1 : DiskManager File World), (ready' = true → allReady = true) →
        takeFiles fs files (queued ++ [(file.id, f, window)]) ready' dm1 = (.ok (q, ready), dm') →
        ∃ taken, q = queued ++ taken ∧
          (taken.map Prod.fst).Sublist (((file, window) :: files).map fun x => x.1.id) ∧
          (ready = true → allReady = true ∧
            taken.map (fun x => (x.1, x.2.2)) = ((file, window) :: files).map fun x => (x.1.id, x.2)) := by
      intro f ready' dm1 hready ht
      obtain ⟨taken, rfl, hsub, hall⟩ := ih ht
      refine ⟨(file.id, f, window) :: taken, ?_, hsub.cons_cons _, ?_⟩
      · rw [List.append_assoc, List.singleton_append]
      · intro hr
        obtain ⟨h1, h2⟩ := hall hr
        exact ⟨hready h1, congrArg _ h2⟩
    unfold takeFiles at h
    split at h
    · exact htake _ _ _ id h
    · refine htake _ _ _ ?_ h
      intro hr
      exact (Bool.and_eq_true_iff.mp hr).1
    · obtain ⟨taken, rfl, hsub, hall⟩ := ih h
      refine ⟨taken, rfl, hsub.cons _, ?_⟩
      intro hr
      cases (hall hr).1
    · split at h
      · exact htake _ _ _ id h
      · cases h
      · cases h
        exact ⟨[], (List.append_nil _).symm, List.nil_sublist _, nofun⟩

theorem takeFiles_frame {files : List (FileEntry × FileWindow)}
    {queued : List (TorrentFileId × File × FileWindow)} {allReady : Bool}
    {r : Except TorrentError (List (TorrentFileId × File × FileWindow) × Bool)}
    (h : takeFiles fs files queued allReady dm = (r, dm')) : Frame dm dm' := by
  induction files generalizing queued allReady dm with
  | nil =>
    cases h
    exact ⟨rfl, rfl, rfl⟩
  | cons file files ih =>
    unfold takeFiles at h
    split at h
    · have hf := ih h
      exact ⟨hf.queuedEvents, hf.activeBlocks, hf.torrents⟩
    · have hf := ih h
      exact ⟨hf.queuedEvents, hf.activeBlocks, hf.torrents⟩
    · have hf := ih h
      exact ⟨hf.queuedEvents, hf.activeBlocks, hf.torrents⟩
    · split at h
      · have hf := ih h
        exact ⟨hf.queuedEvents, hf.activeBlocks, hf.torrents⟩
      · cases h
        exact ⟨rfl, rfl, rfl⟩
      · cases h
        exact ⟨rfl, rfl, rfl⟩

theorem takeFiles_error {files : List (FileEntry × FileWindow)}
    {queued : List (TorrentFileId × File × FileWindow)} {allReady : Bool} {e : TorrentError}
    (h : takeFiles fs files queued allReady dm = (.error e, dm')) : e = .io "Failed to open file." := by
  induction files generalizing queued allReady dm with
  | nil => cases h
  | cons file files ih =>
    unfold takeFiles at h
    split at h
    · exact ih h
    · exact ih h
    · exact ih h
    · split at h
      · exact ih h
      · cases h
        rfl
      · cases h

/-- the files of a block were looked for: the torrent is there, the block has files -/
structure Touches (dm : DiskManager File World) (order : Arrangement FileEntry) (id : TorrentId)
    (metadata : BlockMetadata) (files : List (FileEntry × FileWindow)) : Prop where
  torrent : ∃ torrent, dm.torrents.lookup id = some torrent ∧ torrent.filesForBlock order metadata = some (.ok files)
  nonempty : files ≠ []

/-- the cache entries of the files a job is given, and of those that wait -/
def heldFiles (queued : List (TorrentFileId × File × FileWindow)) : List (TorrentFileId × FileState File) :=
  queued.map fun (id, _, window) => (id, .busy window)

def waitingFiles (queued : List (TorrentFileId × File × FileWindow)) : List (TorrentFileId × FileState File) :=
  queued.map fun (id, f, window) => (id, .queued f window)

def jobFiles (queued : List (TorrentFileId × File × FileWindow)) : List (FileWindow × BlockFile File) :=
  queued.map fun (id, f, window) => (window, ⟨id, f⟩)

/-- how the search for files ends -/
inductive PollFiles (fs : FileSystem File World Err) (order : Arrangement FileEntry) (dm : DiskManager File World)
    (id : TorrentId) (metadata : BlockMetadata) :
    Poll (Except TorrentError (List (FileWindow × BlockFile File))) → DiskManager File World → Prop
  | unknown (h : dm.torrents.lookup id = none) : PollFiles fs order dm id metadata (.ready (.error (.torrentNotFound id))) dm
  | outside {torrent e} (h : dm.torrents.lookup id = some torrent)
      (hfiles : torrent.filesForBlock order metadata = some (.error e)) :
      PollFiles fs order dm id metadata (.ready (.error e)) dm
  | failed {files e dm1} (h : dm.Touches order id metadata files)
      (htake : takeFiles fs files [] true dm = (.error e, dm1)) :
      PollFiles fs order dm id metadata (.ready (.error e)) dm1
  | held {files queued dm1} (h : dm.Touches order id metadata files)
      (htake : takeFiles fs files [] true dm = (.ok (queued, true), dm1)) :
      PollFiles fs order dm id metadata (.ready (.ok (jobFiles queued))) (dm1.cacheAll (heldFiles queued))
  | waiting {files queued dm1} (h : dm.Touches order id metadata files)
      (htake : takeFiles fs files [] true dm = (.ok (queued, false), dm1)) :
      PollFiles fs order dm id metadata .pending (dm1.cacheAll (waitingFiles queued))

theorem pollFiles_cases {id : TorrentId} {metadata : BlockMetadata}
    {p : Poll (Except TorrentError (List (FileWindow × BlockFile File)))}
    (h : pollFiles fs order dm id metadata = some (p, dm')) : PollFiles fs order dm id metadata p dm' := by
  unfold pollFiles at h
  split at h
  · rename_i hid
    cases h
    exact .unknown hid
  · rename_i torrent hid
    split at h
    · cases h
    · rename_i e hfiles
      cases h
      exact .outside hid hfiles
    · rename_i files hfiles
      split at h
      · cases h
      · rename_i hne
        have ht : dm.Touches order id metadata files :=
          ⟨⟨torrent, hid, hfiles⟩, fun hnil => hne (List.isEmpty_iff.mpr hnil)⟩
        split at h <;> rename_i htake <;> cases h
        · exact .failed ht htake
        · exact .held ht htake
        · exact .waiting ht htake

theorem PollFiles.frame {id : TorrentId} {metadata : BlockMetadata}
    {p : Poll (Except TorrentError (List (FileWindow × BlockFile File)))}
    (h : PollFiles fs order dm id metadata p dm') : Frame dm dm' := by
  cases h with
  | unknown => exact ⟨rfl, rfl, rfl⟩
  | outside => exact ⟨rfl, rfl, rfl⟩
  | failed _ htake => exact takeFiles_frame htake
  | held _ htake =>
    have hf := takeFiles_frame htake
    exact ⟨hf.queuedEvents, hf.activeBlocks, hf.torrents⟩
  | waiting _ htake =>
    have hf := takeFiles_frame htake
    exact ⟨hf.queuedEvents, hf.activeBlocks, hf.torrents⟩

/-! ## messages -/

/-- how a message is handled; a request is refused, its job is started, or it is put back at the end of the
queue -/
inductive Handled (fs : FileSystem File World Err) (sha1 : List UInt8 → ShaHash) (order : Arrangement FileEntry)
    (dm : DiskManager File World) :
    DiskMessageIn → Option (Poll DiskMessageOut) → DiskManager File World → Prop
  | existing {id info} (h : id ∈ dm.torrents) :
      Handled fs sha1 order dm (.addTorrent id info) (some (.ready (.torrentError id (.existingTorrent info)))) dm
  | added {id info file} (h : id ∉ dm.torrents) (hnew : TorrentFile.new id info = some file) :
      Handled fs sha1 order dm (.addTorrent id info) (some (.ready (.torrentAdded id)))
        { dm with torrents := dm.torrents.insert id file }
  | removed {id} :
      Handled fs sha1 order dm (.removeTorrent id) (some (.ready (dm.removeTorrent id).1)) (dm.removeTorrent id).2
  | synced {id} : Handled fs sha1 order dm (.syncTorrent id) none dm
  | moved {id dir} : Handled fs sha1 order dm (.moveTorrent id dir) none dm
  | bad {id block} (h : dm.isGoodPiece sha1 id block = false) :
      Handled fs sha1 order dm (.writeBlock id block)
        (some (.ready (.writeBlockError id (.badPiece block.metadata.pieceIndex)))) dm
  | refused {msg id metadata e dm1} (hmsg : msg.request = some (id, metadata))
      (h : PollFiles fs order dm id metadata (.ready (.error e)) dm1) :
      Handled fs sha1 order dm msg (some (.ready (msg.refusal e))) dm1
  | started {msg id metadata files job dm1} (hmsg : msg.request = some (id, metadata))
      (hgood : ∀ block, msg = .writeBlock id block → dm.isGoodPiece sha1 id block = true)
      (h : PollFiles fs order dm id metadata (.ready (.ok files)) dm1) (hjob : jobFor files msg = some job) :
      Handled fs sha1 order dm msg none { dm1 with activeBlocks := dm1.activeBlocks ++ [job] }
  | requeued {msg id metadata dm1} (hmsg : msg.request = some (id, metadata))
      (hgood : ∀ block, msg = .writeBlock id block → dm.isGoodPiece sha1 id block = true)
      (h : PollFiles fs order dm id metadata .pending dm1) :
      Handled fs sha1 order dm msg (some .pending) (dm1.push msg)

/-- what becomes of a request, by how the search for its files ended; `none` is a panic -/
def settle (msg : DiskMessageIn) : Poll (Except TorrentError (List (FileWindow × BlockFile File))) →
    DiskManager File World → Option (Option (Poll DiskMessageOut) × DiskManager File World)
  | .ready (.ok files), dm =>
    (jobFor files msg).map fun job => (none, { dm with activeBlocks := dm.activeBlocks ++ [job] })
  | .ready (.error e), dm => some (some (.ready (msg.refusal e)), dm)
  | .pending, dm => some (some .pending, dm.push msg)

/-- a request is handled by looking for its files -/
theorem handle_request {msg : DiskMessageIn} {id : TorrentId} {metadata : BlockMetadata}
    (hmsg : msg.request = some (id, metadata))
    (hgood : ∀ block, msg = .writeBlock id block → dm.isGoodPiece sha1 id block = true) :
    handle fs sha1 order dm msg = (pollFiles fs order dm id metadata).bind fun r => settle msg r.1 r.2 := by
  cases msg with
  | readBlock id' m =>
    cases hmsg
    show (pollCreateBlockRead fs order dm id metadata).map _ = _
    unfold pollCreateBlockRead
    split <;> rename_i hf <;> rw [hf] <;> try rfl
    rename_i hmany
    simp only [Option.bind_some, settle, jobFor]
    rfl
  | writeBlock id' block =>
    cases hmsg
    show (pollCreateBlockWrite fs sha1 order dm id block).map _ = _
    unfold pollCreateBlockWrite
    rw [if_pos (hgood block rfl)]
    split <;> rename_i hf <;> rw [hf] <;> try rfl
    rename_i files dm1 hmany
    simp only [Option.bind_some, settle, jobFor]
    cases fragments block.blockData 0 files <;> rfl
  | _ => cases hmsg

theorem handle_cases {msg : DiskMessageIn} {r : Option (Poll DiskMessageOut)}
    (h : handle fs sha1 order dm msg = some (r, dm')) : Handled fs sha1 order dm msg r dm' := by
  -- a request, once a write was found good
  have hrequest : ∀ {id metadata}, msg.request = some (id, metadata) →
      (∀ block, msg = .writeBlock id block → dm.isGoodPiece sha1 id block = true) →
      Handled fs sha1 order dm msg r dm' := by
    intro id metadata hmsg hgood
    rw [handle_request hmsg hgood] at h
    obtain ⟨⟨p, dm1⟩, hp, h⟩ := Option.bind_eq_some_iff.mp h
    have hfiles := pollFiles_cases hp
    match p with
    | .ready (.ok files) =>
      obtain ⟨job, hjob, h⟩ := Option.map_eq_some_iff.mp h
      cases h
      exact .started hmsg hgood hfiles hjob
    | .ready (.error e) =>
      cases h
      exact .refused hmsg hfiles
    | .pending =>
      cases h
      exact .requeued hmsg hgood hfiles
  cases msg with
  | addTorrent id info =>
    simp only [handle] at h
    split at h
    · rename_i hid
      cases h
      exact .existing hid
    · rename_i hid
      obtain ⟨file, hnew, h⟩ := Option.map_eq_some_iff.mp h
      cases h
      exact .added hid hnew
  | removeTorrent id =>
    cases h
    exact .removed
  | syncTorrent id =>
    cases h
    exact .synced
  | moveTorrent id dir =>
    cases h
    exact .moved
  | readBlock id m => exact hrequest rfl nofun
  | writeBlock id block =>
    by_cases hgood : dm.isGoodPiece sha1 id block = true
    · refine hrequest rfl ?_
      rintro block' ⟨⟩
      exact hgood
    · simp only [handle, pollCreateBlockWrite, if_neg hgood, Option.map_some] at h
      cases h
      exact .bad (Bool.eq_false_iff.mpr hgood)

/-! ## jobs and the requests they serve -/

/-- the files of every torrent bear its id, no two of them the same one -/
def Filed (dm : DiskManager File World) : Prop :=
  ∀ t F, dm.torrents.lookup t = some F → (∀ e ∈ F.files, e.id.torrent = t) ∧ (F.files.map FileEntry.id).Nodup

/-- the data a write hands to its files is the block, or parts of it -/
def Carries (data : List UInt8) : BlockWrite File → Prop
  | .single _ b => b.block = data
  | .overlap _ _ bs => bs ≠ [] ∧ ∀ b ∈ bs, b.block <:+: data

/-- the job does what the request asks for -/
def Serves : DiskMessageIn → BlockJob File → Prop
  | .readBlock id metadata, .read r => r.torrent = id ∧ r.metadata = metadata
  | .writeBlock id block, .write r => r.torrent = id ∧ r.metadata = block.metadata ∧ Carries block.blockData r
  | _, _ => False

/-- the answer belongs to the message -/
def AnswersTo : DiskMessageIn → DiskMessageOut → Prop
  | .addTorrent id _, .torrentAdded id' => id' = id
  | .addTorrent id _, .torrentError id' _ => id' = id
  | .readBlock id metadata, .blockRead id' block => id' = id ∧ block.metadata = metadata
  | .readBlock id _, .readBlockError id' _ => id' = id
  | .writeBlock id b, .pieceWritten id' block => id' = id ∧ block.metadata = b.metadata
  | .writeBlock id _, .writeBlockError id' _ => id' = id
  | _, _ => False

theorem fragments_spec {data : List UInt8} {offset : Nat} {files : List (FileWindow × BlockFile File)}
    {bs : List (BlockFileWrite File)} (h : fragments data offset files = some bs) :
    bs.map (fun b => (b.fileWindow, b.file)) = files ∧
      ∀ b ∈ bs, b.block <:+: data ∧ b.written = 0 ∧ b.state = .seek := by
  induction files generalizing offset bs with
  | nil =>
    cases h
    exact ⟨rfl, nofun⟩
  | cons file files ih =>
    unfold fragments at h
    split at h
    · obtain ⟨rest, hrest, rfl⟩ := Option.map_eq_some_iff.mp h
      obtain ⟨h1, h2⟩ := ih hrest
      refine ⟨congrArg (file :: ·) h1, ?_⟩
      intro b hb
      rcases List.mem_cons.mp hb with rfl | hb
      · exact ⟨((List.drop_suffix _ _).isInfix).trans (List.take_prefix _ _).isInfix, rfl, rfl⟩
      · exact h2 b hb
    · cases h

/-- the files found for a request are its torrent's -/
theorem PollFiles.torrent_of_mem {id : TorrentId} {metadata : BlockMetadata}
    {files : List (FileWindow × BlockFile File)}
    (h : PollFiles fs order dm id metadata (.ready (.ok files)) dm')
    (hown : ∀ F, dm.torrents.lookup id = some F → ∀ e ∈ F.files, e.id.torrent = id) :
    files ≠ [] ∧ ∀ x ∈ files, x.2.id.torrent = id := by
  cases h with
  | @held found queued dm1 ht htake =>
    obtain ⟨torrent, hid, hfiles⟩ := ht.torrent
    obtain ⟨taken, htaken, hsub, hall⟩ := takeFiles_spec htake
    rw [List.nil_append] at htaken
    subst htaken
    constructor
    · intro hnil
      have hlen := congrArg List.length (hall rfl).2
      rw [List.length_map, List.length_map, List.map_eq_nil_iff.mp hnil] at hlen
      exact ht.nonempty (List.eq_nil_of_length_eq_zero hlen.symm)
    · intro x hx
      obtain ⟨y, hy, rfl⟩ := List.mem_map.mp hx
      obtain ⟨z, hz, heq⟩ := List.mem_map.mp (hsub.subset (List.mem_map_of_mem hy))
      show y.1.torrent = id
      rw [← heq]
      exact hown torrent hid z.1 (TorrentFile.mem_filesForBlock hfiles hz)

theorem serves_jobFor {msg : DiskMessageIn} {id : TorrentId} {metadata : BlockMetadata}
    {files : List (FileWindow × BlockFile File)} {job : BlockJob File} (hmsg : msg.request = some (id, metadata))
    (hne : files ≠ []) (hfiles : ∀ x ∈ files, x.2.id.torrent = id) (h : jobFor files msg = some job) :
    Serves msg job := by
  cases msg with
  | readBlock id' m =>
    cases hmsg
    simp only [jobFor] at h
    split at h
    · cases h
      exact ⟨hfiles _ List.mem_cons_self, rfl⟩
    · cases h
      exact ⟨rfl, rfl⟩
  | writeBlock id' block =>
    cases hmsg
    simp only [jobFor] at h
    split at h
    · cases h
      exact ⟨hfiles _ List.mem_cons_self, rfl, rfl⟩
    · obtain ⟨bs, hbs, h⟩ := Option.map_eq_some_iff.mp h
      cases h
      obtain ⟨hfrom, hparts⟩ := fragments_spec hbs
      refine ⟨rfl, rfl, ?_, fun b hb => (hparts b hb).1⟩
      rintro rfl
      exact hne hfrom.symm
  | _ => cases hmsg

/-- a job goes on serving its request -/
theorem Serves.continues {msg : DiskMessageIn} {job job' : BlockJob File} (h : Serves msg job)
    (hc : job.Continues job') : Serves msg job' := by
  have hparts : ∀ {data : List UInt8} {bs bs' : List (BlockFileWrite File)},
      List.Forall₂ BlockFileWrite.Continues bs bs' → (bs ≠ [] ∧ ∀ b ∈ bs, b.block <:+: data) →
        bs' ≠ [] ∧ ∀ b ∈ bs', b.block <:+: data := by
    rintro data bs bs' hf ⟨hne, hinfix⟩
    constructor
    · rintro rfl
      cases hf
      exact hne rfl
    · intro b' hb'
      obtain ⟨b, hb, hcont⟩ := hf.flip.exists_of_mem hb'
      rw [show b'.block = b.block from hcont.block]
      exact hinfix b hb
  cases hc with
  | readSingle hc =>
    cases msg with
    | readBlock id m => exact ⟨(congrArg TorrentFileId.torrent hc.id).trans h.1, h.2⟩
    | _ => cases h
  | readOverlap hc =>
    cases msg with
    | readBlock id m => exact h
    | _ => cases h
  | writeSingle hc =>
    cases msg with
    | writeBlock id block =>
      exact ⟨(congrArg TorrentFileId.torrent hc.id).trans h.1, h.2.1, hc.block.trans h.2.2⟩
    | _ => cases h
  | writeOverlap hc =>
    cases msg with
    | writeBlock id block => exact ⟨h.1, h.2.1, hparts hc h.2.2⟩
    | _ => cases h

/-- a finished job answers its request -/
theorem Serves.answersTo {msg : DiskMessageIn} {job : BlockJob File} (h : Serves msg job) :
    AnswersTo msg (answerOf job) := by
  cases msg with
  | readBlock id m =>
    cases job with
    | read r =>
      rcases answerOf_read r with ⟨data, ha⟩ | ha <;> rw [ha]
      · exact h
      · exact h.1
    | write r => cases h
  | writeBlock id block =>
    cases job with
    | read r => cases h
    | write r =>
      rcases answerOf_write r with ⟨data, ha⟩ | ha <;> rw [ha]
      · exact ⟨h.1, h.2.1⟩
      · exact h.1
  | _ => cases h

theorem answersTo_refusal {msg : DiskMessageIn} {id : TorrentId} {metadata : BlockMetadata}
    (hmsg : msg.request = some (id, metadata)) (e : TorrentError) : AnswersTo msg (msg.refusal e) := by
  cases msg with
  | readBlock id m => exact rfl
  | writeBlock id block => exact rfl
  | _ => cases hmsg

end

/-! ## the machine -/

section
variable (fs : FileSystem File World Err) (sha1 : List UInt8 → ShaHash)

/-- take out an active job and poll it; it is finished, or put back at the end -/
def pollJob (i : Nat) (dm : DiskManager File World) : Option (Option DiskMessageOut × DiskManager File World) :=
  match swapRemove dm.activeBlocks i with
  | none => none
  | some (job, rest) =>
    match job.poll fs dm.world with
    | none => none
    | some (.ready _, job, world) =>
      let r := { dm with activeBlocks := rest, world := world }.finalizeBlock job
      some (some r.1, r.2)
    | some (.pending, job, world) => some (none, { dm with activeBlocks := rest ++ [job], world := world })

/-- handle the message at the head of the queue -/
def pollMessage (order : Arrangement FileEntry) (dm : DiskManager File World) :
    Option (Option (Poll DiskMessageOut) × DiskManager File World) :=
  match dm.queuedEvents with
  | [] => some (none, dm)
  | msg :: queue => handle fs sha1 order { dm with queuedEvents := queue } msg

end

end DiskManager

inductive DiskOp where
  | addTorrent (id : TorrentId) (info : MetaInfo)
  | readBlock (id : TorrentId) (metadata : BlockMetadata)
  | writeBlock (id : TorrentId) (block : Block)
  | pollJob (i : Nat)
  | pollMessage (order : Arrangement FileEntry)

/-- the message a call puts into the queue -/
def DiskOp.message : DiskOp → Option DiskMessageIn
  | .addTorrent id info => some (.addTorrent id info)
  | .readBlock id metadata => some (.readBlock id metadata)
  | .writeBlock id block => some (.writeBlock id block)
  | _ => none

/-- the message handed out by a turn of the queue loop -/
def Poll.answer {α : Type} : Poll α → Option α
  | .ready a => some a
  | .pending => none

namespace DiskManager
variable {File World Err : Type}

section
variable (fs : FileSystem File World Err) (sha1 : List UInt8 → ShaHash)

/-- the answer of a move, if it has one, and the manager after it; `none` is a panic -/
def move (dm : DiskManager File World) : DiskOp → Option (Option DiskMessageOut × DiskManager File World)
  | .addTorrent id info => some (none, dm.addTorrent id info)
  | .readBlock id metadata => some (none, dm.readBlock id metadata)
  | .writeBlock id block => some (none, dm.writeBlock id block)
  | .pollJob i => pollJob fs i dm
  | .pollMessage order => (pollMessage fs sha1 order dm).map fun r => (r.1.bind Poll.answer, r.2)

/-- the machine: after a panic nothing happens any more -/
def next (s : Option (DiskManager File World)) (op : DiskOp) : Option (DiskManager File World) :=
  s.bind fun dm => (dm.move fs sha1 op).map Prod.snd

def output (s : Option (DiskManager File World)) (op : DiskOp) : Option DiskMessageOut :=
  s.bind fun dm => (dm.move fs sha1 op).bind Prod.fst

/-- everything a run answers -/
def answers (s : Option (DiskManager File World)) (ops : List DiskOp) : List DiskMessageOut :=
  outputs (next fs sha1) (output fs sha1) s ops

end

/-- the messages a run puts into the queue -/
def calls (ops : List DiskOp) : List DiskMessageIn := ops.filterMap DiskOp.message

theorem calls_append (a b : List DiskOp) : calls (a ++ b) = calls a ++ calls b := List.filterMap_append

theorem calls_snoc (ops : List DiskOp) (op : DiskOp) : calls (ops ++ [op]) = calls ops ++ op.message.toList := by
  rw [calls_append]
  unfold calls
  cases hm : op.message with
  | none => rw [List.filterMap_cons_none hm]; rfl
  | some msg => rw [List.filterMap_cons_some hm]; rfl

/-! ### what a move can do -/

/-- taking out an element leaves the ones in front of it alone, and moves at most the last one behind it -/
theorem swapRemove_append {α : Type} (front behind : List α) (a : α) :
    ∃ behind', behind'.Perm behind ∧ swapRemove (front ++ a :: behind) front.length = some (a, front ++ behind') := by
  have hget : (front ++ a :: behind)[front.length]? = some a := by simp
  rcases behind.eq_nil_or_concat with rfl | ⟨d, last, rfl⟩
  · refine ⟨[], List.Perm.refl _, ?_⟩
    have hlast : (front ++ [a]).getLast? = some a := by simp
    rw [swapRemove, hget, hlast]
    simp
  · refine ⟨last :: d, ?_, ?_⟩
    · rw [List.concat_eq_append]
      exact (List.perm_append_singleton last d).symm
    · have hlast : (front ++ a :: d.concat last).getLast? = some last := by
        rw [List.concat_eq_append, ← List.cons_append, ← List.append_assoc, List.getLast?_concat]
      rw [swapRemove, hget, hlast]
      simp only [Option.some.injEq, Prod.mk.injEq, true_and]
      rw [List.set_append_right _ _ (Nat.le_refl _), Nat.sub_self, List.set_cons_zero, List.concat_eq_append]
      rw [show front ++ last :: (d ++ [last]) = (front ++ last :: d) ++ [last] by simp, List.dropLast_concat]

/-- what is taken out stood at the index -/
theorem swapRemove_eq_some {α : Type} {l rest : List α} {i : Nat} {a : α} (h : swapRemove l i = some (a, rest)) :
    ∃ front behind behind', l = front ++ a :: behind ∧ front.length = i ∧ rest = front ++ behind' ∧
      behind'.Perm behind := by
  have hi : i < l.length := by
    by_contra hlt
    rw [swapRemove, List.getElem?_eq_none (Nat.not_lt.mp hlt)] at h
    cases h
  have hl : l.take i ++ l[i] :: l.drop (i + 1) = l := by
    rw [List.cons_getElem_drop_succ, List.take_append_drop]
  have hlen : (l.take i).length = i := List.length_take_of_le (Nat.le_of_lt hi)
  obtain ⟨behind', hperm, htake⟩ := swapRemove_append (l.take i) (l.drop (i + 1)) l[i]
  rw [hl, hlen, h] at htake
  cases htake
  exact ⟨_, _, _, hl.symm, hlen, rfl, hperm⟩

theorem perm_swapRemove {α : Type} {l rest : List α} {i : Nat} {a : α} (h : swapRemove l i = some (a, rest)) :
    l.Perm (a :: rest) := by
  obtain ⟨front, behind, behind', rfl, -, rfl, hperm⟩ := swapRemove_eq_some h
  exact List.perm_middle.trans ((hperm.symm.append_left front).cons a)

/-- how the poll of an active job ends -/
inductive JobPolled (fs : FileSystem File World Err) (dm : DiskManager File World) :
    Option DiskMessageOut → DiskManager File World → Prop
  | finished {job rest job' world e} (hjobs : dm.activeBlocks.Perm (job :: rest))
      (h : job.poll fs dm.world = some (.ready e, job', world)) :
      JobPolled fs dm (some (answerOf job'))
        ({ dm with activeBlocks := rest, world := world }.cacheAll (freed job'))
  | pending {job rest job' world} (hjobs : dm.activeBlocks.Perm (job :: rest))
      (h : job.poll fs dm.world = some (.pending, job', world)) :
      JobPolled fs dm none { dm with activeBlocks := rest ++ [job'], world := world }

/-- everything a move can do -/
inductive Moved (fs : FileSystem File World Err) (sha1 : List UInt8 → ShaHash) (dm : DiskManager File World) :
    DiskOp → Option DiskMessageOut → DiskManager File World → Prop
  | call {op msg} (h : op.message = some msg) : Moved fs sha1 dm op none (dm.push msg)
  | job {i out dm'} (h : JobPolled fs dm out dm') : Moved fs sha1 dm (.pollJob i) out dm'
  | idle {order} (h : dm.queuedEvents = []) : Moved fs sha1 dm (.pollMessage order) none dm
  | message {order msg queue r dm'} (hq : dm.queuedEvents = msg :: queue)
      (h : Handled fs sha1 order { dm with queuedEvents := queue } msg r dm') :
      Moved fs sha1 dm (.pollMessage order) (r.bind Poll.answer) dm'

section
variable {fs : FileSystem File World Err} {sha1 : List UInt8 → ShaHash} {order : Arrangement FileEntry}
  {dm dm' : DiskManager File World}

theorem pollJob_cases {i : Nat} {out : Option DiskMessageOut} (h : pollJob fs i dm = some (out, dm')) :
    JobPolled fs dm out dm' := by
  unfold pollJob at h
  split at h
  · cases h
  · rename_i job rest hswap
    split at h
    · cases h
    · rename_i hpoll
      simp only [finalizeBlock_eq] at h
      cases h
      exact .finished (perm_swapRemove hswap) hpoll
    · rename_i hpoll
      cases h
      exact .pending (perm_swapRemove hswap) hpoll

theorem move_cases {op : DiskOp} {out : Option DiskMessageOut} (h : dm.move fs sha1 op = some (out, dm')) :
    Moved fs sha1 dm op out dm' := by
  cases op with
  | addTorrent id info =>
    cases h
    exact .call rfl
  | readBlock id m =>
    cases h
    exact .call rfl
  | writeBlock id block =>
    cases h
    exact .call rfl
  | pollJob i => exact .job (pollJob_cases h)
  | pollMessage order =>
    obtain ⟨⟨r, dm1⟩, hr, h⟩ := Option.map_eq_some_iff.mp h
    cases h
    unfold pollMessage at hr
    split at hr
    · rename_i hq
      cases hr
      exact .idle hq
    · rename_i msg queue hq
      exact .message hq (handle_cases hr)

/-! ### the queue and the torrents -/

/-- a message leaves the queue, or is put back at its end because its files are not free -/
theorem Handled.queue {msg : DiskMessageIn} {r : Option (Poll DiskMessageOut)}
    (h : Handled fs sha1 order dm msg r dm') :
    (r = some .pending ∧ dm'.queuedEvents = dm.queuedEvents ++ [msg] ∧
      ∃ t m F, msg.request = some (t, m) ∧ dm.torrents.lookup t = some F) ∨
    (r ≠ some .pending ∧ dm'.queuedEvents = dm.queuedEvents) := by
  cases h with
  | removed =>
    refine Or.inr ⟨nofun, ?_⟩
    unfold DiskManager.removeTorrent
    split <;> rfl
  | refused hmsg h => exact Or.inr ⟨nofun, h.frame.queuedEvents⟩
  | started hmsg hgood h hjob => exact Or.inr ⟨nofun, h.frame.queuedEvents⟩
  | @requeued _ t m dm1 hmsg hgood h =>
    refine Or.inl ⟨rfl, congrArg (· ++ [msg]) h.frame.queuedEvents, t, m, ?_⟩
    cases h with
    | waiting ht htake =>
      obtain ⟨F, hF, -⟩ := ht.torrent
      exact ⟨F, hmsg, hF⟩
  | _ => exact Or.inr ⟨nofun, rfl⟩

/-- a torrent after a message was there before it, or is the one the message adds -/
theorem Handled.lookup {msg : DiskMessageIn} {r : Option (Poll DiskMessageOut)}
    (h : Handled fs sha1 order dm msg r dm') {t : TorrentId} {F : TorrentFile}
    (hF : dm'.torrents.lookup t = some F) :
    dm.torrents.lookup t = some F ∨
      ∃ info, msg = .addTorrent t info ∧ dm.torrents.lookup t = none ∧ TorrentFile.new t info = some F := by
  cases h with
  | @added id info file hid hnew =>
    rw [AList.lookup_insert_eq] at hF
    split at hF
    · rename_i heq
      cases hF
      rw [heq]
      exact Or.inr ⟨info, rfl, AList.lookup_eq_none.mpr hid, hnew⟩
    · exact Or.inl hF
  | @removed id =>
    unfold DiskManager.removeTorrent at hF
    split at hF
    · rw [AList.lookup_erase_eq] at hF
      split at hF
      · cases hF
      · exact Or.inl hF
    · exact Or.inl hF
  | refused hmsg h =>
    rw [h.frame.torrents] at hF
    exact Or.inl hF
  | started hmsg hgood h hjob =>
    rw [h.frame.torrents] at hF
    exact Or.inl hF
  | requeued hmsg hgood h =>
    rw [show (DiskManager.push _ msg).torrents = _ from h.frame.torrents] at hF
    exact Or.inl hF
  | _ => exact Or.inl hF

/-- and a torrent stays unless it is removed -/
theorem Handled.lookup_kept {msg : DiskMessageIn} {r : Option (Poll DiskMessageOut)}
    (h : Handled fs sha1 order dm msg r dm') {t : TorrentId} (hmsg : msg ≠ .removeTorrent t) {F : TorrentFile}
    (hF : dm.torrents.lookup t = some F) : dm'.torrents.lookup t = some F := by
  cases h with
  | @added id info file hid hnew =>
    rw [AList.lookup_insert_eq, if_neg]
    · exact hF
    · rintro rfl
      exact hid (AList.mem_of_lookup hF)
  | @removed id =>
    unfold DiskManager.removeTorrent
    split
    · rw [AList.lookup_erase_eq, if_neg]
      · exact hF
      · rintro rfl
        exact hmsg rfl
    · exact hF
  | refused hmsg h => rwa [h.frame.torrents]
  | started hmsg hgood h hjob => rwa [h.frame.torrents]
  | requeued hmsg hgood h => rwa [show (DiskManager.push _ msg).torrents = _ from h.frame.torrents]
  | _ => exact hF

theorem JobPolled.torrents {out : Option DiskMessageOut} (h : JobPolled fs dm out dm') :
    dm'.torrents = dm.torrents := by
  cases h <;> rfl

theorem JobPolled.queuedEvents {out : Option DiskMessageOut} (h : JobPolled fs dm out dm') :
    dm'.queuedEvents = dm.queuedEvents := by
  cases h <;> rfl

theorem Moved.lookup {op : DiskOp} {out : Option DiskMessageOut} (h : Moved fs sha1 dm op out dm')
    {t : TorrentId} {F : TorrentFile} (hF : dm'.torrents.lookup t = some F) :
    dm.torrents.lookup t = some F ∨ ∃ info, .addTorrent t info ∈ dm.queuedEvents.head? ∧
      dm.torrents.lookup t = none ∧ TorrentFile.new t info = some F := by
  cases h with
  | call h => exact Or.inl hF
  | job h =>
    rw [h.torrents] at hF
    exact Or.inl hF
  | idle h => exact Or.inl hF
  | message hq h =>
    rcases h.lookup hF with h1 | ⟨info, rfl, h1, h2⟩
    · exact Or.inl h1
    · exact Or.inr ⟨info, by rw [hq]; rfl, h1, h2⟩

theorem Filed.moved (hdm : dm.Filed) {op : DiskOp} {out : Option DiskMessageOut}
    (h : Moved fs sha1 dm op out dm') : dm'.Filed := by
  intro t F hF
  rcases h.lookup hF with h1 | ⟨info, -, -, hnew⟩
  · exact hdm t F h1
  · exact ⟨fun e he => TorrentFile.torrent_of_mem_new hnew he, TorrentFile.nodup_new hnew⟩

theorem filed_withCapacity (world : World) (capacity : Nat) :
    (withCapacity world capacity : DiskManager File World).Filed := by
  intro t F h
  rw [show (withCapacity world capacity : DiskManager File World).torrents = ∅ from rfl, AList.lookup_empty] at h
  cases h

/-! ### runs -/

/-- an invariant of the moves that do not panic holds of every state reached -/
theorem exec_some {I : DiskManager File World → Prop}
    (hstep : ∀ dm op out dm', I dm → Moved fs sha1 dm op out dm' → I dm') (h0 : I dm) {ops : List DiskOp}
    (h : exec (next fs sha1) (some dm) ops = some dm') : I dm' := by
  refine exec_inv_some (next fs sha1) (fun _ _ => rfl) ?_ h0 h
  intro a a' op ha hnext
  obtain ⟨⟨out, c⟩, hmove, rfl⟩ := Option.map_eq_some_iff.mp hnext
  exact hstep a op out c ha (move_cases hmove)

/-- an invariant over the calls, the answers and the manager holds along every run that does not panic -/
theorem run_inv {I : List DiskMessageIn → List DiskMessageOut → DiskManager File World → Prop}
    (hstep : ∀ ins outs dm op out dm', I ins outs dm → Moved fs sha1 dm op out dm' →
      I (ins ++ op.message.toList) (outs ++ out.toList) dm')
    (h0 : I [] [] dm) {ops : List DiskOp} (h : exec (next fs sha1) (some dm) ops = some dm') :
    I (calls ops) (answers fs sha1 (some dm) ops) dm' := by
  induction ops using List.reverseRecOn generalizing dm' with
  | nil =>
    cases h
    exact h0
  | append_singleton ops op ih =>
    rw [exec_snoc] at h
    obtain ⟨dm1, h1, h⟩ := Option.bind_eq_some_iff.mp h
    obtain ⟨⟨out, dm2⟩, hmove, rfl⟩ := Option.map_eq_some_iff.mp h
    have hout : output fs sha1 (exec (next fs sha1) (some dm) ops) op = out := by
      rw [h1, output, Option.bind_some, hmove, Option.bind_some]
    rw [calls_snoc, answers, outputs_snoc, hout]
    exact hstep _ _ dm1 op out dm2 (ih h1) (move_cases hmove)

/-! ### a poll is a run -/

/-- moves of `poll` that lead from `dm` to `dm'` and answer `out` -/
structure Moves (fs : FileSystem File World Err) (sha1 : List UInt8 → ShaHash) (dm : DiskManager File World)
    (ops : List DiskOp) (out : List DiskMessageOut) (dm' : DiskManager File World) : Prop where
  calls : calls ops = []
  run : exec (next fs sha1) (some dm) ops = some dm'
  answers : answers fs sha1 (some dm) ops = out

theorem Moves.nil (dm : DiskManager File World) : Moves fs sha1 dm [] [] dm := ⟨rfl, rfl, rfl⟩

theorem Moves.cons {dm1 : DiskManager File World} {op : DiskOp} {out : Option DiskMessageOut} {ops : List DiskOp}
    {outs : List DiskMessageOut} (hop : op.message = none) (hmove : dm.move fs sha1 op = some (out, dm1))
    (h : Moves fs sha1 dm1 ops outs dm') : Moves fs sha1 dm (op :: ops) (out.toList ++ outs) dm' := by
  have hnext : next fs sha1 (some dm) op = some dm1 := by
    rw [next, Option.bind_some, hmove, Option.map_some]
  refine ⟨?_, ?_, ?_⟩
  · rw [DiskManager.calls, List.filterMap_cons_none hop]
    exact h.calls
  · rw [exec_cons, hnext]
    exact h.run
  · rw [DiskManager.answers, outputs, hnext, output, Option.bind_some, hmove, Option.bind_some]
    exact congrArg _ h.answers

theorem Moves.trans {dm1 : DiskManager File World} {a b : List DiskOp} {out out' : List DiskMessageOut}
    (h : Moves fs sha1 dm a out dm1) (h' : Moves fs sha1 dm1 b out' dm') :
    Moves fs sha1 dm (a ++ b) (out ++ out') dm' := by
  refine ⟨?_, ?_, ?_⟩
  · rw [calls_append, h.calls, h'.calls]
    rfl
  · rw [exec_append, h.run, h'.run]
  · rw [DiskManager.answers, outputs_append, h.run]
    exact congrArg₂ (· ++ ·) h.answers h'.answers

/-- an invariant of the moves of `poll`, with what it says about their answers -/
theorem Moves.inv {I : DiskManager File World → Prop} {A : DiskMessageOut → Prop}
    (hstep : ∀ dm op out dm', I dm → op.message = none → Moved fs sha1 dm op out dm' → I dm' ∧ ∀ msg ∈ out, A msg)
    {ops : List DiskOp} {outs : List DiskMessageOut} (h : Moves fs sha1 dm ops outs dm') (h0 : I dm) :
    I dm' ∧ ∀ msg ∈ outs, A msg := by
  induction ops generalizing dm outs with
  | nil =>
    obtain ⟨-, hrun, rfl⟩ := h
    cases hrun
    refine ⟨h0, ?_⟩
    intro msg hmsg
    cases hmsg
  | cons op ops ih =>
    obtain ⟨hcalls, hrun, rfl⟩ := h
    have hop : op.message = none := by
      cases hm : op.message with
      | none => rfl
      | some msg =>
        rw [DiskManager.calls, List.filterMap_cons_some hm] at hcalls
        cases hcalls
    rw [DiskManager.calls, List.filterMap_cons_none hop] at hcalls
    rw [exec_cons, next, Option.bind_some] at hrun
    cases hm : dm.move fs sha1 op with
    | none =>
      rw [hm, Option.map_none] at hrun
      cases (exec_inv (I := fun s : Option (DiskManager File World) => s = none)
        (fun s op hs => by rw [hs]; rfl) rfl ops).symm.trans hrun
    | some x =>
      obtain ⟨out, dm1⟩ := x
      rw [hm, Option.map_some] at hrun
      obtain ⟨h1, h2⟩ := hstep dm op out dm1 h0 hop (move_cases hm)
      obtain ⟨h3, h4⟩ := ih ⟨hcalls, hrun, rfl⟩ h1
      refine ⟨h3, ?_⟩
      intro msg hmsg
      rw [DiskManager.answers, outputs, output, Option.bind_some, hm, Option.bind_some, next, Option.bind_some, hm,
        Option.map_some] at hmsg
      rcases List.mem_append.mp hmsg with hmsg | hmsg
      · exact h2 msg (Option.mem_toList.mp hmsg)
      · exact h4 msg hmsg

/-- the loop's own first move -/
theorem pollActive_succ (i : Nat) (dm : DiskManager File World) :
    pollActive fs (i + 1) dm
      = (pollJob fs i dm).bind fun r => if r.1.isSome then some r else pollActive fs i r.2 := by
  rw [pollActive, pollJob]
  cases swapRemove dm.activeBlocks i with
  | none => rfl
  | some x =>
    obtain ⟨job, rest⟩ := x
    simp only
    cases job.poll fs dm.world with
    | none => rfl
    | some y =>
      obtain ⟨p, job', world⟩ := y
      cases p <;> rfl

theorem pollActive_run {i : Nat} {out : Option DiskMessageOut} (h : pollActive fs i dm = some (out, dm')) :
    ∃ ops, Moves fs sha1 dm ops out.toList dm' := by
  induction i generalizing dm with
  | zero =>
    cases h
    exact ⟨[], Moves.nil _⟩
  | succ i ih =>
    rw [pollActive_succ] at h
    obtain ⟨⟨out1, dm1⟩, h1, h⟩ := Option.bind_eq_some_iff.mp h
    have hone : dm.move fs sha1 (.pollJob i) = some (out1, dm1) := h1
    cases out1 with
    | some msg =>
      cases h
      exact ⟨_, Moves.cons rfl hone (Moves.nil _)⟩
    | none =>
      obtain ⟨ops, hops⟩ := ih h
      exact ⟨_, Moves.cons rfl hone hops⟩

/-- the move that handles the message at the head of the queue -/
theorem move_of_handle {msg : DiskMessageIn} {queue : List DiskMessageIn} (hq : dm.queuedEvents = msg :: queue)
    {p : Option (Poll DiskMessageOut)}
    (h : handle fs sha1 order { dm with queuedEvents := queue } msg = some (p, dm')) :
    dm.move fs sha1 (.pollMessage order) = some (p.bind Poll.answer, dm') := by
  rw [move, pollMessage, hq]
  simp only
  rw [h, Option.map_some]

theorem pollQueue_run {rounds : Nat} {r : Option (Poll DiskMessageOut)}
    (h : pollQueue fs sha1 order rounds dm = some (r, dm')) :
    ∃ ops, Moves fs sha1 dm ops (r.bind Poll.answer).toList dm' := by
  induction rounds generalizing dm with
  | zero =>
    cases h
    exact ⟨[], Moves.nil _⟩
  | succ rounds ih =>
    unfold pollQueue at h
    split at h
    · cases h
      exact ⟨[], Moves.nil _⟩
    · rename_i msg queue hq
      split at h
      · cases h
      · rename_i p dm1 hh
        cases h
        exact ⟨_, by simpa using Moves.cons rfl (move_of_handle hq hh) (Moves.nil _)⟩
      · rename_i dm1 hh
        obtain ⟨ops, hops⟩ := ih h
        exact ⟨_, Moves.cons rfl (move_of_handle hq hh) hops⟩

/-- the manager a poll leaves behind, and its answer -/
def DiskPoll.left {σ : Type} : DiskPoll σ → Option (Option DiskMessageOut × σ)
  | .ready msg s => some (some msg, s)
  | .pending s => some (none, s)
  | .spinning s => some (none, s)
  | .panic => none

/-- **A poll is a run of its moves** that answers what the poll returns, and nothing else; so is the part of a
poll that has not returned yet. -/
theorem poll_run {rounds : Nat} {out : Option DiskMessageOut}
    (h : DiskPoll.left (poll fs sha1 order rounds dm) = some (out, dm')) :
    ∃ ops, Moves fs sha1 dm ops out.toList dm' := by
  induction rounds generalizing dm with
  | zero =>
    cases h
    exact ⟨[], Moves.nil _⟩
  | succ rounds ih =>
    unfold poll at h
    split at h
    · cases h
    · rename_i msg dm1 hactive
      cases h
      exact pollActive_run hactive
    · rename_i dm1 hactive
      obtain ⟨ops, hops⟩ : ∃ ops, Moves fs sha1 dm ops [] dm1 := pollActive_run hactive
      split at h
      · cases h
      · rename_i msg dm2 hqueue
        cases h
        obtain ⟨ops', hops'⟩ := pollQueue_run hqueue
        exact ⟨_, hops.trans hops'⟩
      · rename_i dm2 hqueue
        cases h
        obtain ⟨ops', hops'⟩ := pollQueue_run hqueue
        exact ⟨_, hops.trans hops'⟩
      · rename_i dm2 hqueue
        obtain ⟨ops', hops'⟩ := pollQueue_run hqueue
        split at h
        · cases h
          exact ⟨_, hops.trans hops'⟩
        · obtain ⟨ops'', hops''⟩ := ih h
          exact ⟨_, (hops.trans hops').trans hops''⟩

end

end DiskManager

/-! ## a small instance, for concrete runs -/

/-- a file system on which everything succeeds at once -/
def instantDisk : FileSystem Unit Unit Unit where
  pollOpenFile _ w := (.ready (.ok ()), w)
  pollSeek f offset w := (.ready (.ok offset), f, w)
  pollReadBlock f n w := (.ready (.ok (List.replicate n 0)), f, w)
  pollWriteBlock f bytes w := (.ready (.ok bytes.length), f, w)

/-- a stand-in for SHA-1 that looks at the first byte -/
def firstByte (data : List UInt8) : ShaHash := .replicate (data.headD 0)

/-- one file of one byte, the byte `1` -/
def oneByte : MetaInfo :=
  ⟨none, [], none, none, none, none, [], [], ⟨[firstByte [1]], 1, .single 1, "one"⟩, [], .from []⟩

/-- a file system that answers `Pending` where the script says `false`, and succeeds otherwise -/
def scriptedDisk : FileSystem Unit (List Bool) Unit where
  pollOpenFile _ w := (if w.headD true then .ready (.ok ()) else .pending, w.tail)
  pollSeek f offset w := (if w.headD true then .ready (.ok offset) else .pending, f, w.tail)
  pollReadBlock f n w := (if w.headD true then .ready (.ok (List.replicate n 0)) else .pending, f, w.tail)
  pollWriteBlock f bytes w := (if w.headD true then .ready (.ok bytes.length) else .pending, f, w.tail)

end Btt
