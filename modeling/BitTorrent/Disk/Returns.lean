import BitTorrent.Disk.Cache
import BitTorrent.Disk.Stall

/-!
# When a poll of the disk manager returns

Before a call one can tell from the torrents, the cache and the queue how the loop over the queue goes if every
file opens and nothing is read or written meanwhile.

* `takeFree`      the cache without the files of a block, if all of them are free;
* `prospect`      what becomes of a message then;
* `stops`         one comes to a message that ends the call, or to the end of the queue with no job active;
* `returns_iff`   a poll returns for every behaviour of the file system exactly if no active job can panic and
                  the queue stops.
-/

namespace Btt
open Run

namespace DiskManager
variable {File World Err : Type}

/-! ## what the queue holds -/

/-- take the files out of the cache; one that is busy, or that waits for another window, is not free -/
def takeFree : LruCache TorrentFileId (FileState File) → List (FileEntry × FileWindow) →
    Option (LruCache TorrentFileId (FileState File))
  | c, [] => some c
  | c, (file, window) :: files =>
    match c.remove file.id with
    | (none, _) => takeFree c files
    | (some (.ready _), cache) => takeFree cache files
    | (some (.queued _ queuedWindow), cache) => if window = queuedWindow then takeFree cache files else none
    | (some (.busy _), _) => none

/-- the windows can be cut from a block of `length` bytes, as `fragments` does it -/
def fits (length : Nat) : Nat → List FileWindow → Bool
  | _, [] => true
  | offset, window :: windows =>
    (offset ≤ window.length ∧ window.length ≤ length) && fits length (offset + window.length) windows

/-- the request can become a job for files with these windows -/
def startable : DiskMessageIn → List FileWindow → Bool
  | .writeBlock _ block, windows => windows.length = 1 || fits block.blockData.length 0 windows
  | _, _ => true

/-- what becomes of a message if every file opens -/
inductive Prospect (File : Type) where
  | ends
  | panics
  | skips
  | starts (cache : LruCache TorrentFileId (FileState File))

section
variable (sha1 : List UInt8 → ShaHash) (order : Arrangement FileEntry)
  (torrents : AList fun _ : TorrentId => TorrentFile)

def prospectOf (cache : LruCache TorrentFileId (FileState File)) (msg : DiskMessageIn) (id : TorrentId)
    (metadata : BlockMetadata) : Prospect File :=
  match torrents.lookup id with
  | none => .ends
  | some torrent =>
    match torrent.filesForBlock order metadata with
    | none => .panics
    | some (.error _) => .ends
    | some (.ok files) =>
      if files.isEmpty then .panics
      else
        match takeFree cache files with
        | none => .ends
        | some cache =>
          if startable msg (files.map Prod.snd) then
            .starts (cache.insertAll (files.map fun x => (x.1.id, .busy x.2)))
          else .panics

def prospect (cache : LruCache TorrentFileId (FileState File)) (msg : DiskMessageIn) : Prospect File :=
  match msg with
  | .addTorrent id info => if id ∈ torrents ∨ (TorrentFile.new id info).isSome then .ends else .panics
  | .removeTorrent _ => .ends
  | .syncTorrent _ => .skips
  | .moveTorrent _ _ => .skips
  | .readBlock id metadata => prospectOf order torrents cache msg id metadata
  | .writeBlock id block =>
    if (torrents.lookup id).any fun torrent => torrent.isGoodPiece sha1 block then
      prospectOf order torrents cache msg id block.metadata
    else .ends

/-- the queue ends the call; `active` says that there are active jobs -/
def stops : List DiskMessageIn → LruCache TorrentFileId (FileState File) → Bool → Bool
  | [], _, active => !active
  | msg :: queue, cache, active =>
    match prospect sha1 order torrents cache msg with
    | .ends => true
    | .panics => false
    | .skips => stops queue cache active
    | .starts cache => stops queue cache true

end

/-! ## files -/

section
variable {fs : FileSystem File World Err} {dm dm' : DiskManager File World}

/-- if all files are ready, all of them were free -/
theorem takeFree_of_takeFiles {files : List (FileEntry × FileWindow)}
    {queued q : List (TorrentFileId × File × FileWindow)} {allReady : Bool}
    (h : takeFiles fs files queued allReady dm = (.ok (q, true), dm')) :
    takeFree dm.fileCache files = some dm'.fileCache := by
  induction files generalizing queued allReady dm with
  | nil =>
    cases h
    rfl
  | cons file files ih =>
    obtain ⟨file, window⟩ := file
    -- once a file is not free the others cannot make up for it
    have hlost : ∀ {queued : List (TorrentFileId × File × FileWindow)} {dm1 : DiskManager File World},
        takeFiles fs files queued false dm1 ≠ (.ok (q, true), dm') := by
      intro queued dm1 h1
      obtain ⟨taken, -, -, hall⟩ := takeFiles_spec h1
      cases (hall rfl).1
    unfold takeFiles at h
    unfold takeFree
    split at h
    · rename_i hc
      rw [hc]
      exact ih h
    · rename_i f queuedWindow cache hc
      rw [hc]
      by_cases hw : window = queuedWindow
      · simp only [if_pos hw]
        exact ih h
      · rw [decide_eq_false hw, Bool.and_false] at h
        exact (hlost h).elim
    · exact (hlost h).elim
    · rename_i c hc
      rw [hc]
      split at h
      · have hrest := ih h
        exact hrest
      · cases h
      · cases h

/-- where every file opens, files that are free are all taken -/
theorem takeFiles_stalled [Inhabited File] (Err : Type) {files : List (FileEntry × FileWindow)}
    {cache : LruCache TorrentFileId (FileState File)} (queued : List (TorrentFileId × File × FileWindow))
    (h : takeFree dm.fileCache files = some cache) :
    ∃ q, takeFiles (FileSystem.stalled File World Err) files queued true dm
      = (.ok (q, true), { dm with fileCache := cache }) := by
  induction files generalizing queued dm with
  | nil =>
    cases h
    exact ⟨queued, rfl⟩
  | cons file files ih =>
    obtain ⟨file, window⟩ := file
    unfold takeFree at h
    unfold takeFiles
    split at h
    · rename_i hc
      rw [hc]
      exact ih _ h
    · rename_i hc
      rw [hc]
      exact ih _ h
    · rename_i f queuedWindow cache' hc
      rw [hc]
      by_cases hw : window = queuedWindow
      · rw [if_pos hw] at h
        simp only [decide_eq_true hw, Bool.and_true]
        exact ih _ h
      · rw [if_neg hw] at h
        cases h
    · cases h

theorem fits_eq (data : List UInt8) (offset : Nat) (files : List (FileWindow × BlockFile File)) :
    (fragments data offset files).isSome = fits data.length offset (files.map Prod.fst) := by
  induction files generalizing offset with
  | nil => rfl
  | cons file files ih =>
    unfold fragments
    rw [List.map_cons, fits, ← ih]
    split
    · rename_i h
      rw [decide_eq_true h, Bool.true_and, Option.isSome_map]
    · rename_i h
      rw [decide_eq_false h]
      rfl

/-- which requests become jobs -/
theorem isSome_jobFor {msg : DiskMessageIn} {id : TorrentId} {metadata : BlockMetadata}
    (hmsg : msg.request = some (id, metadata)) (files : List (FileWindow × BlockFile File)) :
    (jobFor files msg).isSome = startable msg (files.map Prod.fst) := by
  cases msg with
  | readBlock id' m =>
    simp only [jobFor]
    split <;> rfl
  | writeBlock id' block =>
    simp only [jobFor, startable]
    split
    · rfl
    · rename_i hmany
      have hlen : (files.map Prod.fst).length ≠ 1 := by
        intro hone
        rw [List.length_map] at hone
        obtain ⟨⟨window, file⟩, hx⟩ := List.length_eq_one_iff.mp hone
        exact hmany window file hx
      rw [Option.isSome_map, fits_eq, decide_eq_false hlen, Bool.false_or]
  | _ => cases hmsg

/-- a job that was just made is not done -/
theorem unfinished_jobFor {msg : DiskMessageIn} {files : List (FileWindow × BlockFile File)} {job : BlockJob File}
    (hne : files ≠ []) (h : jobFor files msg = some job) : job.Unfinished := by
  cases msg with
  | readBlock id m =>
    simp only [jobFor] at h
    split at h
    · cases h
      intro hdone
      cases hdone
    · cases h
      obtain ⟨x, files, rfl⟩ := List.exists_cons_of_ne_nil hne
      refine ⟨_, List.mem_cons_self, ?_⟩
      intro hdone
      cases hdone
  | writeBlock id block =>
    simp only [jobFor] at h
    split at h
    · cases h
      intro hdone
      cases hdone
    · obtain ⟨bs, hbs, h⟩ := Option.map_eq_some_iff.mp h
      cases h
      obtain ⟨hfrom, hparts⟩ := fragments_spec hbs
      have hbs : bs ≠ [] := by
        rintro rfl
        exact hne hfrom.symm
      obtain ⟨b, bs, rfl⟩ := List.exists_cons_of_ne_nil hbs
      refine ⟨b, List.mem_cons_self, ?_⟩
      rw [(hparts b List.mem_cons_self).2.2]
      intro hdone
      cases hdone
  | _ => cases h

end

/-! ## a message -/

/-- the request has become a job; its files are busy, and nothing else has changed -/
structure Started (dm : DiskManager File World) (cache : LruCache TorrentFileId (FileState File))
    (dm' : DiskManager File World) : Prop where
  queuedEvents : dm'.queuedEvents = dm.queuedEvents
  torrents : dm'.torrents = dm.torrents
  fileCache : dm'.fileCache = cache
  activeBlocks : ∃ job : BlockJob File, dm'.activeBlocks = dm.activeBlocks ++ [job] ∧ job.Unfinished

section
variable {fs : FileSystem File World Err} {sha1 : List UInt8 → ShaHash} {order : Arrangement FileEntry}
  {dm : DiskManager File World} {msg : DiskMessageIn} {id : TorrentId} {metadata : BlockMetadata}

/-- all files of a request were taken -/
theorem settle_held {files : List (FileEntry × FileWindow)} {q : List (TorrentFileId × File × FileWindow)}
    {dm1 : DiskManager File World} (hmsg : msg.request = some (id, metadata)) (hne : files ≠ [])
    (htake : takeFiles fs files [] true dm = (.ok (q, true), dm1)) :
    (startable msg (files.map Prod.snd) = true →
      ∃ dm', settle msg (.ready (.ok (jobFiles q))) (dm1.cacheAll (heldFiles q)) = some (none, dm') ∧
        Started dm (dm1.fileCache.insertAll (files.map fun x => (x.1.id, .busy x.2))) dm') ∧
    (startable msg (files.map Prod.snd) = false →
      settle msg (.ready (.ok (jobFiles q))) (dm1.cacheAll (heldFiles q)) = none) := by
  have hf := takeFiles_frame htake
  obtain ⟨taken, htaken, -, hall⟩ := takeFiles_spec htake
  rw [List.nil_append] at htaken
  subst htaken
  obtain ⟨-, hfiles⟩ := hall rfl
  have hwindows : (jobFiles q).map Prod.fst = files.map Prod.snd := by
    have h := congrArg (List.map Prod.snd) hfiles
    rw [List.map_map, List.map_map] at h
    rw [jobFiles, List.map_map]
    exact h
  have hheld : heldFiles q = files.map fun x => (x.1.id, FileState.busy x.2) := by
    have h := congrArg (List.map fun x => (x.1, (FileState.busy x.2 : FileState File))) hfiles
    rw [List.map_map, List.map_map] at h
    exact h
  have hjobs : jobFiles q ≠ [] := by
    intro hnil
    rw [hnil] at hwindows
    exact hne (List.map_eq_nil_iff.mp hwindows.symm)
  have hsome := isSome_jobFor hmsg (jobFiles q)
  rw [hwindows] at hsome
  rw [← hsome, hheld]
  constructor
  · intro h
    obtain ⟨job, hjob⟩ := Option.isSome_iff_exists.mp h
    rw [settle, hjob, Option.map_some]
    exact ⟨_, rfl, hf.queuedEvents, hf.torrents, rfl, job, congrArg (· ++ [job]) hf.activeBlocks,
      unfinished_jobFor hjobs hjob⟩
  · intro h
    have hnone : jobFor (jobFiles q) msg = none := Option.isNone_iff_eq_none.mp (Option.isSome_eq_false_iff.mp h)
    rw [settle, hnone, Option.map_none]

/-- how a message goes, by what one could tell of it -/
def Goes (dm : DiskManager File World) (r : Option (Option (Poll DiskMessageOut) × DiskManager File World)) :
    Prospect File → Prop
  | .ends => ∃ p dm', r = some (some p, dm')
  | .panics => True
  | .skips => r = some (none, dm)
  | .starts cache => (∃ p dm', r = some (some p, dm')) ∨ ∃ dm', r = some (none, dm') ∧ Started dm cache dm'

/-- and how it goes on the stalled disk -/
def GoesStalled (dm : DiskManager File World)
    (r : Option (Option (Poll DiskMessageOut) × DiskManager File World)) : Prospect File → Prop
  | .ends => True
  | .panics => r = none
  | .skips => r = some (none, dm)
  | .starts cache => ∃ dm', r = some (none, dm') ∧ Started dm cache dm'

/-- how the search for files ends, by how they were taken -/
def found : Except TorrentError (List (TorrentFileId × File × FileWindow) × Bool) → DiskManager File World →
    Poll (Except TorrentError (List (FileWindow × BlockFile File))) × DiskManager File World
  | .error e, dm => (.ready (.error e), dm)
  | .ok (q, true), dm => (.ready (.ok (jobFiles q)), dm.cacheAll (heldFiles q))
  | .ok (q, false), dm => (.pending, dm.cacheAll (waitingFiles q))

/-- a request whose torrent and files are known -/
theorem pollFiles_touches {files : List (FileEntry × FileWindow)} (ht : dm.Touches order id metadata files)
    {r : Except TorrentError (List (TorrentFileId × File × FileWindow) × Bool)} {dm1 : DiskManager File World}
    (htake : takeFiles fs files [] true dm = (r, dm1)) :
    pollFiles fs order dm id metadata = some (found r dm1) := by
  obtain ⟨⟨torrent, hid, hfiles⟩, hne⟩ := ht
  have hempty : files.isEmpty = false := List.isEmpty_eq_false_iff.mpr hne
  rw [pollFiles, hid]
  simp only [hfiles, hempty, htake]
  match r with
  | .error e => rfl
  | .ok (q, true) => rfl
  | .ok (q, false) => rfl

theorem prospectOf_touches {files : List (FileEntry × FileWindow)} (ht : dm.Touches order id metadata files) :
    prospectOf order dm.torrents dm.fileCache msg id metadata
      = (takeFree dm.fileCache files).elim .ends fun cache =>
          if startable msg (files.map Prod.snd) then
            .starts (cache.insertAll (files.map fun x => (x.1.id, .busy x.2)))
          else .panics := by
  obtain ⟨⟨torrent, hid, hfiles⟩, hne⟩ := ht
  have hempty : files.isEmpty = false := List.isEmpty_eq_false_iff.mpr hne
  rw [prospectOf, hid]
  simp only [hfiles, hempty]
  cases takeFree dm.fileCache files <;> rfl

theorem goes_touches {files : List (FileEntry × FileWindow)} (hmsg : msg.request = some (id, metadata))
    (ht : dm.Touches order id metadata files) :
    Goes dm ((pollFiles fs order dm id metadata).bind fun r => settle msg r.1 r.2)
      (prospectOf order dm.torrents dm.fileCache msg id metadata) := by
  -- whatever one could tell, a call may end here
  have hended : ∀ {r : Option (Option (Poll DiskMessageOut) × DiskManager File World)},
      (∃ p dm', r = some (some p, dm')) → Goes dm r (prospectOf order dm.torrents dm.fileCache msg id metadata) := by
    intro r hr
    rw [prospectOf_touches ht]
    cases takeFree dm.fileCache files with
    | none => exact hr
    | some cache =>
      rw [Option.elim_some]
      split
      · exact Or.inl hr
      · trivial
  rcases htake : takeFiles fs files [] true dm with ⟨e | ⟨q, ready⟩, dm1⟩
  · rw [pollFiles_touches ht htake]
    exact hended ⟨_, _, rfl⟩
  · rw [pollFiles_touches ht htake]
    cases ready with
    | false => exact hended ⟨_, _, rfl⟩
    | true =>
      obtain ⟨hstart, -⟩ := settle_held hmsg ht.nonempty htake
      rw [prospectOf_touches ht, takeFree_of_takeFiles htake, Option.elim_some]
      split
      · rename_i h
        exact Or.inr (hstart h)
      · trivial

theorem goesStalled_touches [Inhabited File] {files : List (FileEntry × FileWindow)}
    (hmsg : msg.request = some (id, metadata)) (ht : dm.Touches order id metadata files) :
    GoesStalled dm
      ((pollFiles (FileSystem.stalled File World Err) order dm id metadata).bind fun r => settle msg r.1 r.2)
      (prospectOf order dm.torrents dm.fileCache msg id metadata) := by
  rw [prospectOf_touches ht]
  cases hfree : takeFree dm.fileCache files with
  | none => trivial
  | some cache =>
    obtain ⟨q, htake⟩ := takeFiles_stalled Err [] hfree
    obtain ⟨hstart, hpanic⟩ := settle_held hmsg ht.nonempty htake
    rw [pollFiles_touches ht htake, Option.elim_some]
    split
    · rename_i h
      exact hstart h
    · rename_i h
      exact hpanic (Bool.eq_false_iff.mpr h)

/-- a request whose files are not looked for goes the same way on every disk -/
theorem pollFiles_aside (fs : FileSystem File World Err) (msg : DiskMessageIn) (h : ∀ files, ¬ dm.Touches order id metadata files) :
    (∃ e, pollFiles fs order dm id metadata = some (.ready (.error e), dm) ∧
      prospectOf order dm.torrents dm.fileCache msg id metadata = .ends) ∨
    (pollFiles fs order dm id metadata = none ∧
      prospectOf order dm.torrents dm.fileCache msg id metadata = .panics) := by
  unfold pollFiles prospectOf
  cases hid : dm.torrents.lookup id with
  | none => exact Or.inl ⟨_, rfl, rfl⟩
  | some torrent =>
    simp only
    cases hfiles : torrent.filesForBlock order metadata with
    | none => exact Or.inr ⟨rfl, rfl⟩
    | some r =>
      cases r with
      | error e => exact Or.inl ⟨e, rfl, rfl⟩
      | ok files =>
        have hempty : files.isEmpty = true := by
          by_contra hne
          exact h files ⟨⟨torrent, hid, hfiles⟩, fun hnil => hne (List.isEmpty_iff.mpr hnil)⟩
        simp only [hempty]
        exact Or.inr ⟨rfl, rfl⟩

theorem goes_request (hmsg : msg.request = some (id, metadata)) :
    Goes dm ((pollFiles fs order dm id metadata).bind fun r => settle msg r.1 r.2)
      (prospectOf order dm.torrents dm.fileCache msg id metadata) := by
  by_cases ht : ∃ files, dm.Touches order id metadata files
  · obtain ⟨files, ht⟩ := ht
    exact goes_touches hmsg ht
  · rcases pollFiles_aside fs msg (not_exists.mp ht) with ⟨e, hp, ho⟩ | ⟨hp, ho⟩
    · rw [hp, ho]
      exact ⟨_, _, rfl⟩
    · rw [ho]
      trivial

theorem goesStalled_request [Inhabited File] (hmsg : msg.request = some (id, metadata)) :
    GoesStalled dm
      ((pollFiles (FileSystem.stalled File World Err) order dm id metadata).bind fun r => settle msg r.1 r.2)
      (prospectOf order dm.torrents dm.fileCache msg id metadata) := by
  by_cases ht : ∃ files, dm.Touches order id metadata files
  · obtain ⟨files, ht⟩ := ht
    exact goesStalled_touches hmsg ht
  · rcases pollFiles_aside (FileSystem.stalled File World Err) msg (not_exists.mp ht)
      with ⟨e, hp, ho⟩ | ⟨hp, ho⟩
    · rw [ho]
      trivial
    · rw [hp, ho]
      rfl

theorem isGoodPiece_eq (id : TorrentId) (block : Block) :
    dm.isGoodPiece sha1 id block = (dm.torrents.lookup id).any fun torrent => torrent.isGoodPiece sha1 block := by
  unfold isGoodPiece
  cases dm.torrents.lookup id <;> rfl

/-- the messages other than requests, and writes of a bad piece -/
theorem handle_aside (hmsg : ∀ id metadata, msg.request = some (id, metadata) →
      ∃ block, msg = .writeBlock id block ∧ dm.isGoodPiece sha1 id block = false) :
    Goes dm (handle fs sha1 order dm msg) (prospect sha1 order dm.torrents dm.fileCache msg) ∧
      GoesStalled dm (handle fs sha1 order dm msg) (prospect sha1 order dm.torrents dm.fileCache msg) := by
  cases msg with
  | addTorrent id info =>
    simp only [prospect, handle]
    by_cases hid : id ∈ dm.torrents
    · rw [if_pos hid, if_pos (Or.inl hid)]
      exact ⟨⟨_, _, rfl⟩, trivial⟩
    · rw [if_neg hid]
      cases hnew : TorrentFile.new id info with
      | none =>
        rw [Option.isSome_none, if_neg (not_or.mpr ⟨hid, Bool.false_ne_true⟩)]
        exact ⟨trivial, rfl⟩
      | some file =>
        rw [if_pos (Or.inr Option.isSome_some)]
        exact ⟨⟨_, _, rfl⟩, trivial⟩
  | removeTorrent id => exact ⟨⟨_, _, rfl⟩, trivial⟩
  | syncTorrent id => exact ⟨rfl, rfl⟩
  | moveTorrent id dir => exact ⟨rfl, rfl⟩
  | readBlock id m =>
    obtain ⟨block, h, -⟩ := hmsg id m rfl
    cases h
  | writeBlock id b =>
    obtain ⟨block, h, hbad⟩ := hmsg id b.metadata rfl
    cases h
    have hno : ((dm.torrents.lookup id).any fun torrent => torrent.isGoodPiece sha1 b) = false := by
      rw [← isGoodPiece_eq, hbad]
    simp only [prospect, hno, handle, pollCreateBlockWrite, hbad]
    exact ⟨⟨_, _, rfl⟩, trivial⟩

/-- a request that is looked at -/
theorem handle_looked (fs : FileSystem File World Err) (order : Arrangement FileEntry) (hmsg : msg.request = some (id, metadata))
    (hgood : ∀ block, msg = .writeBlock id block → dm.isGoodPiece sha1 id block = true) :
    prospect sha1 order dm.torrents dm.fileCache msg
        = prospectOf order dm.torrents dm.fileCache msg id metadata ∧
      handle fs sha1 order dm msg = (pollFiles fs order dm id metadata).bind fun r => settle msg r.1 r.2 := by
  refine ⟨?_, handle_request hmsg hgood⟩
  cases msg with
  | readBlock id' m =>
    cases hmsg
    rfl
  | writeBlock id' block =>
    cases hmsg
    have hyes : ((dm.torrents.lookup id).any fun torrent => torrent.isGoodPiece sha1 block) = true := by
      rw [← isGoodPiece_eq, hgood block rfl]
    simp only [prospect, hyes]
    rfl
  | _ => cases hmsg

/-- a message is looked at, or set aside -/
theorem looked_or_aside (sha1 : List UInt8 → ShaHash) (dm : DiskManager File World) (msg : DiskMessageIn) :
    (∃ id metadata, msg.request = some (id, metadata) ∧
      ∀ block, msg = .writeBlock id block → dm.isGoodPiece sha1 id block = true) ∨
    ∀ id metadata, msg.request = some (id, metadata) →
      ∃ block, msg = .writeBlock id block ∧ dm.isGoodPiece sha1 id block = false := by
  cases msg with
  | readBlock id m => exact Or.inl ⟨id, m, rfl, nofun⟩
  | writeBlock id block =>
    cases hgood : dm.isGoodPiece sha1 id block with
    | true =>
      refine Or.inl ⟨id, block.metadata, rfl, ?_⟩
      rintro block' ⟨⟩
      exact hgood
    | false =>
      refine Or.inr ?_
      rintro id' m ⟨⟩
      exact ⟨block, rfl, hgood⟩
  | _ => exact Or.inr nofun

theorem goes_handle (fs : FileSystem File World Err) (sha1 : List UInt8 → ShaHash)
    (order : Arrangement FileEntry) (dm : DiskManager File World) (msg : DiskMessageIn) :
    Goes dm (handle fs sha1 order dm msg) (prospect sha1 order dm.torrents dm.fileCache msg) := by
  rcases looked_or_aside sha1 dm msg with ⟨id, m, hmsg, hgood⟩ | haside
  · obtain ⟨hp, hh⟩ := handle_looked fs order hmsg hgood
    rw [hp, hh]
    exact goes_request hmsg
  · exact (handle_aside haside).1

theorem goesStalled_handle [Inhabited File] (Err : Type) (sha1 : List UInt8 → ShaHash) (order : Arrangement FileEntry)
    (dm : DiskManager File World) (msg : DiskMessageIn) :
    GoesStalled dm (handle (FileSystem.stalled File World Err) sha1 order dm msg)
      (prospect sha1 order dm.torrents dm.fileCache msg) := by
  rcases looked_or_aside sha1 dm msg with ⟨id, m, hmsg, hgood⟩ | haside
  · obtain ⟨hp, hh⟩ := handle_looked (FileSystem.stalled File World Err) order hmsg hgood
    rw [hp, hh]
    exact goesStalled_request hmsg
  · exact (handle_aside haside).2

end

/-! ## the queue -/

section
variable (sha1 : List UInt8 → ShaHash) (order : Arrangement FileEntry)

/-- a queue that stops ends the call, whatever the file system does -/
theorem pollQueue_stops (fs : FileSystem File World Err) {queue : List DiskMessageIn}
    {dm : DiskManager File World} (hq : dm.queuedEvents = queue)
    (h : stops sha1 order dm.torrents queue dm.fileCache (!dm.activeBlocks.isEmpty) = true) :
    ∃ r dm', pollQueue fs sha1 order queue.length dm = some (r, dm') ∧
      (r = none → dm'.activeBlocks.isEmpty = true) := by
  induction queue generalizing dm with
  | nil =>
    refine ⟨none, dm, rfl, fun _ => ?_⟩
    simpa [stops] using h
  | cons msg queue ih =>
    have hgoes := goes_handle fs sha1 order { dm with queuedEvents := queue } msg
    rw [List.length_cons, pollQueue, hq]
    rw [stops] at h
    simp only at hgoes h ⊢
    cases hp : prospect sha1 order dm.torrents dm.fileCache msg with
    | ends =>
      rw [hp] at hgoes
      obtain ⟨p, dm', hh⟩ := hgoes
      rw [hh]
      refine ⟨_, _, rfl, ?_⟩
      intro hnone
      cases hnone
    | panics =>
      rw [hp] at h
      cases h
    | skips =>
      rw [hp] at hgoes h
      rw [show handle fs sha1 order { dm with queuedEvents := queue } msg = _ from hgoes]
      exact ih rfl h
    | starts cache =>
      rw [hp] at hgoes h
      rcases hgoes with ⟨p, dm', hh⟩ | ⟨dm', hh, hstart⟩
      · rw [hh]
        refine ⟨_, _, rfl, ?_⟩
        intro hnone
        cases hnone
      · rw [hh]
        obtain ⟨job, hjobs, -⟩ := hstart.activeBlocks
        have hsome : (dm.activeBlocks ++ [job]).isEmpty = false := List.isEmpty_eq_false_iff.mpr (by simp)
        refine ih hstart.queuedEvents ?_
        rw [hstart.torrents, hstart.fileCache, hjobs, hsome]
        exact h

/-- on the stalled disk a queue that does not stop is gone through and leaves a job, unless it panics -/
theorem pollQueue_stalled [Inhabited File] (Err : Type) {queue : List DiskMessageIn} {dm : DiskManager File World}
    (hq : dm.queuedEvents = queue) (hu : ∀ job ∈ dm.activeBlocks, job.Unfinished)
    (h : stops sha1 order dm.torrents queue dm.fileCache (!dm.activeBlocks.isEmpty) = false) :
    pollQueue (FileSystem.stalled File World Err) sha1 order queue.length dm = none ∨
      ∃ dm', pollQueue (FileSystem.stalled File World Err) sha1 order queue.length dm = some (none, dm') ∧
        dm'.queuedEvents = [] ∧ dm'.activeBlocks.isEmpty = false ∧ ∀ job ∈ dm'.activeBlocks, job.Unfinished := by
  induction queue generalizing dm with
  | nil =>
    refine Or.inr ⟨dm, rfl, hq, ?_, hu⟩
    simpa [stops] using h
  | cons msg queue ih =>
    have hgoes := goesStalled_handle Err sha1 order { dm with queuedEvents := queue } msg
    rw [List.length_cons, pollQueue, hq]
    rw [stops] at h
    simp only at hgoes h ⊢
    cases hp : prospect sha1 order dm.torrents dm.fileCache msg with
    | ends =>
      rw [hp] at h
      cases h
    | panics =>
      rw [hp] at hgoes
      rw [show handle _ sha1 order { dm with queuedEvents := queue } msg = none from hgoes]
      exact Or.inl rfl
    | skips =>
      rw [hp] at hgoes h
      rw [show handle _ sha1 order { dm with queuedEvents := queue } msg = _ from hgoes]
      exact ih rfl hu h
    | starts cache =>
      rw [hp] at hgoes h
      obtain ⟨dm', hh, hstart⟩ := hgoes
      rw [hh]
      obtain ⟨job, hjobs, hjob⟩ := hstart.activeBlocks
      refine ih hstart.queuedEvents ?_ ?_
      · rw [hjobs]
        intro j hj
        rcases List.mem_append.mp hj with hj | hj
        · exact hu j hj
        · rw [List.mem_singleton.mp hj]
          exact hjob
      · have hsome : (dm.activeBlocks ++ [job]).isEmpty = false := List.isEmpty_eq_false_iff.mpr (by simp)
        rw [hstart.torrents, hstart.fileCache, hjobs, hsome]
        exact h

end

/-! ## the poll -/

/-- the poll is over, without a panic -/
def DiskPoll.Returns {σ : Type} : DiskPoll σ → Prop
  | .ready _ _ => True
  | .pending _ => True
  | .panic => False
  | .spinning _ => False

end DiskManager

/-- a read or write moves at most as many bytes as it is given room for -/
structure FileSystem.Bounded {File World Err : Type} (fs : FileSystem File World Err) : Prop where
  read : ∀ f n w bytes, (fs.pollReadBlock f n w).1 = .ready (.ok bytes) → bytes.length ≤ n
  write : ∀ f data w n, (fs.pollWriteBlock f data w).1 = .ready (.ok n) → n ≤ data.length

theorem FileSystem.bounded_stalled {File World Err : Type} [Inhabited File] :
    (FileSystem.stalled File World Err).Bounded := ⟨nofun, nofun⟩

namespace DiskManager
variable {File World Err : Type}

section
variable (sha1 : List UInt8 → ShaHash) (order : Arrangement FileEntry)

theorem isEmpty_eq_of_length {α : Type} {l l' : List α} (h : l'.length = l.length) : l'.isEmpty = l.isEmpty := by
  cases l <;> cases l' <;> simp_all

/-- the first round is the last if the active jobs are safe and the queue stops -/
theorem poll_returns (fs : FileSystem File World Err) {dm : DiskManager File World}
    (hsafe : ∀ job ∈ dm.activeBlocks, job.Safe)
    (hstops : stops sha1 order dm.torrents dm.queuedEvents dm.fileCache (!dm.activeBlocks.isEmpty) = true) :
    DiskPoll.Returns (poll fs sha1 order 1 dm) := by
  obtain ⟨out, dm1, hactive, hidle⟩ := pollActive_safe fs (Nat.le_refl dm.activeBlocks.length)
    (fun job hjob => hsafe job (List.mem_of_mem_take hjob))
  rw [poll, hactive]
  cases out with
  | some msg => trivial
  | none =>
    have hidle := hidle rfl
    obtain ⟨r, dm2, hqueue, hend⟩ := pollQueue_stops sha1 order fs hidle.queuedEvents
      (by rw [hidle.torrents, hidle.fileCache, isEmpty_eq_of_length hidle.activeBlocks]; exact hstops)
    simp only
    rw [hidle.queuedEvents, hqueue]
    cases r with
    | none =>
      simp only
      rw [if_pos (hend rfl)]
      trivial
    | some p => cases p <;> trivial

/-- with nothing queued and a job that waits the loop goes on for ever -/
theorem poll_spins [Inhabited File] {dm : DiskManager File World} (hq : dm.queuedEvents = [])
    (hne : dm.activeBlocks.isEmpty = false) (hu : ∀ job ∈ dm.activeBlocks, job.Unfinished) (rounds : Nat) :
    ¬ DiskPoll.Returns (poll (FileSystem.stalled File World Err) sha1 order rounds dm) := by
  induction rounds generalizing dm with
  | zero => exact id
  | succ rounds ih =>
    obtain ⟨hgo, hpanic⟩ := pollActive_stalled Err (Nat.le_refl dm.activeBlocks.length) hu
    by_cases hsafe : ∀ job ∈ dm.activeBlocks.take dm.activeBlocks.length, job.Safe
    · obtain ⟨dm1, hactive, hidle, hu1⟩ := hgo hsafe
      have hq1 : dm1.queuedEvents = [] := hidle.queuedEvents.trans hq
      have hne1 : dm1.activeBlocks.isEmpty = false := (isEmpty_eq_of_length hidle.activeBlocks).trans hne
      rw [poll, hactive]
      simp only [hq1, List.length_nil, pollQueue, hne1]
      exact ih hq1 hne1 hu1
    · rw [poll, hpanic hsafe]
      exact id

/-- otherwise the stalled disk keeps the poll from returning -/
theorem poll_stalls [Inhabited File] {dm : DiskManager File World} (hu : ∀ job ∈ dm.activeBlocks, job.Unfinished)
    (h : (∀ job ∈ dm.activeBlocks, job.Safe) →
      stops sha1 order dm.torrents dm.queuedEvents dm.fileCache (!dm.activeBlocks.isEmpty) = false)
    (rounds : Nat) : ¬ DiskPoll.Returns (poll (FileSystem.stalled File World Err) sha1 order rounds dm) := by
  cases rounds with
  | zero => exact id
  | succ rounds =>
    obtain ⟨hgo, hpanic⟩ := pollActive_stalled Err (Nat.le_refl dm.activeBlocks.length) hu
    rw [List.take_length] at hgo hpanic
    by_cases hsafe : ∀ job ∈ dm.activeBlocks, job.Safe
    · obtain ⟨dm1, hactive, hidle, hu1⟩ := hgo hsafe
      rw [poll, hactive]
      simp only
      have hqueue := pollQueue_stalled sha1 order Err hidle.queuedEvents hu1
        (by rw [hidle.torrents, hidle.fileCache, isEmpty_eq_of_length hidle.activeBlocks]; exact h hsafe)
      rw [hidle.queuedEvents]
      rcases hqueue with hqueue | ⟨dm2, hqueue, hq2, hne2, hu2⟩
      · rw [hqueue]
        exact id
      · rw [hqueue]
        simp only [hne2]
        exact poll_spins sha1 order hq2 hne2 hu2 rounds
    · rw [poll, hpanic hsafe]
      exact id

end

/-- no active job is done -/
theorem Moved.unfinished {fs : FileSystem File World Err} {sha1 : List UInt8 → ShaHash}
    {dm dm' : DiskManager File World} (hfiled : dm.Filed) (hu : ∀ job ∈ dm.activeBlocks, job.Unfinished)
    {op : DiskOp} {out : Option DiskMessageOut} (h : Moved fs sha1 dm op out dm') :
    ∀ job ∈ dm'.activeBlocks, job.Unfinished := by
  cases h with
  | call h => exact hu
  | idle h => exact hu
  | job h =>
    cases h with
    | finished hjobs h =>
      intro job hjob
      exact hu job (hjobs.mem_iff.mpr (List.mem_cons_of_mem _ hjob))
    | pending hjobs h =>
      intro job hjob
      rcases List.mem_append.mp hjob with hjob | hjob
      · exact hu job (hjobs.mem_iff.mpr (List.mem_cons_of_mem _ hjob))
      · rw [List.mem_singleton.mp hjob]
        exact BlockJob.unfinished_poll _ h
  | message hq h =>
    cases h with
    | @removed id =>
      unfold DiskManager.removeTorrent
      split <;> exact hu
    | refused hmsg h =>
      rw [h.frame.activeBlocks]
      exact hu
    | @started _ id _ files job dm1 hmsg hgood h hjob =>
      have hne := (h.torrent_of_mem fun F hF => (hfiled id F hF).1).1
      intro j hj
      rcases List.mem_append.mp hj with hj | hj
      · rw [h.frame.activeBlocks] at hj
        exact hu j hj
      · rw [List.mem_singleton.mp hj]
        exact unfinished_jobFor hne hjob
    | requeued hmsg hgood h =>
      intro j hj
      rw [show (DiskManager.push _ _).activeBlocks = _ from h.frame.activeBlocks] at hj
      exact hu j hj
    | _ => exact hu

/-- **When a poll returns.**  In every state a run can reach, a poll returns whatever the file system does
exactly if no active job can slice out of range and the queue stops: a message that is answered at once or has
to wait comes before any that panics, or nothing is queued and no job is active. -/
theorem returns_iff [Inhabited File] (fs : FileSystem File World Err) (sha1 : List UInt8 → ShaHash) (world : World)
    (capacity : Nat) (ops : List DiskOp) (dm : DiskManager File World)
    (hrun : exec (next fs sha1) (some (withCapacity world capacity)) ops = some dm)
    (order : Arrangement FileEntry) :
    (∀ fs' : FileSystem File World Err, fs'.Bounded →
        ∃ rounds, DiskPoll.Returns (poll fs' sha1 order rounds dm)) ↔
      (∀ job ∈ dm.activeBlocks, job.Safe) ∧
        stops sha1 order dm.torrents dm.queuedEvents dm.fileCache (!dm.activeBlocks.isEmpty) = true := by
  have hinv : dm.Filed ∧ ∀ job ∈ dm.activeBlocks, job.Unfinished := by
    refine exec_some (I := fun dm => dm.Filed ∧ ∀ job ∈ dm.activeBlocks, job.Unfinished) ?_ ?_ hrun
    · rintro dm op out dm' ⟨hfiled, hu⟩ h
      exact ⟨hfiled.moved h, h.unfinished hfiled hu⟩
    · exact ⟨filed_withCapacity world capacity, fun job hjob => by cases hjob⟩
  constructor
  · intro hall
    by_contra hnot
    obtain ⟨rounds, hreturns⟩ := hall (FileSystem.stalled File World Err) FileSystem.bounded_stalled
    refine poll_stalls sha1 order hinv.2 ?_ rounds hreturns
    intro hsafe
    exact Bool.eq_false_iff.mpr fun hstops => hnot ⟨hsafe, hstops⟩
  · rintro ⟨hsafe, hstops⟩ fs' -
    exact ⟨1, poll_returns sha1 order fs' hsafe hstops⟩

/-- a read of torrent 0 is started, and nothing else is queued -/
def readStarted : List DiskOp :=
  [.addTorrent ⟨0⟩ oneByte, .pollMessage .same, .readBlock ⟨0⟩ ⟨0, 0, 1⟩, .pollMessage .same]

/-- with a second read queued, for the file the first one holds, a poll returns -/
theorem returns_behind_read :
    ∃ dm, exec (next instantDisk firstByte) (some (withCapacity () 4)) (readStarted ++ [.readBlock ⟨0⟩ ⟨0, 0, 1⟩])
        = some dm ∧
      ∀ fs' : FileSystem Unit Unit Unit, fs'.Bounded →
        ∃ rounds, DiskPoll.Returns (poll fs' firstByte .same rounds dm) := by
  refine ⟨_, rfl, ?_⟩
  refine (returns_iff instantDisk firstByte () 4 (readStarted ++ [.readBlock ⟨0⟩ ⟨0, 0, 1⟩]) _ rfl .same).mpr ⟨?_, ?_⟩
  · intro job hjob
    rw [List.mem_singleton.mp hjob]
    trivial
  · decide

/-- the one job of this run waits for its data, the queue is empty, and the poll does not return -/
theorem poll_never_returns :
    ∃ dm, exec (next instantDisk firstByte) (some (withCapacity () 4)) readStarted = some dm ∧
      dm.queuedEvents = [] ∧ dm.activeBlocks.length = 1 ∧
      ¬ ∀ fs' : FileSystem Unit Unit Unit, fs'.Bounded →
        ∃ rounds, DiskPoll.Returns (poll fs' firstByte .same rounds dm) := by
  refine ⟨_, rfl, rfl, rfl, ?_⟩
  intro hall
  obtain ⟨rounds, hreturns⟩ := hall (FileSystem.stalled Unit Unit Unit) FileSystem.bounded_stalled
  refine poll_spins firstByte .same rfl rfl ?_ rounds hreturns
  intro job hjob
  rw [List.mem_singleton.mp hjob]
  nofun

end DiskManager

end Btt
