import BitTorrent.Disk.Cache
import BitTorrent.Disk.Parts

/-!
# When a request gets its files

A file that no job uses is in the cache as `Ready` or as `Queued`, or it has to be opened.  `Queued` bears
the window of the request that waits for it, and only a request with this window gets the file; any other
is told to wait, and puts the file back under its own window, so that the first one finds a strange window
in its turn.

* `Acquires`             the search for the files of a block ends with all of them;
* `Reserved`             every queued file of the block waits for this window of it;
* `takeFiles_cons_idle`, `takeFiles_idle`   what is taken where no file is busy and every open succeeds;
* `idle_files_acquired_iff`   idle files are acquired exactly if there are any and they are reserved.
-/

namespace Btt
open Run

/-- these files open, one after the other -/
def FileSystem.OpensAll {File World Err : Type} (fs : FileSystem File World Err) : List FileEntry → World → Prop
  | [], _ => True
  | entry :: entries, w =>
    ∃ f w', fs.pollOpenFile entry.path w = (.ready (.ok f), w') ∧ fs.OpensAll entries w'

namespace DiskManager
variable {File World Err : Type}

/-- the files of a block that are not in the cache -/
def missing (c : LruCache TorrentFileId (FileState File)) (files : List (FileEntry × FileWindow)) : List FileEntry :=
  (files.map Prod.fst).filter fun entry => (c.lookup entry.id).isNone

/-- no job uses one of the files -/
def Idle (c : LruCache TorrentFileId (FileState File)) (files : List (FileEntry × FileWindow)) : Prop :=
  ∀ x ∈ files, ∀ window, c.lookup x.1.id ≠ some (.busy window)

/-- the files that wait for a request wait for one with these windows -/
def Reserved (c : LruCache TorrentFileId (FileState File)) (files : List (FileEntry × FileWindow)) : Prop :=
  ∀ x ∈ files, ∀ f window, c.lookup x.1.id = some (.queued f window) → window = x.2

/-- the block gets its files: one for each window, in the order of the windows -/
def Acquires (fs : FileSystem File World Err) (order : Arrangement FileEntry) (dm : DiskManager File World)
    (id : TorrentId) (metadata : BlockMetadata) (files : List (FileEntry × FileWindow)) : Prop :=
  ∃ acquired dm', pollFiles fs order dm id metadata = some (.ready (.ok acquired), dm') ∧
    acquired.map (fun x => (x.1, x.2.id)) = files.map fun x => (x.2, x.1.id)

/-! ## taking idle files -/

section
variable {c c' : LruCache TorrentFileId (FileState File)} {files : List (FileEntry × FileWindow)}

theorem missing_congr (h : ∀ x ∈ files, c'.lookup x.1.id = c.lookup x.1.id) : missing c' files = missing c files := by
  unfold missing
  refine List.filter_congr ?_
  intro entry hentry
  obtain ⟨x, hx, rfl⟩ := List.mem_map.mp hentry
  rw [h x hx]

theorem reserved_congr (h : ∀ x ∈ files, c'.lookup x.1.id = c.lookup x.1.id) : Reserved c' files ↔ Reserved c files :=
  forall₂_congr fun x hx => by rw [h x hx]

theorem reserved_cons {file : FileEntry} {window : FileWindow} :
    Reserved c ((file, window) :: files) ↔
      (∀ f w, c.lookup file.id = some (.queued f w) → w = window) ∧ Reserved c files :=
  List.forall_mem_cons

theorem missing_cons (file : FileEntry) (window : FileWindow) :
    missing c ((file, window) :: files)
      = if (c.lookup file.id).isNone then file :: missing c files else missing c files := by
  unfold missing
  rw [List.map_cons, List.filter_cons]

end

section
variable {fs : FileSystem File World Err} {order : Arrangement FileEntry} {dm : DiskManager File World}
  {files : List (FileEntry × FileWindow)}

/-- one idle file, which opens if it has to, is taken; it is ready if it does not wait for another window -/
theorem takeFiles_cons_idle {file : FileEntry} {window : FileWindow}
    (hidle : ∀ w, dm.fileCache.lookup file.id ≠ some (.busy w))
    (hopen : fs.OpensAll (missing dm.fileCache ((file, window) :: files)) dm.world)
    (queued : List (TorrentFileId × File × FileWindow)) (allReady : Bool) :
    ∃ f ready1 dm1, takeFiles fs ((file, window) :: files) queued allReady dm
        = takeFiles fs files (queued ++ [(file.id, f, window)]) ready1 dm1 ∧
      (∀ id, id ≠ file.id → dm1.fileCache.lookup id = dm.fileCache.lookup id) ∧
      fs.OpensAll (missing dm.fileCache files) dm1.world ∧
      (ready1 = true ↔ allReady = true ∧
        ∀ g w, dm.fileCache.lookup file.id = some (.queued g w) → w = window) := by
  have hremoved : ∀ id, id ≠ file.id → (dm.fileCache.remove file.id).2.lookup id = dm.fileCache.lookup id :=
    fun _ hne => LruCache.lookup_remove_ne _ hne
  rw [missing_cons] at hopen
  rw [takeFiles_cons]
  cases hlook : dm.fileCache.lookup file.id with
  | none =>
    rw [hlook] at hopen
    obtain ⟨f, w, hf, hopen⟩ := hopen
    simp only [hf]
    refine ⟨f, allReady, { dm with world := w }, rfl, fun _ _ => rfl, hopen, fun h => ⟨h, ?_⟩, And.left⟩
    intro g w e
    cases e
  | some state =>
    rw [hlook] at hopen
    cases state with
    | ready f =>
      refine ⟨f, allReady, _, rfl, hremoved, hopen, fun h => ⟨h, ?_⟩, And.left⟩
      intro g w e
      cases e
    | queued f queuedWindow =>
      refine ⟨f, allReady && window = queuedWindow, _, rfl, hremoved, hopen, ?_⟩
      rw [Bool.and_eq_true, decide_eq_true_iff]
      refine and_congr_right fun _ => ⟨?_, ?_⟩
      · intro heq g w e
        cases e
        exact heq.symm
      · intro h
        exact (h f queuedWindow rfl).symm
    | busy w => exact (hidle w hlook).elim

/-- idle files that open where they have to are all taken; they are ready if they are reserved -/
theorem takeFiles_idle (hids : (files.map fun x => x.1.id).Nodup) (hidle : Idle dm.fileCache files)
    (hopen : fs.OpensAll (missing dm.fileCache files) dm.world)
    (queued : List (TorrentFileId × File × FileWindow)) (allReady : Bool) :
    ∃ taken ready dm', takeFiles fs files queued allReady dm = (.ok (queued ++ taken, ready), dm') ∧
      taken.map (fun x => (x.1, x.2.2)) = files.map (fun x => (x.1.id, x.2)) ∧
      (ready = true ↔ allReady = true ∧ Reserved dm.fileCache files) := by
  induction files generalizing queued allReady dm with
  | nil =>
    refine ⟨[], allReady, dm, by rw [List.append_nil]; rfl, rfl, fun h => ⟨h, ?_⟩, And.left⟩
    intro x hx
    cases hx
  | cons file files ih =>
    obtain ⟨file, window⟩ := file
    obtain ⟨hnot, hids⟩ := List.nodup_cons.mp hids
    obtain ⟨hfirst, hothers⟩ := List.forall_mem_cons.mp hidle
    obtain ⟨f, ready1, dm1, hstep, hkept, hopen1, hready1⟩ := takeFiles_cons_idle hfirst hopen queued allReady
    -- nothing changes for the others
    have hsame : ∀ x ∈ files, dm1.fileCache.lookup x.1.id = dm.fileCache.lookup x.1.id :=
      fun x hx => hkept _ fun heq => hnot (List.mem_map.mpr ⟨x, hx, heq⟩)
    have hidle1 : Idle dm1.fileCache files := by
      intro x hx w
      rw [hsame x hx]
      exact hothers x hx w
    obtain ⟨taken, ready, dm', hrest, htaken, hready⟩ :=
      ih hids hidle1 (by rwa [missing_congr hsame]) (queued ++ [(file.id, f, window)]) ready1
    refine ⟨(file.id, f, window) :: taken, ready, dm', ?_, congrArg ((file.id, window) :: ·) htaken, ?_⟩
    · rw [hstep, hrest, List.append_assoc, List.singleton_append]
    · rw [hready, hready1, reserved_congr hsame, reserved_cons, and_assoc]

/-- idle files are acquired exactly if there are any and they are reserved -/
theorem acquires_iff {id : TorrentId} {metadata : BlockMetadata} {torrent : TorrentFile} (hfiled : dm.Filed)
    (hid : dm.torrents.lookup id = some torrent) (hfiles : torrent.filesForBlock order metadata = some (.ok files))
    (hidle : Idle dm.fileCache files) (hopen : fs.OpensAll (missing dm.fileCache files) dm.world) :
    Acquires fs order dm id metadata files ↔ files ≠ [] ∧ Reserved dm.fileCache files := by
  obtain ⟨taken, ready, dm', htake, htaken, hready⟩ :=
    takeFiles_idle (TorrentFile.nodup_filesForBlock (hfiled id torrent hid).2 hfiles) hidle hopen [] true
  unfold Acquires pollFiles
  simp only [hid, hfiles]
  by_cases hnil : files = []
  · rw [if_pos (List.isEmpty_iff.mpr hnil)]
    constructor
    · rintro ⟨acquired, dm', h, -⟩
      cases h
    · intro h
      exact (h.1 hnil).elim
  · rw [if_neg fun h => hnil (List.isEmpty_iff.mp h), htake]
    cases ready with
    | true =>
      refine ⟨fun _ => ⟨hnil, (hready.mp rfl).2⟩, fun _ => ⟨_, _, rfl, ?_⟩⟩
      rw [List.nil_append, List.map_map]
      have hswap := congrArg (List.map Prod.swap) htaken
      rw [List.map_map, List.map_map] at hswap
      exact hswap
    | false =>
      constructor
      · rintro ⟨acquired, dm', h, -⟩
        cases h
      · rintro ⟨-, h⟩
        cases hready.mpr ⟨rfl, h⟩

end

/-! ## reachable managers -/

/-- **Idle files are acquired exactly if they are reserved**: in every state a run reaches, a block none of
whose files is busy and whose missing files open gets its files, each with its window and in their order, if
and only if it has files and those that are queued wait for its windows. -/
theorem idle_files_acquired_iff (fs : FileSystem File World Err) (sha1 : List UInt8 → ShaHash) (world : World)
    (capacity : Nat) (ops : List DiskOp) (dm : DiskManager File World)
    (hdm : exec (next fs sha1) (some (withCapacity world capacity)) ops = some dm) (order : Arrangement FileEntry)
    (id : TorrentId) (metadata : BlockMetadata) (torrent : TorrentFile) (files : List (FileEntry × FileWindow))
    (hid : dm.torrents.lookup id = some torrent) (hfiles : torrent.filesForBlock order metadata = some (.ok files))
    (hidle : Idle dm.fileCache files) (hopen : fs.OpensAll (missing dm.fileCache files) dm.world) :
    Acquires fs order dm id metadata files ↔ files ≠ [] ∧ Reserved dm.fileCache files := by
  have hfiled : dm.Filed :=
    exec_some (fun _ _ _ _ hf hm => hf.moved hm) (filed_withCapacity world capacity) hdm
  exact acquires_iff hfiled hid hfiles hidle hopen

/-- a block of two files that have not been opened yet -/
theorem idle_files_acquired_two_files :
    ∃ dm torrent files,
      exec (next instantDisk firstByte) (some (withCapacity () 100)) [.addTorrent ⟨0⟩ twoFiles, .pollMessage .same]
        = some dm ∧
      dm.torrents.lookup ⟨0⟩ = some torrent ∧ torrent.filesForBlock .same ⟨0, 0, 2⟩ = some (.ok files) ∧
      Acquires instantDisk .same dm ⟨0⟩ ⟨0, 0, 2⟩ files := by
  refine ⟨_, _, _, rfl, rfl, rfl, ?_⟩
  refine (idle_files_acquired_iff instantDisk firstByte () 100 [.addTorrent ⟨0⟩ twoFiles, .pollMessage .same] _ rfl
    .same ⟨0⟩ ⟨0, 0, 2⟩ _ _ rfl rfl ?_ ?_).mpr ⟨List.cons_ne_nil _ _, ?_⟩
  · intro x _ window h
    cases h
  · exact ⟨(), (), rfl, (), (), rfl, trivial⟩
  · intro x _ f window h
    cases h

/-- while the first byte of a block of two files is read, the whole block and its second byte are asked for;
the file of the first byte is free again, and both requests are polled once more -/
def competing : List DiskOp :=
  [.addTorrent ⟨0⟩ twoFiles, .pollMessage .same, .readBlock ⟨0⟩ ⟨0, 0, 1⟩, .pollMessage .same,
    .readBlock ⟨0⟩ ⟨0, 0, 2⟩, .readBlock ⟨0⟩ ⟨0, 1, 1⟩, .pollMessage .same, .pollJob 0, .pollMessage .same,
    .pollMessage .same]

/-- from here on the two requests take turns in putting each other back -/
theorem competing_alternates (n : Nat) :
    exec (next instantDisk firstByte) (some (withCapacity () 100)) (competing ++ List.replicate n (.pollMessage .same))
        = exec (next instantDisk firstByte) (some (withCapacity () 100)) competing ∨
    exec (next instantDisk firstByte) (some (withCapacity () 100)) (competing ++ List.replicate n (.pollMessage .same))
        = exec (next instantDisk firstByte) (some (withCapacity () 100)) (competing ++ [.pollMessage .same]) := by
  induction n with
  | zero => exact Or.inl rfl
  | succ n ih =>
    rw [List.replicate_succ', ← List.append_assoc, exec_snoc]
    rcases ih with h | h
    · rw [h]
      exact Or.inr rfl
    · rw [h]
      exact Or.inl rfl

/-- the second byte is not acquired, though its file is in the cache and no job is active; neither request ever
gets its files, however often they are polled -/
theorem reserved_for_another :
    (∃ dm torrent files, exec (next instantDisk firstByte) (some (withCapacity () 100)) competing = some dm ∧
      dm.torrents.lookup ⟨0⟩ = some torrent ∧ torrent.filesForBlock .same ⟨0, 1, 1⟩ = some (.ok files) ∧
      Idle dm.fileCache files ∧ instantDisk.OpensAll (missing dm.fileCache files) dm.world ∧
      ¬ Acquires instantDisk .same dm ⟨0⟩ ⟨0, 1, 1⟩ files) ∧
    ∀ n, ∃ dm, exec (next instantDisk firstByte) (some (withCapacity () 100))
        (competing ++ List.replicate n (.pollMessage .same)) = some dm ∧ dm.activeBlocks = [] ∧
      dm.queuedEvents.Perm [.readBlock ⟨0⟩ ⟨0, 0, 2⟩, .readBlock ⟨0⟩ ⟨0, 1, 1⟩] := by
  constructor
  · refine ⟨_, _, _, rfl, rfl, rfl, ?_, trivial, ?_⟩
    · intro x hx window h
      rw [List.mem_singleton.mp hx] at h
      cases h
    · rintro ⟨acquired, dm', h, -⟩
      cases h
  · intro n
    rcases competing_alternates n with h | h
    · exact ⟨_, h, rfl, List.Perm.swap _ _ _⟩
    · exact ⟨_, h, rfl, List.Perm.refl _⟩

end DiskManager

end Btt
