import BitTorrent.Disk.Cache
import BitTorrent.Disk.Moves

/-!
# A file is used by one job at a time

A file that a job holds is marked `Busy` in the file cache, and a request that finds it so has to wait.  The
mark is an entry of a bounded LRU cache: inserting other files can drop it, and then the file is opened a
second time.

* `Exclusive`        no file is held twice, and every file held is marked;
* `KeepsBusy`        the guard: the files a request puts into the cache drop no mark;
* `exclusive_iff`    all states of a run are exclusive exactly if all its steps meet the guard.
-/

namespace Btt
open Run

def FileState.isBusy {File : Type} : FileState File → Bool
  | .busy _ => true
  | _ => false

namespace DiskManager
variable {File World Err : Type}

/-- the files the active jobs hold -/
def heldIds (dm : DiskManager File World) : List TorrentFileId := dm.activeBlocks.flatMap BlockJob.fileIds

/-- no file is held twice, and every file held is marked in the cache -/
structure Exclusive (dm : DiskManager File World) : Prop where
  nodup : dm.heldIds.Nodup
  busy : ∀ id ∈ dm.heldIds, ∃ window, dm.fileCache.lookup id = some (.busy window)

/-! ## taking files -/

section
variable {fs : FileSystem File World Err} {sha1 : List UInt8 → ShaHash} {order : Arrangement FileEntry}
  {dm dm' : DiskManager File World}

/-- `c'` is `c` less some entries, none of them a mark -/
structure Thins (c c' : LruCache TorrentFileId (FileState File)) : Prop where
  wf : c'.WF
  capacity : c'.capacity = c.capacity
  mem : ∀ e ∈ c'.entries, e ∈ c.entries
  busy : ∀ id window, (id, .busy window) ∈ c.entries → (id, .busy window) ∈ c'.entries

theorem Thins.refl {c : LruCache TorrentFileId (FileState File)} (h : c.WF) : Thins c c :=
  ⟨h, rfl, fun _ he => he, fun _ _ he => he⟩

theorem Thins.trans {a b c : LruCache TorrentFileId (FileState File)} (h : Thins a b) (h' : Thins b c) :
    Thins a c :=
  ⟨h'.wf, h'.capacity.trans h.capacity, fun e he => h.mem e (h'.mem e he),
    fun id window he => h'.busy id window (h.busy id window he)⟩

/-- a file that is not marked may be taken out -/
theorem thins_remove {c : LruCache TorrentFileId (FileState File)} (h : c.WF) {id : TorrentFileId}
    {state : FileState File} (hid : c.lookup id = some state) (hstate : state.isBusy = false) :
    Thins c (c.remove id).2 := by
  refine ⟨h.remove id, rfl, fun e he => (h.mem_remove.mp he).1, ?_⟩
  intro id' window hmem
  refine h.mem_remove.mpr ⟨hmem, ?_⟩
  rintro rfl
  rw [h.unique (LruCache.mem_of_lookup hid) hmem] at hstate
  cases hstate

/-- a marked file that is taken out and put back is the most recent one, and that is all -/
theorem thins_back {c : LruCache TorrentFileId (FileState File)} (h : c.WF) {id : TorrentFileId}
    {window : FileWindow} (hid : c.lookup id = some (.busy window)) :
    Thins c ((c.remove id).2.insert id (.busy window)) ∧
      ∀ k, k ∈ ((c.remove id).2.insert id (.busy window)).keys → k ∈ c.keys := by
  have hmem := LruCache.mem_of_lookup hid
  have hk : id ∉ (c.remove id).2.keys := by
    intro hk
    obtain ⟨e, he, rfl⟩ := List.mem_map.mp hk
    exact (h.mem_remove.mp he).2 rfl
  have hfits : (c.remove id).2.entries.length + 1 ≤ c.capacity := by
    have hlen := LruCache.length_eraseP (LruCache.mem_keys_of_mem hmem)
    have hle := h.length_le
    show (c.entries.eraseP _).length + 1 ≤ _
    omega
  have hentries : ((c.remove id).2.insert id (.busy window)).entries
      = (c.remove id).2.entries ++ [(id, .busy window)] := by
    rw [LruCache.entries_insert_fresh (h.remove id).length_le hk, show (c.remove id).2.capacity = c.capacity from rfl,
      Nat.sub_eq_zero_of_le hfits, List.drop_zero]
  have hsub : ∀ e ∈ ((c.remove id).2.insert id (.busy window)).entries, e ∈ c.entries := by
    intro e he
    rw [hentries] at he
    rcases List.mem_append.mp he with he | he
    · exact (h.mem_remove.mp he).1
    · rw [List.mem_singleton.mp he]
      exact hmem
  refine ⟨⟨(h.remove id).insert_fresh hk _, rfl, hsub, ?_⟩, ?_⟩
  · intro id' window' hmem'
    rw [hentries, List.mem_append, List.mem_singleton]
    by_cases heq : id' = id
    · rw [heq] at hmem' ⊢
      rw [h.unique hmem' hmem]
      exact Or.inr rfl
    · exact Or.inl (h.mem_remove.mpr ⟨hmem', heq⟩)
  · intro k hk
    obtain ⟨e, he, rfl⟩ := List.mem_map.mp hk
    exact List.mem_map_of_mem (hsub e he)

/-- taking files leaves the marks alone; what is taken is no longer in the cache -/
theorem takeFiles_cache {files : List (FileEntry × FileWindow)}
    {queued : List (TorrentFileId × File × FileWindow)} {allReady : Bool}
    {r : Except TorrentError (List (TorrentFileId × File × FileWindow) × Bool)}
    (h : takeFiles fs files queued allReady dm = (r, dm')) (hwf : dm.fileCache.WF)
    (hqueued : ∀ x ∈ queued, x.1 ∉ dm.fileCache.keys) :
    Thins dm.fileCache dm'.fileCache ∧ ∀ q ready, r = .ok (q, ready) → ∀ x ∈ q, x.1 ∉ dm'.fileCache.keys := by
  induction files generalizing queued allReady dm with
  | nil =>
    cases h
    refine ⟨Thins.refl hwf, ?_⟩
    intro q ready hq
    cases hq
    exact hqueued
  | cons file files ih =>
    obtain ⟨file, window⟩ := file
    -- the file is taken out of the cache, or was not in it
    have hmore : ∀ (f : File) (c : LruCache TorrentFileId (FileState File)), Thins dm.fileCache c →
        file.id ∉ c.keys → ∀ x ∈ queued ++ [(file.id, f, window)], x.1 ∉ c.keys := by
      intro f c hthins hid x hx
      rcases List.mem_append.mp hx with hx | hx
      · intro hk
        obtain ⟨e, he, hex⟩ := List.mem_map.mp hk
        exact hqueued x hx (List.mem_map.mpr ⟨e, hthins.mem e he, hex⟩)
      · rw [List.mem_singleton.mp hx]
        exact hid
    have hgone : file.id ∉ (dm.fileCache.remove file.id).2.keys := by
      intro hk
      obtain ⟨e, he, heq⟩ := List.mem_map.mp hk
      exact (hwf.mem_remove.mp he).2 heq
    rw [takeFiles_cons] at h
    split at h
    · rename_i f hlook
      have hthins := thins_remove hwf hlook rfl
      obtain ⟨h1, h2⟩ := ih h hthins.wf (hmore f _ hthins hgone)
      exact ⟨hthins.trans h1, h2⟩
    · rename_i f queuedWindow hlook
      have hthins := thins_remove hwf hlook rfl
      obtain ⟨h1, h2⟩ := ih h hthins.wf (hmore f _ hthins hgone)
      exact ⟨hthins.trans h1, h2⟩
    · rename_i piece hlook
      obtain ⟨hthins, hkeys⟩ := thins_back hwf hlook
      obtain ⟨h1, h2⟩ := ih h hthins.wf fun x hx hk => hqueued x hx (hkeys x.1 hk)
      exact ⟨hthins.trans h1, h2⟩
    · rename_i hlook
      have hnone := LruCache.not_mem_keys_of_lookup hlook
      split at h
      · have hnext := ih h
        exact hnext hwf (hmore _ _ (Thins.refl hwf) hnone)
      · cases h
        refine ⟨Thins.refl hwf, ?_⟩
        intro q ready hq
        cases hq
      · cases h
        refine ⟨Thins.refl hwf, ?_⟩
        intro q ready hq
        cases hq
        exact hqueued

/-! ## the guard -/

/-- the entries for the files a request got hold of: marks if it has them all, else they wait -/
def cached (ready : Bool) (queued : List (TorrentFileId × File × FileWindow)) :
    List (TorrentFileId × FileState File) :=
  if ready then heldFiles queued else waitingFiles queued

/-- the request at the head of the queue got hold of the files `queued`, all it needs if `ready`, and left the
manager `dm1` -/
structure Obtains (fs : FileSystem File World Err) (sha1 : List UInt8 → ShaHash) (order : Arrangement FileEntry)
    (dm : DiskManager File World) (msg : DiskMessageIn) (queued : List (TorrentFileId × File × FileWindow))
    (ready : Bool) (dm1 : DiskManager File World) : Prop where
  good : ∀ id block, msg = .writeBlock id block → dm.isGoodPiece sha1 id block = true
  files : ∃ id metadata files, msg.request = some (id, metadata) ∧ dm.Touches order id metadata files ∧
    takeFiles fs files [] true dm = (.ok (queued, ready), dm1)

/-- **The guard**: the files a request puts into the cache drop no mark from it.  A step that panics leaves
nothing to guard. -/
def KeepsBusy (fs : FileSystem File World Err) (sha1 : List UInt8 → ShaHash)
    (s : Option (DiskManager File World)) (op : DiskOp) : Prop :=
  ∀ dm dm' order msg queue queued ready dm1, s = some dm → op = .pollMessage order →
    next fs sha1 s op = some dm' → dm.queuedEvents = msg :: queue →
    Obtains fs sha1 order { dm with queuedEvents := queue } msg queued ready dm1 →
    ∀ e ∈ dm1.fileCache.dropped (cached ready queued), e.2.isBusy = false

/-! ## the invariant -/

/-- exclusive, every mark is a job's, and the cache is well formed -/
structure Marked (dm : DiskManager File World) : Prop where
  wf : dm.fileCache.WF
  nodup : dm.heldIds.Nodup
  busy : ∀ id ∈ dm.heldIds, ∃ window, (id, .busy window) ∈ dm.fileCache.entries
  held : ∀ id window, (id, .busy window) ∈ dm.fileCache.entries → id ∈ dm.heldIds

theorem Marked.exclusive (h : dm.Marked) : dm.Exclusive := by
  refine ⟨h.nodup, ?_⟩
  intro id hid
  obtain ⟨window, hw⟩ := h.busy id hid
  exact ⟨window, h.wf.mem_iff_lookup.mp hw⟩

theorem marked_withCapacity (world : World) (capacity : Nat) :
    (withCapacity world capacity : DiskManager File World).Marked := by
  refine ⟨LruCache.wf_empty capacity, List.nodup_nil, ?_, ?_⟩
  · intro id hid
    cases hid
  · intro id window hmem
    cases hmem

theorem ids_cached (ready : Bool) (queued : List (TorrentFileId × File × FileWindow)) :
    (cached ready queued).map Prod.fst = queued.map Prod.fst := by
  unfold cached heldFiles waitingFiles
  split <;> rw [List.map_map] <;> rfl

theorem fileIds_jobFor {files : List (FileWindow × BlockFile File)} {msg : DiskMessageIn} {job : BlockJob File}
    (h : jobFor files msg = some job) : job.fileIds = files.map fun x => x.2.id := by
  cases msg with
  | readBlock id m =>
    simp only [jobFor] at h
    split at h
    · cases h
      rfl
    · cases h
      show ((files.map _).map BlockFileRead.file).map BlockFile.id = _
      rw [List.map_map, List.map_map]
      rfl
  | writeBlock id block =>
    simp only [jobFor] at h
    split at h
    · cases h
      rfl
    · obtain ⟨bs, hbs, h⟩ := Option.map_eq_some_iff.mp h
      cases h
      show (bs.map BlockFileWrite.file).map BlockFile.id = _
      rw [← (fragments_spec hbs).1, List.map_map, List.map_map]
      rfl
  | _ => cases h

/-- what a request got hold of is new to the cache it left, which has all marks still -/
theorem Obtains.fresh {msg : DiskMessageIn} {queued : List (TorrentFileId × File × FileWindow)} {ready : Bool}
    {dm1 : DiskManager File World} (h : Obtains fs sha1 order dm msg queued ready dm1) (hfiled : dm.Filed)
    (hwf : dm.fileCache.WF) :
    Thins dm.fileCache dm1.fileCache ∧ (dm1.fileCache.keys ++ (cached ready queued).map Prod.fst).Nodup := by
  obtain ⟨id, m, files, -, ⟨⟨torrent, hid, hfiles⟩, -⟩, htake⟩ := h.files
  obtain ⟨hthins, hnew⟩ := takeFiles_cache htake hwf fun x hx => by cases hx
  obtain ⟨taken, htaken, hsub, -⟩ := takeFiles_spec htake
  rw [List.nil_append] at htaken
  subst htaken
  refine ⟨hthins, ?_⟩
  rw [ids_cached, List.nodup_append]
  refine ⟨hthins.wf.nodup, hsub.nodup (TorrentFile.nodup_filesForBlock (hfiled id torrent hid).2 hfiles), ?_⟩
  rintro a ha b hb rfl
  obtain ⟨x, hx, rfl⟩ := List.mem_map.mp hb
  exact hnew queued ready rfl x hx ha

/-- only the cache and the active jobs matter -/
theorem Marked.congr (h : dm.Marked) (hcache : dm'.fileCache = dm.fileCache)
    (hactive : dm'.activeBlocks = dm.activeBlocks) : dm'.Marked := by
  have hheld : dm'.heldIds = dm.heldIds := congrArg (List.flatMap BlockJob.fileIds) hactive
  refine ⟨hcache ▸ h.wf, hheld ▸ h.nodup, ?_, ?_⟩
  · rw [hheld, hcache]
    exact h.busy
  · rw [hheld, hcache]
    exact h.held

/-- an open that failed: some files are no longer in the cache, but no mark is gone -/
theorem Marked.thins (h : dm.Marked) (hthins : Thins dm.fileCache dm'.fileCache)
    (hactive : dm'.activeBlocks = dm.activeBlocks) : dm'.Marked := by
  have hheld : dm'.heldIds = dm.heldIds := congrArg (List.flatMap BlockJob.fileIds) hactive
  refine ⟨hthins.wf, hheld ▸ h.nodup, ?_, ?_⟩
  · rw [hheld]
    intro id hid
    obtain ⟨window, hw⟩ := h.busy id hid
    exact ⟨window, hthins.busy id window hw⟩
  · rw [hheld]
    intro id window hw
    exact h.held id window (hthins.mem _ hw)

/-! ### a request and the cache -/

section
variable {msg : DiskMessageIn} {queued : List (TorrentFileId × File × FileWindow)} {ready : Bool}
  {dm1 : DiskManager File World}

theorem isBusy_waiting {e : TorrentFileId × FileState File} (h : e ∈ waitingFiles queued) : e.2.isBusy = false := by
  obtain ⟨x, hx, rfl⟩ := List.mem_map.mp h
  rfl

/-- a mark after the request was there before it, or is one of its own -/
theorem Obtains.busy_of_mem (h : Obtains fs sha1 order dm msg queued ready dm1) (hfiled : dm.Filed)
    (hwf : dm.fileCache.WF) {id : TorrentFileId} {window : FileWindow}
    (hmem : (id, .busy window) ∈ (dm1.cacheAll (cached ready queued)).fileCache.entries) :
    (id, .busy window) ∈ dm.fileCache.entries ∨ (ready = true ∧ id ∈ queued.map Prod.fst) := by
  obtain ⟨hthins, hnew⟩ := h.fresh hfiled hwf
  rcases hthins.wf.mem_of_mem_insertAll hnew hmem with hold | hown
  · exact Or.inl (hthins.mem _ hold)
  · cases ready with
    | true =>
      obtain ⟨x, hx, heq⟩ := List.mem_map.mp hown
      exact Or.inr ⟨rfl, List.mem_map.mpr ⟨x, hx, congrArg Prod.fst heq⟩⟩
    | false => cases isBusy_waiting hown

/-- if no mark is dropped, the old ones stay and the request has its own -/
theorem Obtains.busy_kept (h : Obtains fs sha1 order dm msg queued ready dm1) (hfiled : dm.Filed)
    (hwf : dm.fileCache.WF) (hdrop : ∀ e ∈ dm1.fileCache.dropped (cached ready queued), e.2.isBusy = false) :
    (∀ id window, (id, .busy window) ∈ dm.fileCache.entries →
      (id, .busy window) ∈ (dm1.cacheAll (cached ready queued)).fileCache.entries) ∧
    (ready = true → ∀ x ∈ queued,
      (x.1, .busy x.2.2) ∈ (dm1.cacheAll (cached ready queued)).fileCache.entries) := by
  obtain ⟨hthins, hnew⟩ := h.fresh hfiled hwf
  have hstay : ∀ id window, (id, FileState.busy window) ∈ dm1.fileCache.entries ++ cached ready queued →
      (id, .busy window) ∈ (dm1.cacheAll (cached ready queued)).fileCache.entries := by
    intro id window hmem
    refine (hthins.wf.mem_insertAll_fresh hnew hmem).1 ?_
    intro hd
    cases hdrop _ hd
  constructor
  · intro id window hmem
    exact hstay id window (List.mem_append_left _ (hthins.busy id window hmem))
  · rintro rfl x hx
    exact hstay x.1 x.2.2 (List.mem_append_right _ (List.mem_map_of_mem hx))

/-- a mark that is dropped is gone, and it was a job's, or the request's own -/
theorem Obtains.busy_dropped (h : Obtains fs sha1 order dm msg queued ready dm1) (hfiled : dm.Filed)
    (hm : dm.Marked) {e : TorrentFileId × FileState File}
    (he : e ∈ dm1.fileCache.dropped (cached ready queued)) (hbusy : e.2.isBusy = true) :
    e.1 ∉ (dm1.cacheAll (cached ready queued)).fileCache.keys ∧
      (e.1 ∈ dm.heldIds ∨ (ready = true ∧ e.1 ∈ queued.map Prod.fst)) := by
  obtain ⟨hthins, hnew⟩ := h.fresh hfiled hm.wf
  have hmem : e ∈ dm1.fileCache.entries ++ cached ready queued := List.mem_of_mem_take he
  refine ⟨(hthins.wf.mem_insertAll_fresh hnew hmem).2 he, ?_⟩
  rcases List.mem_append.mp hmem with hold | hown
  · obtain ⟨id, state⟩ := e
    cases state with
    | busy window => exact Or.inl (hm.held id window (hthins.mem _ hold))
    | queued f window => cases hbusy
    | ready f => cases hbusy
  · cases ready with
    | true =>
      obtain ⟨x, hx, rfl⟩ := List.mem_map.mp hown
      exact Or.inr ⟨rfl, List.mem_map_of_mem hx⟩
    | false =>
      rw [isBusy_waiting hown] at hbusy
      cases hbusy

/-- the job gets its files -/
theorem Obtains.marked_started (h : Obtains fs sha1 order dm msg queued true dm1) (hfiled : dm.Filed)
    (hm : dm.Marked) (hdrop : ∀ e ∈ dm1.fileCache.dropped (cached true queued), e.2.isBusy = false)
    {job : BlockJob File} (hjob : job.fileIds = queued.map Prod.fst)
    (hactive : dm'.activeBlocks = dm.activeBlocks ++ [job])
    (hcache : dm'.fileCache = (dm1.cacheAll (cached true queued)).fileCache) : dm'.Marked := by
  obtain ⟨hthins, hnew⟩ := h.fresh hfiled hm.wf
  obtain ⟨hold, hown⟩ := h.busy_kept hfiled hm.wf hdrop
  have hheld : dm'.heldIds = dm.heldIds ++ queued.map Prod.fst := by
    unfold heldIds
    rw [hactive, List.flatMap_append, List.flatMap_singleton, hjob]
  refine ⟨?_, ?_, ?_, ?_⟩
  · rw [hcache]
    exact (hthins.wf.insertAll_fresh hnew).1
  · rw [ids_cached, List.nodup_append] at hnew
    rw [hheld, List.nodup_append]
    refine ⟨hm.nodup, hnew.2.1, ?_⟩
    rintro a ha b hb rfl
    obtain ⟨window, hw⟩ := hm.busy a ha
    exact hnew.2.2 a (LruCache.mem_keys_of_mem (hthins.busy a window hw)) a hb rfl
  · rw [hheld, hcache]
    intro id hid
    rcases List.mem_append.mp hid with hid | hid
    · obtain ⟨window, hw⟩ := hm.busy id hid
      exact ⟨window, hold id window hw⟩
    · obtain ⟨x, hx, rfl⟩ := List.mem_map.mp hid
      exact ⟨x.2.2, hown rfl x hx⟩
  · rw [hheld, hcache]
    intro id window hw
    rcases h.busy_of_mem hfiled hm.wf hw with hw | ⟨-, hid⟩
    · exact List.mem_append_left _ (hm.held id window hw)
    · exact List.mem_append_right _ hid

/-- the request has to wait -/
theorem Obtains.marked_waiting (h : Obtains fs sha1 order dm msg queued false dm1) (hfiled : dm.Filed)
    (hm : dm.Marked) (hdrop : ∀ e ∈ dm1.fileCache.dropped (cached false queued), e.2.isBusy = false)
    (hactive : dm'.activeBlocks = dm.activeBlocks)
    (hcache : dm'.fileCache = (dm1.cacheAll (cached false queued)).fileCache) : dm'.Marked := by
  obtain ⟨hthins, hnew⟩ := h.fresh hfiled hm.wf
  obtain ⟨hold, -⟩ := h.busy_kept hfiled hm.wf hdrop
  have hheld : dm'.heldIds = dm.heldIds := congrArg (List.flatMap BlockJob.fileIds) hactive
  refine ⟨?_, hheld ▸ hm.nodup, ?_, ?_⟩
  · rw [hcache]
    exact (hthins.wf.insertAll_fresh hnew).1
  · rw [hheld, hcache]
    intro id hid
    obtain ⟨window, hw⟩ := hm.busy id hid
    exact ⟨window, hold id window hw⟩
  · rw [hheld, hcache]
    intro id window hw
    rcases h.busy_of_mem hfiled hm.wf hw with hw | ⟨hready, -⟩
    · exact hm.held id window hw
    · cases hready

/-- the files of a block are determined -/
theorem Touches.unique {id : TorrentId} {m : BlockMetadata} {files files' : List (FileEntry × FileWindow)}
    (h : dm.Touches order id m files) (h' : dm.Touches order id m files') : files = files' := by
  obtain ⟨T, hid, hfiles⟩ := h.torrent
  obtain ⟨T', hid', hfiles'⟩ := h'.torrent
  rw [hid] at hid'
  cases hid'
  rw [hfiles] at hfiles'
  cases hfiles'
  rfl

theorem Obtains.of_held {id : TorrentId} {m : BlockMetadata} {files : List (FileEntry × FileWindow)}
    (hmsg : msg.request = some (id, m))
    (hgood : ∀ block, msg = .writeBlock id block → dm.isGoodPiece sha1 id block = true)
    (ht : dm.Touches order id m files) (htake : takeFiles fs files [] true dm = (.ok (queued, ready), dm1)) :
    Obtains fs sha1 order dm msg queued ready dm1 := by
  refine ⟨?_, id, m, files, hmsg, ht, htake⟩
  rintro id' block rfl
  cases hmsg
  exact hgood block rfl

/-- a message that drops no mark keeps the marks -/
theorem Marked.handled (hm : dm.Marked) (hfiled : dm.Filed) {r : Option (Poll DiskMessageOut)}
    (h : Handled fs sha1 order dm msg r dm')
    (hdrop : ∀ queued ready dm1, Obtains fs sha1 order dm msg queued ready dm1 →
      ∀ e ∈ dm1.fileCache.dropped (cached ready queued), e.2.isBusy = false) : dm'.Marked := by
  cases h with
  | removed =>
    unfold DiskManager.removeTorrent
    split <;> exact hm.congr rfl rfl
  | refused hmsg h =>
    cases h with
    | unknown h => exact hm
    | outside h hfiles => exact hm
    | failed ht htake =>
      exact hm.thins (takeFiles_cache htake hm.wf fun x hx => by cases hx).1 (takeFiles_frame htake).activeBlocks
  | started hmsg hgood h hjob =>
    cases h with
    | @held files queued dm1 ht htake =>
      have hobt := Obtains.of_held hmsg hgood ht htake
      refine hobt.marked_started hfiled hm (hdrop _ _ _ hobt) ?_
        (congrArg (· ++ _) (takeFiles_frame htake).activeBlocks) rfl
      rw [fileIds_jobFor hjob, jobFiles, List.map_map]
      rfl
  | requeued hmsg hgood h =>
    cases h with
    | @waiting files queued dm1 ht htake =>
      have hobt := Obtains.of_held hmsg hgood ht htake
      exact hobt.marked_waiting hfiled hm (hdrop _ _ _ hobt) (takeFiles_frame htake).activeBlocks rfl
  | _ => exact hm.congr rfl rfl

/-- what became of the files a request got hold of -/
theorem Handled.obtained {r : Option (Poll DiskMessageOut)} (h : Handled fs sha1 order dm msg r dm')
    (hobt : Obtains fs sha1 order dm msg queued ready dm1) :
    dm'.fileCache = (dm1.cacheAll (cached ready queued)).fileCache ∧
      dm'.heldIds = dm.heldIds ++ if ready then queued.map Prod.fst else [] := by
  obtain ⟨id, m, files, hreq, htouch, htake⟩ := hobt.files
  have hactive : dm1.activeBlocks = dm.activeBlocks := (takeFiles_frame htake).activeBlocks
  cases h with
  | existing h => cases hreq
  | added h hnew => cases hreq
  | removed => cases hreq
  | synced => cases hreq
  | moved => cases hreq
  | @bad id' block h =>
    rw [hobt.good id' block rfl] at h
    cases h
  | refused hmsg h =>
    rw [hreq] at hmsg
    cases hmsg
    obtain ⟨T, hid, hfiles⟩ := htouch.torrent
    cases h with
    | unknown h =>
      rw [hid] at h
      cases h
    | outside h hout =>
      rw [hid] at h
      cases h
      rw [hfiles] at hout
      cases hout
    | failed ht htake' =>
      rw [← htouch.unique ht, htake] at htake'
      cases htake'
  | started hmsg hgood h hjob =>
    rw [hreq] at hmsg
    cases hmsg
    cases h with
    | held ht htake' =>
      rw [← htouch.unique ht, htake] at htake'
      cases htake'
      refine ⟨rfl, ?_⟩
      unfold heldIds
      rw [List.flatMap_append, List.flatMap_singleton, fileIds_jobFor hjob, jobFiles, List.map_map,
        show (dm1.cacheAll _).activeBlocks = dm.activeBlocks from hactive]
      rfl
  | requeued hmsg hgood h =>
    rw [hreq] at hmsg
    cases hmsg
    cases h with
    | waiting ht htake' =>
      rw [← htouch.unique ht, htake] at htake'
      cases htake'
      refine ⟨rfl, ?_⟩
      show dm1.activeBlocks.flatMap _ = dm.activeBlocks.flatMap _ ++ []
      rw [hactive, List.append_nil]

/-- a message that drops a mark leaves a job whose file is not marked -/
theorem Marked.handled_bad (hm : dm.Marked) (hfiled : dm.Filed) {r : Option (Poll DiskMessageOut)}
    (h : Handled fs sha1 order dm msg r dm') (hobt : Obtains fs sha1 order dm msg queued ready dm1)
    {e : TorrentFileId × FileState File} (he : e ∈ dm1.fileCache.dropped (cached ready queued))
    (hbusy : e.2.isBusy = true) : ¬ dm'.Exclusive := by
  obtain ⟨hgone, hheld⟩ := hobt.busy_dropped hfiled hm he hbusy
  obtain ⟨hcache, hids⟩ := h.obtained hobt
  have hin : e.1 ∈ dm'.heldIds := by
    rw [hids, List.mem_append]
    rcases hheld with hin | ⟨rfl, hin⟩
    · exact Or.inl hin
    · exact Or.inr hin
  intro hex
  obtain ⟨window, hw⟩ := hex.busy e.1 hin
  rw [hcache] at hw
  exact hgone (LruCache.mem_keys_of_mem (LruCache.mem_of_lookup hw))

end

/-! ### jobs -/

/-- the files of a job and of the others -/
theorem heldIds_perm {job : BlockJob File} {rest : List (BlockJob File)}
    (hjobs : dm.activeBlocks.Perm (job :: rest)) :
    dm.heldIds.Perm (job.fileIds ++ rest.flatMap BlockJob.fileIds) := hjobs.flatMap_right BlockJob.fileIds

theorem Marked.jobPolled (hm : dm.Marked) {out : Option DiskMessageOut} (h : JobPolled fs dm out dm') :
    dm'.Marked := by
  cases h with
  | @pending job rest job' w hjobs h =>
    have hperm := heldIds_perm hjobs
    have hheld : ((rest ++ [job']).flatMap BlockJob.fileIds).Perm dm.heldIds := by
      rw [List.flatMap_append, List.flatMap_singleton, (BlockJob.continues_poll h).fileIds]
      exact List.perm_append_comm.trans hperm.symm
    refine ⟨hm.wf, hheld.nodup_iff.mpr hm.nodup, ?_, ?_⟩
    · intro id hid
      exact hm.busy id (hheld.mem_iff.mp hid)
    · intro id window hw
      exact hheld.mem_iff.mpr (hm.held id window hw)
  | @finished job rest job' w e hjobs h =>
    have hperm := heldIds_perm hjobs
    have hfreed : (freed job').map Prod.fst = job.fileIds := by
      rw [← (BlockJob.continues_poll h).fileIds, freed, List.map_map]
      rfl
    obtain ⟨hjob, hrest, hdisj⟩ := List.nodup_append.mp (hperm.nodup_iff.mp hm.nodup)
    have hkeys : ∀ e ∈ freed job', e.1 ∈ dm.fileCache.keys := by
      intro e he
      have hid : e.1 ∈ job.fileIds := hfreed ▸ List.mem_map_of_mem he
      obtain ⟨window, hw⟩ := hm.busy e.1 (hperm.mem_iff.mpr (List.mem_append_left _ hid))
      exact LruCache.mem_keys_of_mem hw
    have hnodup : ((freed job').map Prod.fst).Nodup := hfreed ▸ hjob
    obtain ⟨hwf, -, hmem⟩ := hm.wf.insertAll_present hnodup hkeys
    refine ⟨hwf, hrest, ?_, ?_⟩
    · intro id hid
      obtain ⟨window, hw⟩ := hm.busy id (hperm.mem_iff.mpr (List.mem_append_right _ hid))
      refine ⟨window, (hmem _).mpr (Or.inl ⟨hw, ?_⟩)⟩
      rw [hfreed]
      exact fun hin => hdisj id hin id hid rfl
    · intro id window hw
      rcases (hmem _).mp hw with ⟨hold, hnot⟩ | hown
      · rw [hfreed] at hnot
        exact (List.mem_append.mp (hperm.mem_iff.mp (hm.held id window hold))).resolve_left hnot
      · obtain ⟨f, hf, heq⟩ := List.mem_map.mp hown
        cases heq

/-! ## runs -/

/-- **A guarded step keeps the marks.** -/
theorem marked_next {s : Option (DiskManager File World)} {op : DiskOp} (hs : s = some dm) (hm : dm.Marked)
    (hfiled : dm.Filed) (hguard : KeepsBusy fs sha1 s op) (h : next fs sha1 s op = some dm') : dm'.Marked := by
  subst hs
  obtain ⟨⟨out, dm2⟩, hmove, rfl⟩ := Option.map_eq_some_iff.mp h
  cases move_cases hmove with
  | call hop => exact hm.congr rfl rfl
  | job hj => exact hm.jobPolled hj
  | idle hq => exact hm
  | @message order msg queue r _ hq hh =>
    have hpop : { dm with queuedEvents := queue }.Marked := hm.congr rfl rfl
    refine hpop.handled hfiled hh ?_
    intro queued ready dm1 hobt
    exact hguard dm dm2 order msg queue queued ready dm1 rfl rfl h hq hobt

/-- and an unguarded one leaves a file that is held and not marked -/
theorem marked_next_bad {s : Option (DiskManager File World)} {op : DiskOp} (hs : s = some dm) (hm : dm.Marked)
    (hfiled : dm.Filed) (hguard : ¬ KeepsBusy fs sha1 s op) :
    ∃ dm', next fs sha1 s op = some dm' ∧ ¬ dm'.Exclusive := by
  subst hs
  unfold KeepsBusy at hguard
  push Not at hguard
  obtain ⟨dm0, dm', order, msg, queue, queued, ready, dm1, hdm, rfl, h, hq, hobt, e, he, hbusy⟩ := hguard
  cases hdm
  refine ⟨dm', h, ?_⟩
  obtain ⟨⟨out, dm2⟩, hmove, rfl⟩ := Option.map_eq_some_iff.mp h
  have hpop : { dm with queuedEvents := queue }.Marked := hm.congr rfl rfl
  cases move_cases hmove with
  | call hop => cases hop
  | idle hq' =>
    rw [hq] at hq'
    cases hq'
  | @message _ msg' queue' r _ hq' hh =>
    rw [hq] at hq'
    cases hq'
    exact hpop.handled_bad hfiled hh hobt he (by simpa using hbusy)

end

/-- **A file is used by at most one job at a time** as long as no mark is dropped from the cache, and no longer:
all states of a run are exclusive exactly if all its steps meet the guard. -/
theorem exclusive_iff (fs : FileSystem File World Err) (sha1 : List UInt8 → ShaHash) (world : World)
    (capacity : Nat) (ops : List DiskOp) :
    (∀ pre, pre <+: ops → ∀ dm, exec (next fs sha1) (some (withCapacity world capacity)) pre = some dm →
        dm.Exclusive) ↔
      Along (next fs sha1) (KeepsBusy fs sha1) (some (withCapacity world capacity)) ops := by
  refine safe_iff_along_some (next fs sha1) (I := fun _ dm => dm.Marked ∧ dm.Filed) (fun s op => rfl) ?_ ?_ ?_ ?_ ?_ ops
  · intro op dm dm' order msg queue queued ready dm1 hdm
    cases hdm
  · intro dm h
    cases h
    exact ⟨marked_withCapacity world capacity, filed_withCapacity world capacity⟩
  · intro pre dm hdm hI
    exact hI.1.exclusive
  · intro pre op dm dm' hdm hI hguard h
    obtain ⟨hm, hfiled⟩ := hI
    have hmarked : dm'.Marked := marked_next rfl hm hfiled hguard h
    obtain ⟨⟨out, dm2⟩, hmove, rfl⟩ := Option.map_eq_some_iff.mp h
    exact ⟨hmarked, hfiled.moved (move_cases hmove)⟩
  · intro pre op dm hdm hI hguard
    exact marked_next_bad rfl hI.1 hI.2 hguard

/-- a file of torrent 0 is read, then one of torrent 1, then the first one again -/
def readTwice : List DiskOp :=
  [.addTorrent ⟨0⟩ oneByte, .addTorrent ⟨1⟩ oneByte, .pollMessage .same, .pollMessage .same,
    .readBlock ⟨0⟩ ⟨0, 0, 1⟩, .readBlock ⟨1⟩ ⟨0, 0, 1⟩, .readBlock ⟨0⟩ ⟨0, 0, 1⟩,
    .pollMessage .same, .pollMessage .same, .pollMessage .same]

/-- with room for one file, the second file drops the mark of the first, which is then opened again -/
theorem file_held_twice :
    ∃ dm, exec (next instantDisk firstByte) (some (withCapacity () 1)) readTwice = some dm ∧
      dm.heldIds = [⟨⟨0⟩, ⟨0⟩⟩, ⟨⟨1⟩, ⟨0⟩⟩, ⟨⟨0⟩, ⟨0⟩⟩] ∧ ¬ dm.Exclusive := by
  refine ⟨_, rfl, rfl, ?_⟩
  intro h
  exact absurd h.nodup (by decide)

end DiskManager

end Btt
