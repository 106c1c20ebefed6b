import BitTorrent.Disk.Job

/-!
# The disk manager

`DiskManager` of `src/disk/manager.rs`: queued messages, active jobs, a cache of open files, and the
torrents with their files.  `poll` polls the active jobs and starts queued ones; as long as jobs are
active and none is ready its outer loop goes round again, so the number of rounds it is followed is an
argument, and `spinning` says that it has not returned by then.
-/

namespace Btt

inductive DiskMessageIn where
  | addTorrent (id : TorrentId) (info : MetaInfo)
  | removeTorrent (id : TorrentId)
  | moveTorrent (id : TorrentId) (dir : String)
  | syncTorrent (id : TorrentId)
  | readBlock (id : TorrentId) (metadata : BlockMetadata)
  | writeBlock (id : TorrentId) (block : Block)
deriving DecidableEq

inductive DiskMessageOut where
  | torrentAdded (id : TorrentId)
  | torrentRemoved (id : TorrentId) (info : MetaInfo)
  | movedTorrent (id : TorrentId) (dir : String)
  | torrentSynced (id : TorrentId)
  | blockRead (id : TorrentId) (block : Block)
  | pieceWritten (id : TorrentId) (block : Block)
  | torrentError (id : TorrentId) (err : TorrentError)
  | readBlockError (id : TorrentId) (err : TorrentError)
  | writeBlockError (id : TorrentId) (err : TorrentError)
deriving DecidableEq

inductive FileState (File : Type) where
  | queued (file : File) (window : FileWindow)
  | ready (file : File)
  | busy (window : FileWindow)

/-! ## the file cache -/

/-- `lru_cache::LruCache`: the least recently inserted entry stands first -/
structure LruCache (κ ν : Type) where
  capacity : Nat
  entries : List (κ × ν)

namespace LruCache
variable {κ ν : Type} [DecidableEq κ]

def remove (c : LruCache κ ν) (k : κ) : Option ν × LruCache κ ν :=
  ((c.entries.find? fun e => e.1 = k).map Prod.snd, { c with entries := c.entries.eraseP fun e => e.1 = k })

/-- insert as the most recent entry; beyond the capacity the oldest one is dropped -/
def insert (c : LruCache κ ν) (k : κ) (v : ν) : LruCache κ ν :=
  let entries := c.entries.eraseP (fun e => e.1 = k) ++ [(k, v)]
  { c with entries := if entries.length > c.capacity then entries.tail else entries }

end LruCache

/-! ## the manager -/

structure DiskManager (File World : Type) where
  activeBlocks : List (BlockJob File)
  fileCache : LruCache TorrentFileId (FileState File)
  torrents : AList fun _ : TorrentId => TorrentFile
  world : World
  queuedEvents : List DiskMessageIn

/-- how a poll ends; `spinning` has not ended within the rounds it was followed -/
inductive DiskPoll (σ : Type) where
  | ready (msg : DiskMessageOut) (s : σ)
  | pending (s : σ)
  | panic
  | spinning (s : σ)

namespace DiskManager
variable {File World Err : Type}

def withCapacity (world : World) (capacity : Nat) : DiskManager File World := ⟨[], ⟨capacity, []⟩, ∅, world, []⟩

def push (dm : DiskManager File World) (msg : DiskMessageIn) : DiskManager File World :=
  { dm with queuedEvents := dm.queuedEvents ++ [msg] }

def writeBlock (dm : DiskManager File World) (id : TorrentId) (block : Block) := dm.push (.writeBlock id block)
def readBlock (dm : DiskManager File World) (id : TorrentId) (m : BlockMetadata) := dm.push (.readBlock id m)
def addTorrent (dm : DiskManager File World) (id : TorrentId) (info : MetaInfo) := dm.push (.addTorrent id info)

def removeTorrent (dm : DiskManager File World) (id : TorrentId) : DiskMessageOut × DiskManager File World :=
  match dm.torrents.lookup id with
  | some file => (.torrentRemoved id file.metaInfo, { dm with torrents := dm.torrents.erase id })
  | none => (.torrentError id (.torrentNotFound id), dm)

def isGoodPiece (sha1 : List UInt8 → ShaHash) (dm : DiskManager File World) (id : TorrentId) (block : Block) :
    Bool :=
  match dm.torrents.lookup id with
  | some torrent => torrent.isGoodPiece sha1 block
  | none => false

section
variable (fs : FileSystem File World Err)

/-- take the files out of the cache or open them; an open that fails drops the files taken so far, one
that is pending ends the loop -/
def takeFiles : List (FileEntry × FileWindow) → List (TorrentFileId × File × FileWindow) → Bool →
    DiskManager File World →
    Except TorrentError (List (TorrentFileId × File × FileWindow) × Bool) × DiskManager File World
  | [], queued, allReady, dm => (.ok (queued, allReady), dm)
  | (file, window) :: files, queued, allReady, dm =>
    match dm.fileCache.remove file.id with
    | (some (.ready f), cache) =>
      takeFiles files (queued ++ [(file.id, f, window)]) allReady { dm with fileCache := cache }
    | (some (.queued f queuedWindow), cache) =>
      takeFiles files (queued ++ [(file.id, f, window)]) (allReady && window = queuedWindow)
        { dm with fileCache := cache }
    | (some (.busy piece), cache) =>
      takeFiles files queued false { dm with fileCache := cache.insert file.id (.busy piece) }
    | (none, _) =>
      match fs.pollOpenFile file.path dm.world with
      | (.ready (.ok f), world) =>
        takeFiles files (queued ++ [(file.id, f, window)]) allReady { dm with world := world }
      | (.ready (.error _), world) => (.error (.io "Failed to open file."), { dm with world := world })
      | (.pending, world) => (.ok (queued, false), { dm with world := world })

def cacheAll (dm : DiskManager File World) (files : List (TorrentFileId × FileState File)) :
    DiskManager File World :=
  { dm with fileCache := files.foldl (fun cache (id, state) => cache.insert id state) dm.fileCache }

/-- the files of a block, if all of them are free; `none` is a panic -/
def pollFiles (order : Arrangement FileEntry) (dm : DiskManager File World) (id : TorrentId)
    (metadata : BlockMetadata) :
    Option (Poll (Except TorrentError (List (FileWindow × BlockFile File))) × DiskManager File World) :=
  match dm.torrents.lookup id with
  | none => some (.ready (.error (.torrentNotFound id)), dm)
  | some torrent =>
    match torrent.filesForBlock order metadata with
    | none => none
    | some (.error e) => some (.ready (.error e), dm)
    | some (.ok files) =>
      -- `assert!(!files.is_empty())`
      if files.isEmpty then none
      else
        match takeFiles fs files [] true dm with
        | (.error e, dm) => some (.ready (.error e), dm)
        | (.ok (queued, true), dm) =>
          some (.ready (.ok (queued.map fun (id, f, window) => (window, ⟨id, f⟩))),
            dm.cacheAll (queued.map fun (id, _, window) => (id, .busy window)))
        | (.ok (queued, false), dm) =>
          some (.pending, dm.cacheAll (queued.map fun (id, f, window) => (id, .queued f window)))

/-- cut the block for its files: the fragment for a window ends at the LENGTH of the window, not that far
behind the last one -/
def fragments (block : List UInt8) : Nat → List (FileWindow × BlockFile File) →
    Option (List (BlockFileWrite File))
  | _, [] => some []
  | fragmentOffset, (window, file) :: files =>
    if fragmentOffset ≤ window.length ∧ window.length ≤ block.length then
      (fragments block (fragmentOffset + window.length) files).map fun rest =>
        BlockFileWrite.new file ((block.take window.length).drop fragmentOffset) window :: rest
    else none

def pollCreateBlockWrite (sha1 : List UInt8 → ShaHash) (order : Arrangement FileEntry)
    (dm : DiskManager File World) (id : TorrentId) (block : Block) :
    Option (Poll (Except TorrentError (BlockJob File)) × DiskManager File World) :=
  if dm.isGoodPiece sha1 id block then
    match pollFiles fs order dm id block.metadata with
    | none => none
    | some (.ready (.ok [(window, file)]), dm) =>
      some (.ready (.ok (.write (.single block.metadata (.new file block.blockData window)))), dm)
    | some (.ready (.ok files), dm) =>
      (fragments block.blockData 0 files).map fun blocks =>
        (.ready (.ok (.write (.overlap id block.metadata blocks))), dm)
    | some (.ready (.error e), dm) => some (.ready (.error e), dm)
    | some (.pending, dm) => some (.pending, dm.push (.writeBlock id block))
  else some (.ready (.error (.badPiece block.metadata.pieceIndex)), dm)

def pollCreateBlockRead (order : Arrangement FileEntry) (dm : DiskManager File World) (id : TorrentId)
    (metadata : BlockMetadata) :
    Option (Poll (Except TorrentError (BlockJob File)) × DiskManager File World) :=
  match pollFiles fs order dm id metadata with
  | none => none
  | some (.ready (.ok [(window, file)]), dm) =>
    some (.ready (.ok (.read (.single metadata (.new file window)))), dm)
  | some (.ready (.ok files), dm) =>
    some (.ready (.ok (.read (.overlap id metadata (files.map fun (window, file) => .new file window)))), dm)
  | some (.ready (.error e), dm) => some (.ready (.error e), dm)
  | some (.pending, dm) => some (.pending, dm.push (.readBlock id metadata))

end

def finalizeBlock (dm : DiskManager File World) (job : BlockJob File) :
    DiskMessageOut × DiskManager File World :=
  match job.finalize with
  | .read torrent files result =>
    let dm := dm.cacheAll (files.map fun f => (f.id, .ready f.inner))
    match result with
    | .ok block => (.blockRead torrent block, dm)
    | .error metadata => (.readBlockError torrent (.badBlock metadata), dm)
  | .write torrent files result =>
    let dm := dm.cacheAll (files.map fun f => (f.id, .ready f.inner))
    match result with
    | .ok block => (.pieceWritten torrent block, dm)
    | .error metadata => (.writeBlockError torrent (.badPiece metadata.pieceIndex), dm)

/-! ### the poll -/

/-- `Vec::swap_remove` -/
def swapRemove {α : Type} (l : List α) (i : Nat) : Option (α × List α) :=
  match l[i]?, l.getLast? with
  | some a, some last => some (a, (l.set i last).dropLast)
  | _, _ => none

section
variable (fs : FileSystem File World Err)

/-- the reverse loop over the active jobs: take out job `i - 1`, then the ones below; the answer of the
first ready one ends it -/
def pollActive : Nat → DiskManager File World → Option (Option DiskMessageOut × DiskManager File World)
  | 0, dm => some (none, dm)
  | i + 1, dm =>
    match swapRemove dm.activeBlocks i with
    | none => none
    | some (job, rest) =>
      match job.poll fs dm.world with
      | none => none
      | some (.ready _, job, world) =>
        let r := { dm with activeBlocks := rest, world := world }.finalizeBlock job
        some (some r.1, r.2)
      | some (.pending, job, world) =>
        pollActive i { dm with activeBlocks := rest ++ [job], world := world }

/-- start a job, or answer with its error; `none` goes on with the next message -/
def start (dm : DiskManager File World) (onError : TorrentError → DiskMessageOut) :
    Poll (Except TorrentError (BlockJob File)) → Option (Poll DiskMessageOut) × DiskManager File World
  | .ready (.ok job) => (none, { dm with activeBlocks := dm.activeBlocks ++ [job] })
  | .ready (.error e) => (some (.ready (onError e)), dm)
  | .pending => (some .pending, dm)

def handle (sha1 : List UInt8 → ShaHash) (order : Arrangement FileEntry) (dm : DiskManager File World) :
    DiskMessageIn → Option (Option (Poll DiskMessageOut) × DiskManager File World)
  | .addTorrent id info =>
    if id ∈ dm.torrents then some (some (.ready (.torrentError id (.existingTorrent info))), dm)
    else
      (TorrentFile.new id info).map fun file =>
        (some (.ready (.torrentAdded id)), { dm with torrents := dm.torrents.insert id file })
  | .removeTorrent id => some (some (.ready (dm.removeTorrent id).1), (dm.removeTorrent id).2)
  | .syncTorrent _ => some (none, dm)
  | .moveTorrent _ _ => some (none, dm)
  | .readBlock id metadata =>
    (pollCreateBlockRead fs order dm id metadata).map fun (p, dm) => dm.start (.readBlockError id) p
  | .writeBlock id block =>
    (pollCreateBlockWrite fs sha1 order dm id block).map fun (p, dm) => dm.start (.writeBlockError id) p

/-- the loop over the queue.  A message that is put back ends it, so as many rounds as there are
messages are enough. -/
def pollQueue (sha1 : List UInt8 → ShaHash) (order : Arrangement FileEntry) :
    Nat → DiskManager File World → Option (Option (Poll DiskMessageOut) × DiskManager File World)
  | 0, dm => some (none, dm)
  | rounds + 1, dm =>
    match dm.queuedEvents with
    | [] => some (none, dm)
    | msg :: queue =>
      match handle fs sha1 order { dm with queuedEvents := queue } msg with
      | none => none
      | some (some p, dm) => some (some p, dm)
      | some (none, dm) => pollQueue sha1 order rounds dm

def poll (sha1 : List UInt8 → ShaHash) (order : Arrangement FileEntry) :
    Nat → DiskManager File World → DiskPoll (DiskManager File World)
  | 0, dm => .spinning dm
  | rounds + 1, dm =>
    match pollActive fs dm.activeBlocks.length dm with
    | none => .panic
    | some (some msg, dm) => .ready msg dm
    | some (none, dm) =>
      match pollQueue fs sha1 order dm.queuedEvents.length dm with
      | none => .panic
      | some (some (.ready msg), dm) => .ready msg dm
      | some (some .pending, dm) => .pending dm
      | some (none, dm) => if dm.activeBlocks.isEmpty then .pending dm else poll sha1 order rounds dm

end

end DiskManager

end Btt
