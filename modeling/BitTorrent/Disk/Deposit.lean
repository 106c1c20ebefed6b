import BitTorrent.Disk.Cache
import BitTorrent.Disk.Storage
import BitTorrent.Disk.Verified

/-!
# A piece on the disk

A piece of a torrent of a single file (`Deposit`), on a disk that keeps its bytes, next to any other torrents.

* `Stored`         the bytes of the piece are in the file;
* `Intact`         open files are kept under the ids of their places, and every active write of the torrent is in front
                   of the bytes of the piece or away from them;
* `takeFiles_owned`, `PollFiles.owned`   the files a request is given lie where their ids say;
* `guarded_jobFor`   a new write of the torrent is in front of its window;
* `stored_done`    a write that is done leaves the bytes of the piece alone, or has put them there.
-/

namespace Btt
open Run Overwrite

/-- a piece of a torrent of a single file, and its bytes -/
structure Deposit where
  torrent : TorrentId
  info : MetaInfo
  size : Nat
  piece : Nat
  content : List UInt8

namespace Deposit
variable {File World Place : Type} (d : Deposit) (v : DiskView File World Place)

def path : List String := [d.info.info.name]

/-- where the piece starts in the file -/
def start : Nat := d.info.info.pieceLength * d.piece

def entry : FileEntry := ⟨d.path, ⟨d.torrent, ⟨0⟩⟩, 0, d.size⟩

/-- the piece is not longer than the others and lies in the file -/
structure Fits : Prop where
  single : d.info.info.content = .single d.size
  short : d.content.length ≤ d.info.info.pieceLength
  inside : d.start + d.content.length ≤ d.size

/-- the bytes of the piece are on the disk -/
def Stored (w : World) : Prop := ∀ k < d.content.length, (v.store (v.locate d.path) w)[d.start + k]? = d.content[k]?

/-- an open file is at the place of the torrent's file if its id is the torrent's -/
def Owns (id : TorrentFileId) (f : File) : Prop := v.place f = v.locate d.path ↔ id.torrent = d.torrent

/-- a write for the piece writes its bytes to their place, another one writes elsewhere -/
def Spares (m : BlockMetadata) (b : BlockFileWrite File) : Prop :=
  (b.fileWindow.offset = d.start ∧ b.block.take b.fileWindow.length = d.content) ∨
    (m.pieceIndex ≠ d.piece ∧
      (b.fileWindow.offset + b.block.length ≤ d.start ∨ d.start + d.content.length ≤ b.fileWindow.offset))

/-- the calls about the torrent: it is added with its own metainfo, others are stored elsewhere, a block to write is a
whole piece, and of those for the piece no other than its bytes has the hash -/
structure Calls (sha1 : List UInt8 → ShaHash) (ins : List DiskMessageIn) : Prop where
  own : ∀ info, .addTorrent d.torrent info ∈ ins → info = d.info
  other : ∀ t info F, .addTorrent t info ∈ ins → t ≠ d.torrent → TorrentFile.new t info = some F →
    ∀ e ∈ F.files, v.locate e.path ≠ v.locate d.path
  whole : ∀ block, .writeBlock d.torrent block ∈ ins →
    block.metadata.blockOffset = 0 ∧ block.metadata.blockLength = block.blockData.length
  same : ∀ block, .writeBlock d.torrent block ∈ ins → block.metadata.pieceIndex = d.piece →
    d.info.info.pieces[d.piece]? = some (sha1 block.blockData) → block.blockData = d.content

variable {d v}

theorem Calls.left {sha1 : List UInt8 → ShaHash} {a b : List DiskMessageIn} (h : d.Calls v sha1 (a ++ b)) :
    d.Calls v sha1 a where
  own info hm := h.own info (List.mem_append_left _ hm)
  other t info F hm := h.other t info F (List.mem_append_left _ hm)
  whole block hm := h.whole block (List.mem_append_left _ hm)
  same block hm := h.same block (List.mem_append_left _ hm)

/-- a block of a piece that is on the disk -/
theorem Stored.block {w : World} (h : d.Stored v w) {offset length : Nat} (hin : offset + length ≤ d.content.length) :
    ((v.store (v.locate d.path) w).drop (d.start + offset)).take length = (d.content.drop offset).take length := by
  apply List.ext_getElem?
  intro k
  by_cases hk : k < length
  · rw [List.getElem?_take_of_lt hk, List.getElem?_take_of_lt hk, List.getElem?_drop, List.getElem?_drop, Nat.add_assoc]
    exact h (offset + k) (by omega)
  · rw [List.getElem?_take, List.getElem?_take, if_neg hk, if_neg hk]

theorem Stored.congr {w w' : World} (h : d.Stored v w) (hsame : v.store (v.locate d.path) w' = v.store (v.locate d.path) w) :
    d.Stored v w' := by
  intro k hk
  rw [hsame]
  exact h k hk

/-! ## the windows of its blocks -/

theorem windows_entry {start stop length : Nat} {ws : List (FileEntry × FileWindow)}
    (h : TorrentFile.windows start stop length [d.entry] [] = some ws) :
    ws = [(d.entry, ⟨start, if stop ≤ d.size then length else start⟩)] := by
  have hoff : start ≥ d.entry.offset := Nat.zero_le _
  rw [TorrentFile.windows, if_pos hoff] at h
  obtain ⟨fileEnd, hend, h⟩ := Option.bind_eq_some_iff.mp h
  obtain ⟨-, rfl⟩ := of_checkedAdd hend
  rw [show d.entry.offset + d.entry.size = d.size from Nat.zero_add _] at h
  split at h
  · rename_i hstop
    cases h
    rw [if_pos hstop]
    rfl
  · rename_i hstop
    obtain ⟨-, -, h⟩ := Option.bind_eq_some_iff.mp h
    cases h
    rw [if_neg hstop]
    rfl

/-- a block of the torrent has one window, and its piece is not left -/
theorem filesForBlock_entry {F : TorrentFile} (hF : F = ⟨d.torrent, d.info, [d.entry]⟩) {order : Arrangement FileEntry}
    {m : BlockMetadata} {files : List (FileEntry × FileWindow)} (h : F.filesForBlock order m = some (.ok files)) :
    m.blockOffset + m.blockLength ≤ d.info.info.pieceLength ∧
      files = [(d.entry, ⟨d.info.info.pieceLength * m.pieceIndex + m.blockOffset,
        if d.info.info.pieceLength * m.pieceIndex + m.blockOffset + m.blockLength ≤ d.size then m.blockLength
        else d.info.info.pieceLength * m.pieceIndex + m.blockOffset⟩)] := by
  subst hF
  have hrun : order.run [d.entry] = [d.entry] := List.perm_singleton.mp (order.perm _)
  rcases TorrentFile.filesForBlock_cases h with he | ⟨ws, he, -, hle, -, hw⟩
  · cases he
  · cases he
    simp only [hrun] at hw
    exact ⟨hle, windows_entry hw⟩

end Deposit

/-- the file a cache entry keeps open -/
def FileState.file {File : Type} : FileState File → Option File
  | .queued f _ => some f
  | .ready f => some f
  | .busy _ => none

namespace LruCache
variable {κ ν : Type} [DecidableEq κ]

theorem mem_of_mem_remove {c : LruCache κ ν} {k : κ} {e : κ × ν} (h : e ∈ (c.remove k).2.entries) : e ∈ c.entries :=
  List.mem_of_mem_eraseP h

theorem mem_of_mem_insert {c : LruCache κ ν} {k : κ} {x : ν} {e : κ × ν} (h : e ∈ (c.insert k x).entries) :
    e ∈ c.entries ∨ e = (k, x) := by
  have hall : e ∈ c.entries.eraseP (fun e => e.1 = k) ++ [(k, x)] := by
    unfold insert at h
    simp only at h
    split at h
    · exact List.mem_of_mem_tail h
    · exact h
  rcases List.mem_append.mp hall with he | he
  · exact Or.inl (List.mem_of_mem_eraseP he)
  · exact Or.inr (List.mem_singleton.mp he)

theorem mem_of_mem_insertAll {c : LruCache κ ν} {new : List (κ × ν)} {e : κ × ν} (h : e ∈ (c.insertAll new).entries) :
    e ∈ c.entries ∨ e ∈ new := by
  induction new generalizing c with
  | nil => exact Or.inl h
  | cons x new ih =>
    rcases ih h with he | he
    · rcases mem_of_mem_insert he with he | rfl
      · exact Or.inl he
      · exact Or.inr List.mem_cons_self
    · exact Or.inr (List.mem_cons_of_mem _ he)

end LruCache

namespace DiskManager
variable {File World Place Err : Type}

/-- the open files in the cache -/
def Cached (d : Deposit) (v : DiskView File World Place) (c : LruCache TorrentFileId (FileState File)) : Prop :=
  ∀ id state f, (id, state) ∈ c.entries → state.file = some f → d.Owns v id f

/-- a write of another torrent is away from the file, one of the torrent is in front of its window -/
structure Guarded (d : Deposit) (v : DiskView File World Place) (r : BlockWrite File) : Prop where
  bears : ∀ f ∈ r.files, f.id.torrent = r.torrent
  waits : r.torrent = d.torrent → ∃ m b, r = .single m b ∧ b.Waiting v ∧ d.Spares m b

structure Intact (d : Deposit) (v : DiskView File World Place) (dm : DiskManager File World) : Prop where
  own : ∀ F, dm.torrents.lookup d.torrent = some F → F = ⟨d.torrent, d.info, [d.entry]⟩
  others : ∀ t F, dm.torrents.lookup t = some F → t ≠ d.torrent → ∀ e ∈ F.files, v.locate e.path ≠ v.locate d.path
  cached : Cached d v dm.fileCache
  held : ∀ job ∈ dm.activeBlocks, ∀ f ∈ job.files, d.Owns v f.id f.inner
  writes : ∀ r, .write r ∈ dm.activeBlocks → Guarded d v r

section
variable {fs : FileSystem File World Err} {v : DiskView File World Place} {sha1 : List UInt8 → ShaHash}
  {order : Arrangement FileEntry} {d : Deposit} {dm dm' : DiskManager File World} {ins : List DiskMessageIn}
  {outs : List DiskMessageOut}

theorem Cached.insertAll {c : LruCache TorrentFileId (FileState File)} (h : Cached d v c)
    {new : List (TorrentFileId × FileState File)}
    (hnew : ∀ id state f, (id, state) ∈ new → state.file = some f → d.Owns v id f) : Cached d v (c.insertAll new) := by
  intro id state f hmem hf
  rcases LruCache.mem_of_mem_insertAll hmem with hmem | hmem
  · exact h id state f hmem hf
  · exact hnew id state f hmem hf

/-- the files that are taken are their torrents', and the disk stays as it is -/
theorem takeFiles_owned (hfs : fs.Faithful v) {files : List (FileEntry × FileWindow)}
    {queued : List (TorrentFileId × File × FileWindow)} {allReady : Bool}
    {r : Except TorrentError (List (TorrentFileId × File × FileWindow) × Bool)} (hcached : Cached d v dm.fileCache)
    (hfiles : ∀ x ∈ files, v.locate x.1.path = v.locate d.path ↔ x.1.id.torrent = d.torrent)
    (hqueued : ∀ x ∈ queued, d.Owns v x.1 x.2.1) (h : takeFiles fs files queued allReady dm = (r, dm')) :
    Cached d v dm'.fileCache ∧ (∀ q, v.store q dm'.world = v.store q dm.world) ∧
      ∀ q ready, r = .ok (q, ready) → ∀ x ∈ q, d.Owns v x.1 x.2.1 := by
  induction files generalizing queued allReady dm with
  | nil =>
    cases h
    refine ⟨hcached, fun q => rfl, ?_⟩
    intro q ready hq
    cases hq
    exact hqueued
  | cons file files ih =>
    obtain ⟨file, window⟩ := file
    have hrest : ∀ x ∈ files, v.locate x.1.path = v.locate d.path ↔ x.1.id.torrent = d.torrent :=
      fun x hx => hfiles x (List.mem_cons_of_mem _ hx)
    have hremove : Cached d v (dm.fileCache.remove file.id).2 :=
      fun id state f hmem => hcached id state f (LruCache.mem_of_mem_remove hmem)
    -- one more file joins the ones taken
    have hsnoc : ∀ f : File, d.Owns v file.id f → ∀ x ∈ queued ++ [(file.id, f, window)], d.Owns v x.1 x.2.1 := by
      intro f hf x hx
      rcases List.mem_append.mp hx with hx | hx
      · exact hqueued x hx
      · rw [List.mem_singleton.mp hx]
        exact hf
    rw [takeFiles_cons] at h
    split at h
    · rename_i f hlook
      have hf : d.Owns v file.id f := hcached _ _ f (LruCache.mem_of_lookup hlook) rfl
      have htaken := ih hremove hrest (hsnoc f hf) h
      exact htaken
    · rename_i f queuedWindow hlook
      have hf : d.Owns v file.id f := hcached _ _ f (LruCache.mem_of_lookup hlook) rfl
      have htaken := ih hremove hrest (hsnoc f hf) h
      exact htaken
    · rename_i piece hlook
      have hback : Cached d v ((dm.fileCache.remove file.id).2.insert file.id (.busy piece)) := by
        intro id state f hmem hf
        rcases LruCache.mem_of_mem_insert hmem with hmem | heq
        · exact hremove id state f hmem hf
        · cases heq
          cases hf
      have htaken := ih hback hrest hqueued h
      exact htaken
    · split at h <;> rename_i hopen
      · rename_i f world
        have hf : d.Owns v file.id f := by
          unfold Deposit.Owns
          rw [hfs.open_place hopen]
          exact hfiles _ List.mem_cons_self
        have htaken := fun hc => ih hc hrest (hsnoc f hf) h
        obtain ⟨h1, h2, h3⟩ := htaken hcached
        exact ⟨h1, fun q => (h2 q).trans (hfs.open_store hopen q), h3⟩
      · cases h
        exact ⟨hcached, hfs.open_store hopen, nofun⟩
      · cases h
        refine ⟨hcached, hfs.open_store hopen, ?_⟩
        intro q ready hq
        cases hq
        exact hqueued

/-- what the search for the files of a block leaves, and the files it finds -/
theorem PollFiles.owned (hfs : fs.Faithful v) (hfiled : dm.Filed) (hi : Intact d v dm) {t : TorrentId}
    {m : BlockMetadata} {p : Poll (Except TorrentError (List (FileWindow × BlockFile File)))}
    (h : PollFiles fs order dm t m p dm') : Cached d v dm'.fileCache ∧ (∀ q, v.store q dm'.world = v.store q dm.world) ∧
      ∀ files, p = .ready (.ok files) → ∀ x ∈ files, d.Owns v x.2.id x.2.inner := by
  -- the files of a torrent lie where their ids say
  have hfiles : ∀ {files}, dm.Touches order t m files →
      ∀ x ∈ files, v.locate x.1.path = v.locate d.path ↔ x.1.id.torrent = d.torrent := by
    intro files ht x hx
    obtain ⟨F, hF, hblock⟩ := ht.torrent
    have hmem := TorrentFile.mem_filesForBlock hblock hx
    rw [(hfiled t F hF).1 x.1 hmem]
    by_cases heq : t = d.torrent
    · subst heq
      rw [hi.own F hF, List.mem_singleton] at hmem
      rw [hmem]
      exact iff_of_true rfl rfl
    · exact iff_of_false (hi.others t F hF heq x.1 hmem) heq
  cases h with
  | unknown => exact ⟨hi.cached, fun q => rfl, nofun⟩
  | outside => exact ⟨hi.cached, fun q => rfl, nofun⟩
  | failed ht htake =>
    obtain ⟨h1, h2, -⟩ := takeFiles_owned hfs hi.cached (hfiles ht) (List.forall_mem_nil _) htake
    exact ⟨h1, h2, nofun⟩
  | @held files queued dm1 ht htake =>
    obtain ⟨h1, h2, h3⟩ := takeFiles_owned hfs hi.cached (hfiles ht) (List.forall_mem_nil _) htake
    refine ⟨h1.insertAll ?_, h2, ?_⟩
    · intro id state f hmem hf
      obtain ⟨x, -, heq⟩ := List.mem_map.mp hmem
      cases heq
      cases hf
    · rintro files' hfiles' x hx
      cases hfiles'
      obtain ⟨y, hy, rfl⟩ := List.mem_map.mp hx
      exact h3 queued true rfl y hy
  | @waiting files queued dm1 ht htake =>
    obtain ⟨h1, h2, h3⟩ := takeFiles_owned hfs hi.cached (hfiles ht) (List.forall_mem_nil _) htake
    refine ⟨h1.insertAll ?_, h2, nofun⟩
    intro id state f hmem hf
    obtain ⟨x, hx, heq⟩ := List.mem_map.mp hmem
    cases heq
    cases hf
    exact h3 queued false rfl x hx

/-- the one window of a block of the torrent -/
theorem PollFiles.window (hi : Intact d v dm) {m : BlockMetadata} {files : List (FileWindow × BlockFile File)}
    (h : PollFiles fs order dm d.torrent m (.ready (.ok files)) dm') :
    m.blockOffset + m.blockLength ≤ d.info.info.pieceLength ∧
      ∃ file, files = [(⟨d.info.info.pieceLength * m.pieceIndex + m.blockOffset,
        if d.info.info.pieceLength * m.pieceIndex + m.blockOffset + m.blockLength ≤ d.size then m.blockLength
        else d.info.info.pieceLength * m.pieceIndex + m.blockOffset⟩, file)] := by
  cases h with
  | @held found queued dm1 ht htake =>
    obtain ⟨F, hF, hblock⟩ := ht.torrent
    obtain ⟨hle, hfound⟩ := Deposit.filesForBlock_entry (hi.own F hF) hblock
    obtain ⟨taken, htaken, -, hall⟩ := takeFiles_spec htake
    rw [List.nil_append] at htaken
    subst htaken
    have hwindows := (hall rfl).2
    rw [hfound, List.map_singleton] at hwindows
    obtain ⟨x, hx, heq⟩ := List.map_eq_singleton_iff.mp hwindows
    rw [hx]
    refine ⟨hle, ⟨x.1, x.2.1⟩, ?_⟩
    show [(x.2.2, _)] = _
    rw [congrArg Prod.snd heq]

/-- a new write of the torrent stands in front of its window -/
theorem guarded_jobFor (hfits : d.Fits) (hc : d.Calls v sha1 ins) (hi : Intact d v dm) {block : Block}
    (hcall : .writeBlock d.torrent block ∈ ins) (hgood : dm.isGoodPiece sha1 d.torrent block = true)
    {files : List (FileWindow × BlockFile File)} {job : BlockJob File}
    (h : PollFiles fs order dm d.torrent block.metadata (.ready (.ok files)) dm')
    (hjob : jobFor files (.writeBlock d.torrent block) = some job) :
    ∃ m b, job = .write (.single m b) ∧ b.Waiting v ∧ d.Spares m b := by
  obtain ⟨hle, file, rfl⟩ := h.window hi
  obtain ⟨hzero, hlength⟩ := hc.whole block hcall
  cases hjob
  refine ⟨_, _, rfl, ⟨rfl, Or.inl rfl⟩, ?_⟩
  rw [hzero, Nat.zero_add, hlength] at hle
  by_cases hpiece : block.metadata.pieceIndex = d.piece
  · -- the only block with the hash of the piece
    obtain ⟨F, hF, hhash⟩ := isGoodPiece_iff.mp hgood
    rw [hi.own F hF, hpiece] at hhash
    have hdata : block.blockData = d.content := hc.same block hcall hpiece hhash
    have hinside := hfits.inside
    unfold Deposit.start at hinside
    refine Or.inl ⟨?_, ?_⟩
    · show d.info.info.pieceLength * block.metadata.pieceIndex + block.metadata.blockOffset = d.start
      rw [hpiece, hzero]
      rfl
    · show block.blockData.take (if _ then _ else _) = d.content
      rw [hpiece, hzero, Nat.add_zero, hlength, hdata, if_pos hinside, List.take_length]
  · -- another piece, and pieces do not overlap
    refine Or.inr ⟨hpiece, ?_⟩
    show d.info.info.pieceLength * block.metadata.pieceIndex + block.metadata.blockOffset + block.blockData.length
        ≤ d.info.info.pieceLength * d.piece ∨ d.info.info.pieceLength * d.piece + d.content.length
        ≤ d.info.info.pieceLength * block.metadata.pieceIndex + block.metadata.blockOffset
    rw [hzero, Nat.add_zero]
    rcases Nat.lt_or_gt_of_ne hpiece with hlt | hgt
    · have hmul := Nat.mul_le_mul_left d.info.info.pieceLength (Nat.succ_le_of_lt hlt)
      rw [Nat.mul_succ] at hmul
      exact Or.inl (by omega)
    · have hmul := Nat.mul_le_mul_left d.info.info.pieceLength (Nat.succ_le_of_lt hgt)
      rw [Nat.mul_succ] at hmul
      have hshort := hfits.short
      exact Or.inr (by omega)

/-! ## a write that is polled -/

/-- the bytes that are on the disk stay when a write of the torrent is done, and a write for the piece puts them there -/
theorem stored_done {m : BlockMetadata} {b b' : BlockFileWrite File} {w w' : World} (hs : d.Spares m b)
    (hown : v.place b.file.inner = v.locate d.path) (h : BlockFileWrite.Done v b b' w w') :
    (d.Stored v w → d.Stored v w') ∧ (m.pieceIndex = d.piece → d.Stored v w') := by
  have hstore := h.store
  rw [hown] at hstore
  rcases hs with ⟨hoff, hdata⟩ | ⟨hother, haway⟩
  · -- the bytes are there now
    have hnow : d.Stored v w' := by
      intro k hk
      have hback : ((overwrite 0 (v.store (v.locate d.path) w) d.start d.content).drop d.start).take d.content.length
          = d.content := take_drop_overwrite d.content
      have hbyte := congrArg (·[k]?) hback
      simp only [List.getElem?_take_of_lt hk, List.getElem?_drop] at hbyte
      rw [hstore, hoff, hdata]
      exact hbyte
    exact ⟨fun _ => hnow, fun _ => hnow⟩
  · refine ⟨?_, fun heq => absurd heq hother⟩
    intro hold k hk
    have hlen : (b.block.take b.fileWindow.length).length ≤ b.block.length := List.length_take_le' _ _
    rw [hstore, ← hold k hk]
    rcases haway with hbefore | hbehind
    · exact getElem?_overwrite_ge _ (by omega)
    · refine getElem?_overwrite_lt _ (by omega) ?_
      have hsome := hold k hk
      rw [List.getElem?_eq_getElem hk] at hsome
      exact (List.getElem?_eq_some_iff.mp hsome).1

end

end DiskManager

end Btt
