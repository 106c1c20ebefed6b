import BitTorrent.Disk.Block
import BitTorrent.Lib.Maps

/-!
# The files of a torrent on disk

`TorrentFile` of `src/disk/file.rs`: the entries for the files of a metainfo, the check of a piece
against its hash, and the windows of the files a block touches.  The set of entries is a list without
duplicates, walked in an order given from outside; a path is the list of the components it was joined
from.
-/

namespace Btt

structure FileId where
  val : Nat
deriving DecidableEq

structure TorrentFileId where
  torrent : TorrentId
  file : FileId
deriving DecidableEq

structure FileEntry where
  path : List String
  id : TorrentFileId
  offset : Nat
  size : Nat
deriving DecidableEq

structure FileWindow where
  offset : Nat
  length : Nat
deriving DecidableEq

structure TorrentFile where
  id : TorrentId
  metaInfo : MetaInfo
  files : List FileEntry
deriving DecidableEq

namespace TorrentFile

/-- the fold over the files of a multi-file torrent; `none` is the overflow of an offset -/
def entries (id : TorrentId) (root : String) : Nat → Nat → List SubFileInfo → Option (List FileEntry)
  | _, _, [] => some []
  | fileIndex, offset, file :: files => do
    let next ← checkedAdd offset file.length
    let rest ← entries id root (fileIndex + 1) next files
    some (⟨root :: file.paths, ⟨id, ⟨fileIndex⟩⟩, offset, file.length⟩ :: rest)

def new (id : TorrentId) (metaInfo : MetaInfo) : Option TorrentFile :=
  match metaInfo.info.content with
  | .single length => some ⟨id, metaInfo, [⟨[metaInfo.info.name], ⟨id, ⟨0⟩⟩, 0, length⟩]⟩
  | .multi files => (entries id metaInfo.info.name 0 0 files).map fun fs => ⟨id, metaInfo, fs⟩

section
variable (sha1 : List UInt8 → ShaHash)

/-- the SHA-1 of the block is the hash listed for its piece -/
def isGoodPiece (t : TorrentFile) (block : Block) : Bool :=
  match t.metaInfo.info.pieces[block.metadata.pieceIndex]? with
  | some pieceHash => sha1 block.blockData = pieceHash
  | none => false

end

/-- the loop over the entries; a file that holds the whole block ends it -/
def windows (blockStart blockEnd blockLength : Nat) :
    List FileEntry → List (FileEntry × FileWindow) → Option (List (FileEntry × FileWindow))
  | [], acc => some acc
  | file :: files, acc =>
    if blockStart ≥ file.offset then do
      let fileEnd ← checkedAdd file.offset file.size
      if fileEnd ≥ blockEnd then some [(file, ⟨blockStart - file.offset, blockLength⟩)]
      else
        let windowOffset := blockStart - file.offset
        -- the length of the window is computed and dropped, the offset stands in both places
        let _ ← checkedSub fileEnd blockStart
        windows blockStart blockEnd blockLength files (acc ++ [(file, ⟨windowOffset, windowOffset⟩)])
    else do
      let fileEnd ← checkedAdd file.size file.offset
      if fileEnd ≤ blockEnd then
        let windowLength ← checkedAdd (blockEnd - file.offset) file.size
        windows blockStart blockEnd blockLength files (acc ++ [(file, ⟨0, windowLength⟩)])
      else windows blockStart blockEnd blockLength files acc

/-- all files the block touches; `none` is the panic of an overflow or underflow -/
def filesForBlock (t : TorrentFile) (order : Arrangement FileEntry) (metadata : BlockMetadata) :
    Option (Except TorrentError (List (FileEntry × FileWindow))) :=
  if metadata.pieceIndex < t.metaInfo.info.pieces.length then do
    let blockTo ← checkedAdd metadata.blockOffset metadata.blockLength
    if blockTo ≤ t.metaInfo.info.pieceLength then
      let pieceStart ← checkedMul t.metaInfo.info.pieceLength metadata.pieceIndex
      let blockStart ← checkedAdd pieceStart metadata.blockOffset
      let blockEnd ← checkedAdd blockStart metadata.blockLength
      let files ← windows blockStart blockEnd metadata.blockLength (order.run t.files) []
      some (.ok files)
    else some (.error (.badPiece metadata.pieceIndex))
  else some (.error (.badPiece metadata.pieceIndex))

/-! ## the files of a torrent -/

theorem torrent_of_mem_entries {id : TorrentId} {root : String} {i offset : Nat} {files : List SubFileInfo}
    {es : List FileEntry} (h : entries id root i offset files = some es) {e : FileEntry} (he : e ∈ es) :
    e.id.torrent = id ∧ i ≤ e.id.file.val := by
  induction files generalizing i offset es with
  | nil =>
    cases h
    cases he
  | cons file files ih =>
    obtain ⟨next, -, h⟩ := Option.bind_eq_some_iff.mp h
    obtain ⟨rest, hrest, h⟩ := Option.bind_eq_some_iff.mp h
    cases h
    rcases List.mem_cons.mp he with rfl | he
    · exact ⟨rfl, Nat.le_refl _⟩
    · obtain ⟨h1, h2⟩ := ih hrest he
      exact ⟨h1, by omega⟩

theorem nodup_entries {id : TorrentId} {root : String} {i offset : Nat} {files : List SubFileInfo}
    {es : List FileEntry} (h : entries id root i offset files = some es) : (es.map FileEntry.id).Nodup := by
  induction files generalizing i offset es with
  | nil =>
    cases h
    exact List.nodup_nil
  | cons file files ih =>
    obtain ⟨next, -, h⟩ := Option.bind_eq_some_iff.mp h
    obtain ⟨rest, hrest, h⟩ := Option.bind_eq_some_iff.mp h
    cases h
    refine List.nodup_cons.mpr ⟨?_, ih hrest⟩
    intro hmem
    obtain ⟨e, he, heq⟩ := List.mem_map.mp hmem
    have hle := (torrent_of_mem_entries hrest he).2
    rw [heq] at hle
    exact Nat.not_succ_le_self i hle

/-- the files of a new torrent bear its id -/
theorem torrent_of_mem_new {id : TorrentId} {info : MetaInfo} {t : TorrentFile} (h : new id info = some t)
    {e : FileEntry} (he : e ∈ t.files) : e.id.torrent = id := by
  unfold new at h
  split at h
  · cases h
    rw [List.mem_singleton.mp he]
  · obtain ⟨es, hes, rfl⟩ := Option.map_eq_some_iff.mp h
    exact (torrent_of_mem_entries hes he).1

/-- and no two of them the same one -/
theorem nodup_new {id : TorrentId} {info : MetaInfo} {t : TorrentFile} (h : new id info = some t) :
    (t.files.map FileEntry.id).Nodup := by
  unfold new at h
  split at h
  · cases h
    exact List.nodup_singleton _
  · obtain ⟨es, hes, rfl⟩ := Option.map_eq_some_iff.mp h
    exact nodup_entries hes

theorem metaInfo_new {id : TorrentId} {info : MetaInfo} {t : TorrentFile} (h : new id info = some t) :
    t.metaInfo = info := by
  unfold new at h
  split at h
  · cases h
    rfl
  · obtain ⟨es, hes, rfl⟩ := Option.map_eq_some_iff.mp h
    rfl

/-- a block is outside of the torrent, or it ends below 2^64 and its files are looked for -/
theorem filesForBlock_cases {t : TorrentFile} {order : Arrangement FileEntry} {m : BlockMetadata}
    {r : Except TorrentError (List (FileEntry × FileWindow))} (h : t.filesForBlock order m = some r) :
    r = .error (.badPiece m.pieceIndex) ∨
    ∃ ws, r = .ok ws ∧ m.pieceIndex < t.metaInfo.info.pieces.length ∧
      m.blockOffset + m.blockLength ≤ t.metaInfo.info.pieceLength ∧
      t.metaInfo.info.pieceLength * m.pieceIndex + m.blockOffset + m.blockLength < 2 ^ 64 ∧
      windows (t.metaInfo.info.pieceLength * m.pieceIndex + m.blockOffset)
        (t.metaInfo.info.pieceLength * m.pieceIndex + m.blockOffset + m.blockLength) m.blockLength
        (order.run t.files) [] = some ws := by
  unfold filesForBlock at h
  split at h
  · rename_i hpiece
    obtain ⟨blockTo, hto, h⟩ := Option.bind_eq_some_iff.mp h
    obtain ⟨-, rfl⟩ := of_checkedAdd hto
    split at h
    · rename_i hle
      obtain ⟨pieceStart, hmul, h⟩ := Option.bind_eq_some_iff.mp h
      obtain ⟨start, hstart, h⟩ := Option.bind_eq_some_iff.mp h
      obtain ⟨stop, hstop, h⟩ := Option.bind_eq_some_iff.mp h
      obtain ⟨ws, hw, h⟩ := Option.bind_eq_some_iff.mp h
      cases h
      obtain rfl := of_checkedMul hmul
      obtain ⟨-, rfl⟩ := of_checkedAdd hstart
      obtain ⟨hlt, rfl⟩ := of_checkedAdd hstop
      exact Or.inr ⟨ws, rfl, hpiece, hle, hlt, hw⟩
    · cases h
      exact Or.inl rfl
  · cases h
    exact Or.inl rfl

/-- a block outside of the torrent is a bad piece -/
theorem filesForBlock_error {t : TorrentFile} {order : Arrangement FileEntry} {metadata : BlockMetadata}
    {e : TorrentError} (h : t.filesForBlock order metadata = some (.error e)) (id : TorrentId) :
    e ≠ .torrentNotFound id := by
  rcases filesForBlock_cases h with he | ⟨ws, he, -⟩
  · cases he
    intro hne
    cases hne
  · cases he

theorem sublist_windows {blockStart blockEnd blockLength : Nat} {files : List FileEntry}
    {acc r : List (FileEntry × FileWindow)} (h : windows blockStart blockEnd blockLength files acc = some r) :
    (r.map Prod.fst).Sublist (acc.map Prod.fst ++ files) := by
  induction files generalizing acc with
  | nil =>
    cases h
    rw [List.append_nil]
  | cons file files ih =>
    -- the window of the file at hand joins the ones so far
    have hgrow : ∀ window, windows blockStart blockEnd blockLength files (acc ++ [(file, window)]) = some r →
        (r.map Prod.fst).Sublist (acc.map Prod.fst ++ file :: files) := by
      intro window hw
      have := ih hw
      rwa [List.map_append, List.append_assoc] at this
    unfold windows at h
    split at h
    · obtain ⟨fileEnd, -, h⟩ := Option.bind_eq_some_iff.mp h
      split at h
      · cases h
        exact List.singleton_sublist.mpr (List.mem_append_right _ List.mem_cons_self)
      · obtain ⟨len, -, h⟩ := Option.bind_eq_some_iff.mp h
        exact hgrow _ h
    · obtain ⟨fileEnd, -, h⟩ := Option.bind_eq_some_iff.mp h
      split at h
      · obtain ⟨len, -, h⟩ := Option.bind_eq_some_iff.mp h
        exact hgrow _ h
      · exact (ih h).trans ((List.Sublist.refl _).append (List.sublist_cons_self file files))

/-- a block touches files of its torrent only, each once -/
theorem filesForBlock_sublist {t : TorrentFile} {order : Arrangement FileEntry} {m : BlockMetadata}
    {r : List (FileEntry × FileWindow)} (h : t.filesForBlock order m = some (.ok r)) :
    (r.map Prod.fst).Sublist (order.run t.files) := by
  rcases filesForBlock_cases h with he | ⟨ws, he, -, -, -, hw⟩
  · cases he
  · cases he
    exact sublist_windows hw

theorem mem_filesForBlock {t : TorrentFile} {order : Arrangement FileEntry} {m : BlockMetadata}
    {r : List (FileEntry × FileWindow)} (h : t.filesForBlock order m = some (.ok r))
    {x : FileEntry × FileWindow} (hx : x ∈ r) : x.1 ∈ t.files :=
  order.mem_run.mp ((filesForBlock_sublist h).subset (List.mem_map_of_mem hx))

theorem nodup_filesForBlock {t : TorrentFile} (ht : (t.files.map FileEntry.id).Nodup)
    {order : Arrangement FileEntry} {m : BlockMetadata} {r : List (FileEntry × FileWindow)}
    (h : t.filesForBlock order m = some (.ok r)) : (r.map fun x => x.1.id).Nodup := by
  have hrun : ((order.run t.files).map FileEntry.id).Nodup := ((order.perm t.files).map _).nodup_iff.mpr ht
  have hsub := ((filesForBlock_sublist h).map FileEntry.id).nodup hrun
  rwa [List.map_map] at hsub

end TorrentFile

end Btt
