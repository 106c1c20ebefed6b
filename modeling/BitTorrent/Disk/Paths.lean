import BitTorrent.Lib.Paths
import BitTorrent.Disk.File
import BitTorrent.Torrent.Bencode

/-!
# Where the files of a torrent are opened

The name of a torrent and the paths of its files are joined to one path (`TorrentFile::new`), which
`NativeFileSystem::poll_open_file` joins to the target directory.  Strings are read as Unix paths.

* `pathOf`               `PathBuf::from` a string;
* `FileEntry.pathBuf`    the path of an entry;
* `StaysInside`          the strings whose join never leaves the directory it starts in;
* `files_stay_inside_iff`   the entries lie below every target directory exactly then.
-/

namespace Btt
open Paths Bencode

/-- a part of a path between two separators -/
def componentOf (part : List Char) : Component (List Char) :=
  if part = ['.'] then .curDir else if part = ['.', '.'] then .parentDir else .normal part

def pathOfChars (cs : List Char) : PathBuf (List Char) where
  absolute := cs.head? = some '/'
  components := ((cs.splitOn '/').filter fun part => part ≠ []).map componentOf

/-- `PathBuf::from(s)` -/
def pathOf (s : String) : PathBuf (List Char) := pathOfChars s.toList

theorem pathOf_ofList (cs : List Char) : pathOf (String.ofList cs) = pathOfChars cs :=
  congrArg pathOfChars String.toList_ofList

/-- the path of an entry: what it was joined from, joined -/
def FileEntry.pathBuf (e : FileEntry) : PathBuf (List Char) := PathBuf.joinAll (e.path.map pathOf)

/-- the path `poll_open_file` opens -/
def openPath (targetDir path : PathBuf (List Char)) : PathBuf (List Char) := targetDir.join path

/-! ## the strings of a metainfo -/

/-- the strings each entry's path is joined from -/
def TorrentInfo.segments (i : TorrentInfo) : List (List String) :=
  match i.content with
  | .single _ => [[i.name]]
  | .multi files => files.map fun f => i.name :: f.paths

theorem TorrentFile.path_entries {id : TorrentId} {root : String} {i offset : Nat} {files : List SubFileInfo}
    {es : List FileEntry} (h : entries id root i offset files = some es) :
    es.map FileEntry.path = files.map fun f => root :: f.paths := by
  induction files generalizing i offset es with
  | nil =>
    cases h
    rfl
  | cons f files ih =>
    obtain ⟨next, -, h⟩ := Option.bind_eq_some_iff.mp h
    obtain ⟨rest, hrest, h⟩ := Option.bind_eq_some_iff.mp h
    cases h
    rw [List.map_cons, List.map_cons, ih hrest]

theorem TorrentFile.path_new {id : TorrentId} {m : MetaInfo} {t : TorrentFile} (h : TorrentFile.new id m = some t) :
    t.files.map FileEntry.path = m.info.segments := by
  unfold TorrentFile.new at h
  unfold TorrentInfo.segments
  cases hc : m.info.content with
  | single length =>
    rw [hc] at h
    cases h
    rfl
  | multi files =>
    rw [hc] at h
    obtain ⟨es, hes, rfl⟩ := Option.map_eq_some_iff.mp h
    exact path_entries hes

/-- none of the strings is absolute, and read one behind the other they never lead above their start, and
below it in the end -/
def StaysInside (segments : List String) : Prop :=
  (∀ s ∈ segments, (pathOf s).absolute = false) ∧ Inside (segments.flatMap fun s => (pathOf s).components)

theorem below_iff_staysInside (segments : List String) :
    (∀ targetDir : PathBuf (List Char),
        targetDir.resolve.Below (openPath targetDir (PathBuf.joinAll (segments.map pathOf))).resolve) ↔
      StaysInside segments := by
  have habs : (PathBuf.joinAll (segments.map pathOf)).absolute = false ↔
      ∀ s ∈ segments, (pathOf s).absolute = false := by
    rw [PathBuf.absolute_joinAll, List.any_eq_false, List.forall_mem_map]
    simp only [Bool.not_eq_true]
  unfold openPath
  rw [PathBuf.below_join_iff, habs]
  refine and_congr_right fun hrel => ?_
  rw [PathBuf.components_joinAll (List.forall_mem_map.mpr hrel), List.flatMap_map]

/-- **The files of a torrent stay inside the download directory**, whatever it is, exactly if the strings of
each path do. -/
theorem files_stay_inside_iff (id : TorrentId) (m : MetaInfo) {t : TorrentFile} (h : TorrentFile.new id m = some t) :
    (∀ e ∈ t.files, ∀ targetDir : PathBuf (List Char),
        targetDir.resolve.Below (openPath targetDir e.pathBuf).resolve) ↔
      ∀ segments ∈ m.info.segments, StaysInside segments := by
  rw [← TorrentFile.path_new h, List.forall_mem_map]
  exact forall₂_congr fun e _ => below_iff_staysInside e.path

/-- a file `a` in the target directory `/d` -/
theorem files_stay_inside_file :
    (pathOf "/d").resolve.Below
      (openPath (pathOf "/d") (⟨["a"], ⟨⟨0⟩, ⟨0⟩⟩, 0, 5⟩ : FileEntry).pathBuf).resolve := by
  refine (files_stay_inside_iff ⟨0⟩ infoOfFile.aloneRead rfl).mpr ?_ _ (List.mem_singleton_self _) (pathOf "/d")
  intro segments hsegments
  obtain rfl : segments = ["a"] := List.mem_singleton.mp hsegments
  have ha : pathOf "a" = ⟨false, [.normal ['a']]⟩ := pathOf_ofList ['a']
  refine ⟨?_, ?_⟩
  · intro s hs
    rw [List.mem_singleton.mp hs, ha]
  · rw [List.flatMap_singleton, ha]
    exact inside_normals (List.cons_ne_nil ['a'] [])

/-- a single file whose name leads out of the directory it is put into -/
def infoOutside : TorrentInfo := ⟨[.replicate 7], 16384, .single 5, "../a"⟩

/-- it is accepted, and with the target directory `/d` the file `/a` is opened -/
theorem opened_outside :
    MetaInfo.fromBencode bendyOfRead infoOutside.alone = .ok infoOutside.aloneRead ∧
      ∃ t, TorrentFile.new ⟨0⟩ infoOutside.aloneRead = some t ∧
        ∃ e ∈ t.files, (openPath (pathOf "/d") e.pathBuf).resolve = (pathOf "/a").resolve ∧
          ¬ (pathOf "/d").resolve.Below (openPath (pathOf "/d") e.pathBuf).resolve := by
  have hname : pathOf infoOutside.aloneRead.info.name = ⟨false, [.parentDir, .normal ['a']]⟩ :=
    pathOf_ofList ['.', '.', '/', 'a']
  have htarget : pathOf "/d" = ⟨true, [.normal ['d']]⟩ := pathOf_ofList ['/', 'd']
  have hopened : pathOf "/a" = ⟨true, [.normal ['a']]⟩ := pathOf_ofList ['/', 'a']
  refine ⟨TorrentInfo.fromBencode_alone ⟨by decide, by show 5 < 2 ^ 64; decide⟩ rfl, _, rfl, _,
    List.mem_singleton_self _, ?_⟩
  rw [FileEntry.pathBuf, List.map_singleton, hname, htarget, hopened]
  refine ⟨rfl, ?_⟩
  rintro ⟨-, -, names, -, hnames⟩
  have hnames : [['a']] = [['d']] ++ names := hnames
  cases hnames

end Btt
