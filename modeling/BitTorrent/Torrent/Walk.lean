import BitTorrent.Torrent.Builder

/-!
# The directory walk of the builder

`read_dir` and `compute_piece_length` of `src/torrent/builder.rs` walk the content root with
`WalkDir::into_iter().filter_entry(..)`.  The predicate decides about every entry, the root included, and
a directory it refuses is not descended into.  It refuses every directory, so nothing is ever found below
a root that is one.

* `FsEntry`             a directory tree; `FsEntry.walk` is the filtered walk over it;
* `readDirVisits`, `sizeVisits`   the files either traversal meets;
* `visibleIn`           what they should meet;
* `walk_visible`        a walk that refuses the hidden entries alone does.
-/

namespace Btt

/-- an entry of the file system; the name is the one `to_str` gives, `none` if it is no text -/
inductive FsEntry where
  | file (name : Option String) (source : SourceFile)
  | dir (name : Option String) (children : List FsEntry)
  /-- a symbolic link, a socket, .. -/
  | other (name : Option String)

namespace FsEntry

def fileName : FsEntry → Option String
  | .file name _ => name
  | .dir name _ => name
  | .other name => name

/-- `file_type().is_file()` -/
def isFile : FsEntry → Bool
  | .file _ _ => true
  | _ => false

/-- the file to be read, if the entry is one -/
def source? : FsEntry → Option SourceFile
  | .file _ s => some s
  | _ => none

/-- ignore all hidden entries -/
def isHidden (e : FsEntry) : Bool := (e.fileName.map fun s => decide (s.toList.head? = some '.')).getD false

mutual

/-- the entries a filtered walk yields: an entry before what is below it, and nothing below an entry that
is refused -/
def walk (filterEntry : FsEntry → Bool) : FsEntry → List FsEntry
  | .file name s => if filterEntry (.file name s) then [.file name s] else []
  | .dir name children =>
    if filterEntry (.dir name children) then .dir name children :: walkAll filterEntry children else []
  | .other name => if filterEntry (.other name) then [.other name] else []

def walkAll (filterEntry : FsEntry → Bool) : List FsEntry → List FsEntry
  | [] => []
  | e :: es => e.walk filterEntry ++ walkAll filterEntry es

end

/-- the files `read_dir` hands to `read_file` -/
def readDirVisits (root : FsEntry) : List SourceFile :=
  (root.walk fun e => !e.isHidden && e.isFile).filterMap source?

/-- the files whose lengths `compute_piece_length` sums -/
def sizeVisits (root : FsEntry) : List SourceFile :=
  (root.walk fun e => !e.isHidden && e.isFile).filterMap source?

/-- `size` of `compute_piece_length`; `none` where the sum overflows -/
def computeSize (root : FsEntry) : Option Nat :=
  (sizeVisits root).foldlM (fun size s => checkedAdd size s.length) 0

/-! ## what is visible -/

mutual

/-- the regular files at or below an entry that neither are hidden nor lie below a hidden one -/
def visible : FsEntry → List SourceFile
  | .file name s => if (FsEntry.file name s).isHidden then [] else [s]
  | .dir name children => if (FsEntry.dir name children).isHidden then [] else visibleIn children
  | .other _ => []

def visibleIn : List FsEntry → List SourceFile
  | [] => []
  | e :: es => e.visible ++ visibleIn es

end

mutual

/-- a walk that refuses the hidden entries alone meets the visible files, in their order -/
theorem walk_visible : ∀ e : FsEntry, (e.walk fun x => !x.isHidden).filterMap source? = e.visible
  | .file name s => by
    unfold walk visible
    cases (FsEntry.file name s).isHidden <;> rfl
  | .dir name children => by
    unfold walk visible
    cases (FsEntry.dir name children).isHidden with
    | true => rfl
    | false => exact walkAll_visible children
  | .other name => by
    unfold walk visible
    cases (FsEntry.other name).isHidden <;> rfl

theorem walkAll_visible : ∀ es : List FsEntry, (walkAll (fun x => !x.isHidden) es).filterMap source? = visibleIn es
  | [] => rfl
  | e :: es => by
    unfold walkAll visibleIn
    rw [List.filterMap_append, walk_visible e, walkAll_visible es]

end

/-- either traversal meets every visible file below the root, each once -/
structure VisitsVisible (name : Option String) (children : List FsEntry) : Prop where
  reads : (readDirVisits (.dir name children)).Perm (visibleIn children)
  sizes : (sizeVisits (.dir name children)).Perm (visibleIn children)
  size : computeSize (.dir name children) = (visibleIn children).foldlM (fun size s => checkedAdd size s.length) 0

/-- a refused root is the end of the walk -/
theorem walk_dir_of_not {filterEntry : FsEntry → Bool} {name : Option String} {children : List FsEntry}
    (h : filterEntry (.dir name children) = false) : (FsEntry.dir name children).walk filterEntry = [] := by
  unfold walk
  rw [h]
  rfl

/-- a directory is refused, whatever its name -/
theorem readDirVisits_dir (name : Option String) (children : List FsEntry) :
    readDirVisits (.dir name children) = [] := by
  unfold readDirVisits
  rw [walk_dir_of_not (Bool.and_false _)]
  rfl

/-- **The builder includes every visible file** of a directory exactly if there is none. -/
theorem visitsVisible_iff (name : Option String) (children : List FsEntry) :
    VisitsVisible name children ↔ visibleIn children = [] := by
  have hsize : sizeVisits (.dir name children) = [] := readDirVisits_dir name children
  constructor
  · rintro ⟨hreads, -, -⟩
    rw [readDirVisits_dir] at hreads
    exact List.nil_perm.mp hreads
  · intro hnone
    refine ⟨?_, ?_, ?_⟩
    · rw [readDirVisits_dir, hnone]
    · rw [hsize, hnone]
    · rw [computeSize, hsize, hnone]

/-- the only file of a directory is left out -/
theorem only_file_left_out :
    ¬ VisitsVisible (some "content") [.file (some "a.txt") ⟨"content/a.txt", .ok ["a.txt"], 1, [1]⟩] := by
  rintro ⟨hreads, -, -⟩
  have hvisible : visibleIn [.file (some "a.txt") ⟨"content/a.txt", .ok ["a.txt"], 1, [1]⟩]
      = [⟨"content/a.txt", .ok ["a.txt"], 1, [1]⟩] := rfl
  rw [readDirVisits_dir, hvisible] at hreads
  cases hreads.length_eq

/-- so whatever the directory holds, the metainfo built for it has no files and no pieces -/
theorem readContent_dir (n : Nat) (name : Option String) (children : List FsEntry) :
    readContent n (.dir (readDirVisits (.dir name children))) = some (.ok (.multi [], [])) := by
  rw [readDirVisits_dir]
  rfl

end FsEntry

end Btt
