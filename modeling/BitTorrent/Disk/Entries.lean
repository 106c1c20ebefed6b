import BitTorrent.Disk.File
import BitTorrent.Lib.Tiling
import BitTorrent.Torrent.Geometry

/-!
# The entries of a torrent partition its content

`TorrentFile::new` collects the entries in a hash set: the hash of an entry is the hash of its path, the
equality compares path, id, offset and size.

* `newHashed`       the construction with that set, for any hash and any equality of paths;
* `newHashed_eq`    no entry is dropped: the ids differ, so the list of `TorrentFile.new` is the set;
* `Partitions`      one entry a file, each behind the files before it, and every byte in exactly one.
-/

namespace Btt
open Tiling

/-- the lengths of the files, in the order of the torrent -/
def InfoContent.lengths : InfoContent → List Nat
  | .single n => [n]
  | .multi files => files.map SubFileInfo.length

theorem InfoContent.sum_lengths (content : InfoContent) : content.lengths.sum = content.total := by
  cases content with
  | single n => exact Nat.add_zero n
  | multi files => rfl

/-- the interval of the content an entry covers -/
def FileEntry.place (e : FileEntry) : Nat × Nat := (e.offset, e.size)

def FileEntry.Spans (e : FileEntry) (p : Nat) : Prop := e.offset ≤ p ∧ p < e.offset + e.size

namespace TorrentFile

/-! ## the hash set -/

section
variable (hash : List String → UInt64) (samePath : List String → List String → Bool)

/-- the derived equality of entries -/
def sameEntry (a b : FileEntry) : Bool :=
  samePath a.path b.path && a.id = b.id && a.offset = b.offset && a.size = b.size

def insertEntry (files : List FileEntry) (entry : FileEntry) : List FileEntry :=
  HashTable.insert (fun e => hash e.path) (sameEntry samePath) files entry

/-- one step of the fold: index, offset and set of the files before -/
def foldFile (id : TorrentId) (root : String) (acc : Nat × Nat × List FileEntry) (file : SubFileInfo) :
    Option (Nat × Nat × List FileEntry) := do
  let files := insertEntry hash samePath acc.2.2 ⟨root :: file.paths, ⟨id, ⟨acc.1⟩⟩, acc.2.1, file.length⟩
  let next ← checkedAdd acc.2.1 file.length
  some (acc.1 + 1, next, files)

/-- `TorrentFile::new` with its hash set -/
def newHashed (id : TorrentId) (metaInfo : MetaInfo) : Option TorrentFile :=
  match metaInfo.info.content with
  | .single length =>
    some ⟨id, metaInfo, insertEntry hash samePath [] ⟨[metaInfo.info.name], ⟨id, ⟨0⟩⟩, 0, length⟩⟩
  | .multi files => do
    let folded ← files.foldlM (foldFile hash samePath id metaInfo.info.name) (0, 0, [])
    some ⟨id, metaInfo, folded.2.2⟩

variable {hash samePath}

theorem insertEntry_of_id_ne {files : List FileEntry} {entry : FileEntry} (h : ∀ e ∈ files, e.id ≠ entry.id) :
    insertEntry hash samePath files entry = files ++ [entry] := by
  refine HashTable.insert_of_fresh fun e he => ?_
  unfold sameEntry
  rw [decide_eq_false (h e he), Bool.and_false, Bool.false_and, Bool.false_and]

/-- the fold adds the entries of the files it goes over, as long as the set has smaller indices only -/
theorem foldlM_foldFile {id : TorrentId} {root : String} (files : List SubFileInfo) {i offset : Nat}
    {set : List FileEntry} (hset : ∀ e ∈ set, e.id.file.val < i) :
    (files.foldlM (foldFile hash samePath id root) (i, offset, set)).map (fun folded => folded.2.2)
      = (entries id root i offset files).map (fun es => set ++ es) := by
  induction files generalizing i offset set with
  | nil =>
    show some set = some (set ++ [])
    rw [List.append_nil]
  | cons file files ih =>
    have hfresh : ∀ e ∈ set, e.id ≠ ⟨id, ⟨i⟩⟩ := by
      intro e he heq
      have := hset e he
      rw [heq] at this
      exact Nat.lt_irrefl i this
    rw [List.foldlM_cons, foldFile, insertEntry_of_id_ne hfresh, entries]
    cases hnext : checkedAdd offset file.length with
    | none => rfl
    | some next =>
      have hset' : ∀ e ∈ set ++ [⟨root :: file.paths, ⟨id, ⟨i⟩⟩, offset, file.length⟩], e.id.file.val < i + 1 := by
        intro e he
        rcases List.mem_append.mp he with he | he
        · exact Nat.lt_succ_of_lt (hset e he)
        · rw [List.mem_singleton.mp he]
          exact Nat.lt_succ_self i
      simp only [Option.bind_eq_bind, Option.bind_some, Option.map_bind]
      rw [ih hset', Option.map_eq_bind]
      refine congrArg _ (funext fun es => ?_)
      show some (_ ++ [_] ++ es) = some (_ ++ _ :: es)
      rw [List.append_assoc, List.singleton_append]

/-- no entry is dropped by the hash set -/
theorem newHashed_eq (id : TorrentId) (metaInfo : MetaInfo) :
    newHashed hash samePath id metaInfo = new id metaInfo := by
  unfold newHashed new
  cases metaInfo.info.content with
  | single length => rfl
  | multi files =>
    calc (files.foldlM (foldFile hash samePath id metaInfo.info.name) (0, 0, [])).bind
          (fun folded => some (⟨id, metaInfo, folded.2.2⟩ : TorrentFile))
        = ((files.foldlM (foldFile hash samePath id metaInfo.info.name) (0, 0, [])).map
            (fun folded => folded.2.2)).map (fun fs => (⟨id, metaInfo, fs⟩ : TorrentFile)) := by
          rw [Option.map_map, Option.map_eq_bind]
          rfl
      _ = ((entries id metaInfo.info.name 0 0 files).map fun es => [] ++ es).map
            (fun fs => (⟨id, metaInfo, fs⟩ : TorrentFile)) := by
          rw [foldlM_foldFile files (fun e he => by cases he)]
      _ = (entries id metaInfo.info.name 0 0 files).map (fun fs => (⟨id, metaInfo, fs⟩ : TorrentFile)) := by
          rw [Option.map_map]
          rfl

end

/-! ## the intervals of the entries -/

section
variable {id : TorrentId} {root : String}

/-- the entries lie one behind the other, from the offset of the first -/
theorem entries_contig {files : List SubFileInfo} {i offset : Nat} {es : List FileEntry}
    (h : entries id root i offset files = some es) :
    Contig offset (es.map FileEntry.place) (offset + (files.map SubFileInfo.length).sum) := by
  induction files generalizing i offset es with
  | nil =>
    cases h
    exact (Nat.add_zero offset).symm
  | cons file files ih =>
    obtain ⟨next, hnext, h⟩ := Option.bind_eq_some_iff.mp h
    obtain ⟨rest, hrest, h⟩ := Option.bind_eq_some_iff.mp h
    cases h
    obtain ⟨-, rfl⟩ := of_checkedAdd hnext
    refine ⟨rfl, ?_⟩
    rw [List.map_cons, List.sum_cons, ← Nat.add_assoc]
    exact ih hrest

/-- the k-th entry is the one of the k-th file -/
theorem getElem?_entries {files : List SubFileInfo} {i offset : Nat} {es : List FileEntry}
    (h : entries id root i offset files = some es) :
    es.length = files.length ∧ ∀ (k : Nat) (file : SubFileInfo), files[k]? = some file →
      es[k]? = some ⟨root :: file.paths, ⟨id, ⟨i + k⟩⟩,
        offset + ((files.take k).map SubFileInfo.length).sum, file.length⟩ := by
  induction files generalizing i offset es with
  | nil =>
    cases h
    refine ⟨rfl, fun k file hk => ?_⟩
    cases hk
  | cons first files ih =>
    obtain ⟨next, hnext, h⟩ := Option.bind_eq_some_iff.mp h
    obtain ⟨rest, hrest, h⟩ := Option.bind_eq_some_iff.mp h
    cases h
    obtain ⟨-, rfl⟩ := of_checkedAdd hnext
    obtain ⟨hlen, hkth⟩ := ih hrest
    refine ⟨congrArg Nat.succ hlen, fun k file hk => ?_⟩
    cases k with
    | zero =>
      cases hk
      rfl
    | succ k =>
      rw [List.getElem?_cons_succ] at hk
      rw [List.getElem?_cons_succ, hkth k file hk, List.take_succ_cons, List.map_cons, List.sum_cons,
        Nat.add_assoc offset, Nat.add_assoc i, Nat.add_comm 1 k]

/-- the offsets of a content that fits into `u64` are computed -/
theorem exists_entries (id : TorrentId) (root : String) (files : List SubFileInfo) (i : Nat) {offset : Nat}
    (h : offset + (files.map SubFileInfo.length).sum < 2 ^ 64) : ∃ es, entries id root i offset files = some es := by
  induction files generalizing i offset with
  | nil => exact ⟨[], rfl⟩
  | cons file files ih =>
    rw [List.map_cons, List.sum_cons, ← Nat.add_assoc] at h
    obtain ⟨rest, hrest⟩ := ih (i + 1) h
    refine ⟨⟨root :: file.paths, ⟨id, ⟨i⟩⟩, offset, file.length⟩ :: rest, ?_⟩
    rw [entries, checkedAdd_eq (Nat.lt_of_le_of_lt (Nat.le_add_right _ _) h), Option.bind_eq_bind, Option.bind_some,
      hrest]
    rfl

end

/-- The entries are one for each of the lengths, with an id of its own, an offset behind the files before and
the length as size; every byte below the end lies in exactly one of them. -/
structure Partitions (t : TorrentFile) (lengths : List Nat) : Prop where
  onePerFile : t.files.length = lengths.length
  ids : (t.files.map FileEntry.id).Nodup
  kth : ∀ (k length : Nat), lengths[k]? = some length → ∃ e, t.files[k]? = some e ∧
    e.id = ⟨t.id, ⟨k⟩⟩ ∧ e.offset = (lengths.take k).sum ∧ e.size = length
  disjoint : t.files.Pairwise fun a b => ∀ p, a.Spans p → ¬ b.Spans p
  covers : ∀ p, p < lengths.sum ↔ ∃ e ∈ t.files, e.Spans p

/-- entries one behind the other partition what is between their ends -/
theorem Partitions.of_contig {t : TorrentFile} {lengths : List Nat} (hlen : t.files.length = lengths.length)
    (hids : (t.files.map FileEntry.id).Nodup)
    (hkth : ∀ (k length : Nat), lengths[k]? = some length → ∃ e, t.files[k]? = some e ∧
      e.id = ⟨t.id, ⟨k⟩⟩ ∧ e.offset = (lengths.take k).sum ∧ e.size = length)
    (hcontig : Contig 0 (t.files.map FileEntry.place) lengths.sum) : t.Partitions lengths where
  onePerFile := hlen
  ids := hids
  kth := hkth
  disjoint := by
    refine (List.pairwise_map.mp hcontig.pairwise).imp ?_
    intro a b hab p ha hb
    have hend : a.offset + a.size ≤ b.offset := hab
    exact Nat.lt_irrefl p (Nat.lt_of_lt_of_le ha.2 (Nat.le_trans hend hb.1))
  covers p := by
    constructor
    · intro hp
      obtain ⟨x, hx, hspan⟩ := hcontig.between_iff.mp ⟨Nat.zero_le p, hp⟩
      obtain ⟨e, he, rfl⟩ := List.mem_map.mp hx
      exact ⟨e, he, hspan⟩
    · rintro ⟨e, he, hspan⟩
      exact (hcontig.between_iff.mpr ⟨e.place, List.mem_map_of_mem he, hspan⟩).2

theorem partitions_single (id : TorrentId) (metaInfo : MetaInfo) (path : List String) (length : Nat) :
    Partitions ⟨id, metaInfo, [⟨path, ⟨id, ⟨0⟩⟩, 0, length⟩]⟩ [length] := by
  refine Partitions.of_contig rfl (List.nodup_singleton _) ?_ ⟨rfl, Nat.add_comm 0 length⟩
  intro k n hk
  cases k with
  | zero =>
    cases hk
    exact ⟨_, rfl, rfl, rfl, rfl⟩
  | succ k => cases hk

theorem partitions_entries {id : TorrentId} {root : String} {files : List SubFileInfo} {es : List FileEntry}
    (h : entries id root 0 0 files = some es) (metaInfo : MetaInfo) :
    Partitions ⟨id, metaInfo, es⟩ (files.map SubFileInfo.length) := by
  obtain ⟨hlen, hkth⟩ := getElem?_entries h
  have hcontig := entries_contig h
  rw [Nat.zero_add] at hcontig
  refine Partitions.of_contig ?_ (nodup_entries h) ?_ hcontig
  · show es.length = (files.map SubFileInfo.length).length
    rw [hlen, List.length_map]
  · intro k n hk
    rw [List.getElem?_map, Option.map_eq_some_iff] at hk
    obtain ⟨file, hfile, rfl⟩ := hk
    refine ⟨_, hkth k file hfile, ?_, ?_, rfl⟩
    · show TorrentFileId.mk id ⟨0 + k⟩ = _
      rw [Nat.zero_add]
    · show 0 + ((files.take k).map SubFileInfo.length).sum = ((files.map SubFileInfo.length).take k).sum
      rw [Nat.zero_add, List.map_take]

theorem id_new {id : TorrentId} {metaInfo : MetaInfo} {t : TorrentFile} (h : new id metaInfo = some t) : t.id = id := by
  unfold new at h
  split at h
  · cases h
    rfl
  · obtain ⟨es, -, rfl⟩ := Option.map_eq_some_iff.mp h
    rfl

theorem exists_new_partitions (id : TorrentId) (metaInfo : MetaInfo) (h : metaInfo.info.content.total < 2 ^ 64) :
    ∃ t, new id metaInfo = some t ∧ t.Partitions metaInfo.info.content.lengths := by
  unfold new
  cases hcontent : metaInfo.info.content with
  | single length => exact ⟨_, rfl, partitions_single id metaInfo _ length⟩
  | multi files =>
    rw [hcontent] at h
    have hsum : 0 + (files.map SubFileInfo.length).sum < 2 ^ 64 := by
      rw [Nat.zero_add]
      exact h
    obtain ⟨es, hes⟩ := exists_entries id metaInfo.info.name files 0 hsum
    exact ⟨⟨id, metaInfo, es⟩, Option.map_eq_some_iff.mpr ⟨es, hes, rfl⟩, partitions_entries hes metaInfo⟩

/-- **File entries partition the content.**  For a content that fits into `u64` the construction with the hash
set returns, whatever hash and path equality it uses, one entry a file. -/
theorem newHashed_partitions (hash : List String → UInt64) (samePath : List String → List String → Bool)
    (id : TorrentId) (metaInfo : MetaInfo) (hfits : metaInfo.info.content.total < 2 ^ 64) :
    ∃ t, newHashed hash samePath id metaInfo = some t ∧ new id metaInfo = some t ∧ t.id = id ∧
      metaInfo.info.content.length = some metaInfo.info.content.lengths.sum ∧
      t.Partitions metaInfo.info.content.lengths := by
  have hlength : metaInfo.info.content.length = some metaInfo.info.content.lengths.sum := by
    rw [metaInfo.info.content.sum_lengths]
    refine (InfoContent.length_eq_some_iff ?_).mpr ⟨rfl, hfits⟩
    intro n hn
    rw [hn] at hfits
    exact hfits
  obtain ⟨t, ht, hpart⟩ := exists_new_partitions id metaInfo hfits
  exact ⟨t, (newHashed_eq id metaInfo).trans ht, ht, id_new ht, hlength, hpart⟩

/-- three files of one name, one of them empty -/
def sameNames : MetaInfo :=
  ⟨none, [], none, none, none, none, [], [],
    ⟨[], 16384, .multi [⟨3, ["a"]⟩, ⟨0, ["a"]⟩, ⟨2, ["a"]⟩], "same"⟩, [], .from []⟩

/-- all of them are kept, also where all hashes collide -/
theorem newHashed_partitions_sameNames : sameNames.info.content.total < 2 ^ 64 ∧
    ∃ t, newHashed (fun _ => 0) (fun a b => a = b) ⟨0⟩ sameNames = some t ∧ new ⟨0⟩ sameNames = some t ∧
      t.id = ⟨0⟩ ∧ sameNames.info.content.length = some sameNames.info.content.lengths.sum ∧
      t.Partitions sameNames.info.content.lengths :=
  ⟨by decide, newHashed_partitions (fun _ => 0) (fun a b => a = b) ⟨0⟩ sameNames (by decide)⟩

end TorrentFile

end Btt
