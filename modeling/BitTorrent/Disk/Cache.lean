import Mathlib.Data.List.Nodup
import BitTorrent.Disk.Manager

/-!
# The LRU cache

Every key stands once in a cache that is not over its capacity (`LruCache.WF`).

* `WF.mem_iff_lookup`       entries and lookups;
* `WF.mem_remove`           what a removal leaves;
* `WF.insertAll_present`    insertions under keys that are there drop nothing;
* `WF.insertAll_fresh`      insertions under new keys: the entries and the new ones, less as many of the
                            oldest as are too many (`dropped`);
* `takeFiles_cons`          how the manager takes one file, by what the cache has for it.
-/

set_option linter.unusedSectionVars false

namespace Btt

namespace LruCache
variable {κ ν : Type} [DecidableEq κ]

/-- the value under a key -/
def lookup (c : LruCache κ ν) (k : κ) : Option ν := (c.remove k).1

/-- the keys, oldest first -/
def keys (c : LruCache κ ν) : List κ := c.entries.map Prod.fst

/-- insert one after the other -/
def insertAll (c : LruCache κ ν) (new : List (κ × ν)) : LruCache κ ν :=
  new.foldl (fun c (k, v) => c.insert k v) c

/-- what the cache drops for new entries under new keys -/
def dropped (c : LruCache κ ν) (new : List (κ × ν)) : List (κ × ν) :=
  (c.entries ++ new).take (c.entries.length + new.length - c.capacity)

structure WF (c : LruCache κ ν) : Prop where
  nodup : c.keys.Nodup
  length_le : c.entries.length ≤ c.capacity

theorem wf_empty (capacity : Nat) : (⟨capacity, []⟩ : LruCache κ ν).WF := ⟨List.nodup_nil, Nat.zero_le _⟩

/-! ## entries and keys -/

theorem mem_keys_of_mem {c : LruCache κ ν} {k : κ} {v : ν} (h : (k, v) ∈ c.entries) : k ∈ c.keys :=
  List.mem_map_of_mem h

theorem mem_of_lookup {c : LruCache κ ν} {k : κ} {v : ν} (h : c.lookup k = some v) : (k, v) ∈ c.entries := by
  obtain ⟨e, he, rfl⟩ := Option.map_eq_some_iff.mp h
  have hk : e.1 = k := by simpa using List.find?_some he
  rw [← hk]
  exact List.mem_of_find?_eq_some he

theorem not_mem_keys_of_lookup {c : LruCache κ ν} {k : κ} (h : c.lookup k = none) : k ∉ c.keys := by
  intro hk
  obtain ⟨e, he, hek⟩ := List.mem_map.mp hk
  have hnone := List.find?_eq_none.mp (Option.map_eq_none_iff.mp h) e he
  exact hnone (decide_eq_true hek)

/-- under one key there is one entry -/
theorem WF.unique {c : LruCache κ ν} (h : c.WF) {k : κ} {v v' : ν} (hv : (k, v) ∈ c.entries)
    (hv' : (k, v') ∈ c.entries) : v = v' := by
  have hinj := List.inj_on_of_nodup_map h.nodup hv hv' rfl
  exact congrArg Prod.snd hinj

theorem WF.mem_iff_lookup {c : LruCache κ ν} (h : c.WF) {k : κ} {v : ν} :
    (k, v) ∈ c.entries ↔ c.lookup k = some v := by
  constructor
  · intro hv
    cases hl : c.lookup k with
    | none => exact (not_mem_keys_of_lookup hl (mem_keys_of_mem hv)).elim
    | some v' => rw [h.unique hv (mem_of_lookup hl)]
  · exact mem_of_lookup

/-! ## removing -/

theorem eraseP_key {l : List (κ × ν)} (h : (l.map Prod.fst).Nodup) (k : κ) :
    l.eraseP (fun e => e.1 = k) = l.filter fun e => e.1 ≠ k := by
  induction l with
  | nil => rfl
  | cons e l ih =>
    obtain ⟨hnot, hrest⟩ := List.nodup_cons.mp h
    by_cases hk : e.1 = k
    · have hall : ∀ x ∈ l, x.1 ≠ k := by
        rintro x hx rfl
        rw [hk] at hnot
        exact hnot (List.mem_map_of_mem hx)
      rw [List.eraseP_cons_of_pos (by simpa using hk), List.filter_cons_of_neg (by simpa using hk),
        List.filter_eq_self.mpr (by simpa using hall)]
    · rw [List.eraseP_cons_of_neg (by simpa using hk), List.filter_cons_of_pos (by simpa using hk), ih hrest]

theorem WF.mem_remove {c : LruCache κ ν} (h : c.WF) {k : κ} {e : κ × ν} :
    e ∈ (c.remove k).2.entries ↔ e ∈ c.entries ∧ e.1 ≠ k := by
  show e ∈ c.entries.eraseP _ ↔ _
  rw [eraseP_key h.nodup, List.mem_filter]
  simp

theorem WF.remove {c : LruCache κ ν} (h : c.WF) (k : κ) : (c.remove k).2.WF := by
  have hsub : (c.remove k).2.entries.Sublist c.entries := List.eraseP_sublist
  exact ⟨(hsub.map Prod.fst).nodup h.nodup, hsub.length_le.trans h.length_le⟩

/-- the other keys are not touched -/
theorem lookup_remove_ne (c : LruCache κ ν) {k k' : κ} (hk : k' ≠ k) : (c.remove k).2.lookup k' = c.lookup k' := by
  show ((c.entries.eraseP fun e => e.1 = k).find? fun e => e.1 = k').map Prod.snd
    = (c.entries.find? fun e => e.1 = k').map Prod.snd
  congr 1
  induction c.entries with
  | nil => rfl
  | cons e l ih =>
    by_cases he : e.1 = k
    · rw [List.eraseP_cons_of_pos (by simpa using he), List.find?_cons_of_neg]
      rw [he]
      simpa using Ne.symm hk
    · rw [List.eraseP_cons_of_neg (by simpa using he), List.find?_cons, List.find?_cons, ih]

/-! ## inserting under a key that is there -/

theorem length_eraseP {c : LruCache κ ν} {k : κ} (hk : k ∈ c.keys) :
    (c.entries.eraseP fun e => e.1 = k).length + 1 = c.entries.length := by
  obtain ⟨e, he, hek⟩ := List.mem_map.mp hk
  have hlen := List.length_eraseP_of_mem he (p := fun e => e.1 = k) (decide_eq_true hek)
  have hpos := List.length_pos_of_mem he
  omega

theorem WF.entries_insert_present {c : LruCache κ ν} (h : c.WF) {k : κ} (hk : k ∈ c.keys) (v : ν) :
    (c.insert k v).entries = c.entries.eraseP (fun e => e.1 = k) ++ [(k, v)] := by
  have hlen := length_eraseP hk
  have hle := h.length_le
  unfold insert
  simp only
  rw [if_neg]
  rw [List.length_append, List.length_singleton]
  omega

theorem WF.mem_insert_present {c : LruCache κ ν} (h : c.WF) {k : κ} (hk : k ∈ c.keys) {v : ν} {e : κ × ν} :
    e ∈ (c.insert k v).entries ↔ (e ∈ c.entries ∧ e.1 ≠ k) ∨ e = (k, v) := by
  rw [h.entries_insert_present hk, List.mem_append, List.mem_singleton]
  exact or_congr_left h.mem_remove

theorem WF.insert_present {c : LruCache κ ν} (h : c.WF) {k : κ} (hk : k ∈ c.keys) (v : ν) : (c.insert k v).WF := by
  have hlen := length_eraseP hk
  refine ⟨?_, ?_⟩
  · unfold keys
    rw [h.entries_insert_present hk, List.map_append]
    refine (h.remove k).nodup.snoc ?_
    intro hmem
    obtain ⟨e, he, hek⟩ := List.mem_map.mp hmem
    exact (h.mem_remove.mp he).2 hek
  · show (c.insert k v).entries.length ≤ c.capacity
    rw [h.entries_insert_present hk, List.length_append, List.length_singleton, hlen]
    exact h.length_le

/-- insertions under keys that are there replace their values -/
theorem WF.insertAll_present {c : LruCache κ ν} (h : c.WF) {new : List (κ × ν)}
    (hnew : (new.map Prod.fst).Nodup) (hkeys : ∀ e ∈ new, e.1 ∈ c.keys) :
    (c.insertAll new).WF ∧ (c.insertAll new).capacity = c.capacity ∧
      ∀ e, e ∈ (c.insertAll new).entries ↔ (e ∈ c.entries ∧ e.1 ∉ new.map Prod.fst) ∨ e ∈ new := by
  induction new generalizing c with
  | nil => exact ⟨h, rfl, fun e => by simp [insertAll]⟩
  | cons x new ih =>
    obtain ⟨k, v⟩ := x
    obtain ⟨hnot, hrest⟩ := List.nodup_cons.mp hnew
    have hk : k ∈ c.keys := hkeys _ List.mem_cons_self
    have hkeys' : ∀ e ∈ new, e.1 ∈ (c.insert k v).keys := by
      intro e he
      obtain ⟨y, hy, hye⟩ := List.mem_map.mp (hkeys e (List.mem_cons_of_mem _ he))
      have hne : y.1 ≠ k := by
        rintro rfl
        exact hnot (List.mem_map.mpr ⟨e, he, hye.symm⟩)
      exact List.mem_map.mpr ⟨y, (h.mem_insert_present hk).mpr (Or.inl ⟨hy, hne⟩), hye⟩
    obtain ⟨h1, h2, h3⟩ := ih (h.insert_present hk v) hrest hkeys'
    refine ⟨h1, h2, ?_⟩
    intro e
    show e ∈ ((c.insert k v).insertAll new).entries ↔ _
    rw [h3, h.mem_insert_present hk, List.map_cons, List.mem_cons, List.mem_cons, not_or]
    constructor
    · rintro (⟨⟨he, hne⟩ | rfl, hn⟩ | he)
      · exact Or.inl ⟨he, hne, hn⟩
      · exact Or.inr (Or.inl rfl)
      · exact Or.inr (Or.inr he)
    · rintro (⟨he, hne, hn⟩ | rfl | he)
      · exact Or.inl ⟨Or.inl ⟨he, hne⟩, hn⟩
      · exact Or.inl ⟨Or.inr rfl, hnot⟩
      · exact Or.inr he

/-! ## inserting under new keys -/

theorem entries_insert_fresh {c : LruCache κ ν} (hlen : c.entries.length ≤ c.capacity) {k : κ} (hk : k ∉ c.keys)
    (v : ν) : (c.insert k v).entries = (c.entries ++ [(k, v)]).drop (c.entries.length + 1 - c.capacity) := by
  have herase : c.entries.eraseP (fun e => e.1 = k) = c.entries := by
    refine List.eraseP_of_forall_not ?_
    intro e he hek
    exact hk (List.mem_map.mpr ⟨e, he, by simpa using hek⟩)
  unfold insert
  simp only [herase, List.length_append, List.length_singleton]
  split
  · rename_i hover
    rw [show c.entries.length + 1 - c.capacity = 1 by omega, List.drop_one]
  · rename_i hfits
    rw [show c.entries.length + 1 - c.capacity = 0 by omega, List.drop_zero]

theorem WF.insert_fresh {c : LruCache κ ν} (h : c.WF) {k : κ} (hk : k ∉ c.keys) (v : ν) : (c.insert k v).WF := by
  have hentries := entries_insert_fresh h.length_le hk v
  refine ⟨?_, ?_⟩
  · have hall : ((c.entries ++ [(k, v)]).map Prod.fst).Nodup := by
      rw [List.map_append]
      exact h.nodup.snoc hk
    unfold keys
    rw [hentries]
    exact ((List.drop_sublist _ _).map Prod.fst).nodup hall
  · show (c.insert k v).entries.length ≤ c.capacity
    rw [hentries, List.length_drop, List.length_append, List.length_singleton]
    omega

/-- the entries after insertions under new keys -/
theorem WF.insertAll_fresh {c : LruCache κ ν} (h : c.WF) {new : List (κ × ν)}
    (hnew : (c.keys ++ new.map Prod.fst).Nodup) :
    (c.insertAll new).WF ∧ (c.insertAll new).capacity = c.capacity ∧
      (c.insertAll new).entries = (c.entries ++ new).drop (c.entries.length + new.length - c.capacity) := by
  induction new generalizing c with
  | nil =>
    refine ⟨h, rfl, ?_⟩
    rw [List.append_nil, List.length_nil, Nat.add_zero, Nat.sub_eq_zero_of_le h.length_le]
    rfl
  | cons x new ih =>
    obtain ⟨k, v⟩ := x
    have hk : k ∉ c.keys := by
      intro hmem
      exact (List.nodup_append.mp hnew).2.2 k hmem k List.mem_cons_self rfl
    have hentries := entries_insert_fresh h.length_le hk v
    have hnew' : ((c.insert k v).keys ++ new.map Prod.fst).Nodup := by
      have hsub : ((c.insert k v).keys ++ new.map Prod.fst).Sublist (c.keys ++ [k] ++ new.map Prod.fst) := by
        refine List.Sublist.append_right ?_ _
        unfold keys
        rw [hentries, ← List.map_singleton (f := Prod.fst) (a := (k, v)), ← List.map_append]
        exact (List.drop_sublist _ _).map Prod.fst
      refine hsub.nodup ?_
      rw [List.append_assoc]
      exact hnew
    obtain ⟨h1, h2, h3⟩ := ih (h.insert_fresh hk v) hnew'
    refine ⟨h1, h2, ?_⟩
    have hle := h.length_le
    show ((c.insert k v).insertAll new).entries = _
    rw [h3, hentries, show (c.insert k v).capacity = c.capacity from rfl,
      ← List.drop_append_of_le_length (by rw [List.length_append, List.length_singleton]; omega), List.drop_drop,
      List.append_assoc, List.singleton_append, List.length_drop, List.length_append, List.length_singleton,
      List.length_cons]
    congr 1
    omega

/-- nothing else gets lost: an entry that is not dropped stays, one that is dropped is gone -/
theorem WF.mem_insertAll_fresh {c : LruCache κ ν} (h : c.WF) {new : List (κ × ν)}
    (hnew : (c.keys ++ new.map Prod.fst).Nodup) {e : κ × ν} (he : e ∈ c.entries ++ new) :
    (e ∉ c.dropped new → e ∈ (c.insertAll new).entries) ∧ (e ∈ c.dropped new → e.1 ∉ (c.insertAll new).keys) := by
  have hentries := (h.insertAll_fresh hnew).2.2
  have hsplit : c.entries ++ new = c.dropped new ++ (c.insertAll new).entries := by
    rw [hentries, dropped, List.take_append_drop]
  have hkeys : (c.dropped new ++ (c.insertAll new).entries).map Prod.fst = c.keys ++ new.map Prod.fst := by
    rw [← hsplit, List.map_append]
    rfl
  constructor
  · intro hnot
    rw [hsplit] at he
    exact (List.mem_append.mp he).resolve_left hnot
  · intro hdrop hmem
    rw [← hkeys, List.map_append, List.nodup_append] at hnew
    exact hnew.2.2 e.1 (List.mem_map_of_mem hdrop) e.1 hmem rfl

theorem WF.mem_of_mem_insertAll {c : LruCache κ ν} (h : c.WF) {new : List (κ × ν)}
    (hnew : (c.keys ++ new.map Prod.fst).Nodup) {e : κ × ν} (he : e ∈ (c.insertAll new).entries) :
    e ∈ c.entries ∨ e ∈ new := by
  rw [(h.insertAll_fresh hnew).2.2] at he
  exact List.mem_append.mp (List.mem_of_mem_drop he)

end LruCache

/-- one turn of the loop that takes the files of a block, by what the cache has for the file -/
theorem DiskManager.takeFiles_cons {File World Err : Type} (fs : FileSystem File World Err) (file : FileEntry)
    (window : FileWindow) (files : List (FileEntry × FileWindow))
    (queued : List (TorrentFileId × File × FileWindow)) (allReady : Bool) (dm : DiskManager File World) :
    takeFiles fs ((file, window) :: files) queued allReady dm
      = match dm.fileCache.lookup file.id with
        | some (.ready f) =>
          takeFiles fs files (queued ++ [(file.id, f, window)]) allReady
            { dm with fileCache := (dm.fileCache.remove file.id).2 }
        | some (.queued f queuedWindow) =>
          takeFiles fs files (queued ++ [(file.id, f, window)]) (allReady && window = queuedWindow)
            { dm with fileCache := (dm.fileCache.remove file.id).2 }
        | some (.busy piece) =>
          takeFiles fs files queued false
            { dm with fileCache := (dm.fileCache.remove file.id).2.insert file.id (.busy piece) }
        | none =>
          match fs.pollOpenFile file.path dm.world with
          | (.ready (.ok f), world) =>
            takeFiles fs files (queued ++ [(file.id, f, window)]) allReady { dm with world := world }
          | (.ready (.error _), world) => (.error (.io "Failed to open file."), { dm with world := world })
          | (.pending, world) => (.ok (queued, false), { dm with world := world }) := by
  rcases hr : dm.fileCache.remove file.id with ⟨state, cache⟩
  have hlook : dm.fileCache.lookup file.id = state := congrArg Prod.fst hr
  rw [takeFiles, hr, hlook]
  rcases state with _ | ⟨f, w⟩ | f | w <;> rfl

end Btt
