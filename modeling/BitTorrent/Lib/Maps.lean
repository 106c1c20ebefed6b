import Mathlib.Data.List.AList
import Mathlib.Data.List.Sort

/-!
# Maps: hash maps, ordered maps, and the order in which they are walked

* `Arrangement α`   a rearrangement of lists: a shuffle, or the order in which a hash map is iterated;
* hash maps are Mathlib's `AList`; `AList.vals` and the permutation lemmas say what an insertion or a
  removal does to the collection of values; `AList.walk` is a loop over the values that writes them
  back and ends with the first answer;
* `HashTable.insert`   insertion into a hash set whose hash and equality are given;
* `SortedMap ν`     a map with `Nat` keys that is iterated in increasing order of the keys.
-/

/-! ## arrangements -/

structure Arrangement (α : Type*) where
  run : List α → List α
  perm : ∀ l, (run l).Perm l

namespace Arrangement
variable {α : Type*}

/-- the arrangement that changes nothing -/
def same : Arrangement α := ⟨id, fun _ => List.Perm.refl _⟩

theorem mem_run (w : Arrangement α) {a : α} {l : List α} : a ∈ w.run l ↔ a ∈ l := (w.perm l).mem_iff

/-- what passes the test stands in front -/
def front (test : α → Bool) : Arrangement α where
  run l := l.filter test ++ l.filter fun a => !test a
  perm l := List.filter_append_perm test l

end Arrangement

/-- a new element at the end -/
theorem List.Nodup.snoc {α : Type*} {l : List α} {a : α} (h : l.Nodup) (ha : a ∉ l) : (l ++ [a]).Nodup := by
  rw [← List.concat_eq_append]
  exact h.concat ha

/-- collecting options: one `none` among them and nothing is left -/
theorem List.mapM_ite_some {α β : Type*} (test : α → Bool) (f : α → β) (l : List α) :
    (l.mapM fun a => if test a then some (f a) else none) = if l.all test then some (l.map f) else none := by
  induction l with
  | nil => rfl
  | cons a l ih =>
    rw [List.mapM_cons, ih, List.all_cons, List.map_cons]
    cases test a with
    | false => rfl
    | true =>
      rw [if_pos rfl, Option.bind_eq_bind, Option.bind_some, Bool.true_and]
      split <;> rfl

/-! ## hash maps -/

namespace AList
variable {κ ν : Type*} [DecidableEq κ]

/-- the values of a map -/
def vals (m : AList fun _ : κ => ν) : List ν := m.entries.map fun e => e.2

theorem entries_perm_of_lookup {m : AList fun _ : κ => ν} {k : κ} {v : ν} (h : m.lookup k = some v) :
    m.entries.Perm (⟨k, v⟩ :: (m.erase k).entries) := by
  have hmem : ⟨k, v⟩ ∈ m.entries := List.of_mem_dlookup h
  obtain ⟨w, l₁, l₂, hk, h1, h2⟩ := List.exists_of_kerase (List.mem_keys_of_mem hmem)
  have hw : w = v := by
    have hw' : (⟨k, w⟩ : Sigma fun _ : κ => ν) ∈ m.entries := by rw [h1]; simp
    have := (List.mem_dlookup_iff m.nodupKeys).mpr hw'
    have h' : m.lookup k = some w := this
    rw [h] at h'
    exact (Option.some.inj h').symm
  show m.entries.Perm (⟨k, v⟩ :: List.kerase k m.entries)
  rw [h2, h1, hw]
  exact List.perm_middle

theorem vals_perm_erase {m : AList fun _ : κ => ν} {k : κ} {v : ν} (h : m.lookup k = some v) :
    m.vals.Perm (v :: (m.erase k).vals) :=
  (entries_perm_of_lookup h).map (fun e : Sigma (fun _ : κ => ν) => e.2)

theorem vals_insert_of_notMem {m : AList fun _ : κ => ν} {k : κ} {v : ν} (h : k ∉ m) :
    (m.insert k v).vals = v :: m.vals := by
  rw [vals, entries_insert_of_notMem h]
  rfl

theorem mem_vals {m : AList fun _ : κ => ν} {v : ν} : v ∈ m.vals ↔ ∃ k, m.lookup k = some v := by
  rw [vals, List.mem_map]
  constructor
  · rintro ⟨⟨k, w⟩, h, rfl⟩
    exact ⟨k, (List.mem_dlookup_iff m.nodupKeys).mpr h⟩
  · rintro ⟨k, h⟩
    exact ⟨⟨k, v⟩, List.of_mem_dlookup h, rfl⟩

theorem mem_iff_lookup {m : AList fun _ : κ => ν} {k : κ} : k ∈ m ↔ ∃ v, m.lookup k = some v := by
  rw [← lookup_isSome, Option.isSome_iff_exists]

theorem mem_of_lookup {m : AList fun _ : κ => ν} {k : κ} {v : ν} (h : m.lookup k = some v) : k ∈ m :=
  mem_iff_lookup.mpr ⟨v, h⟩

omit [DecidableEq κ] in
theorem eq_empty_iff {m : AList fun _ : κ => ν} : m = ∅ ↔ ∀ k, k ∉ m := by
  constructor
  · rintro rfl k
    exact notMem_empty k
  · intro h
    refine ext (List.eq_nil_iff_forall_not_mem.mpr ?_)
    intro e he
    exact h e.1 (List.mem_map_of_mem he)

theorem mem_entries {m : AList fun _ : κ => ν} {k : κ} {v : ν} :
    (⟨k, v⟩ : Sigma fun _ : κ => ν) ∈ m.entries ↔ m.lookup k = some v :=
  (List.mem_dlookup_iff m.nodupKeys).symm

theorem lookup_insert_eq (m : AList fun _ : κ => ν) (k k' : κ) (v : ν) :
    (m.insert k v).lookup k' = if k' = k then some v else m.lookup k' := by
  by_cases h : k' = k
  · subst h; rw [if_pos rfl, lookup_insert]
  · rw [if_neg h, lookup_insert_ne h]

theorem lookup_erase_eq (m : AList fun _ : κ => ν) (k k' : κ) :
    (m.erase k).lookup k' = if k' = k then none else m.lookup k' := by
  by_cases h : k' = k
  · subst h; rw [if_pos rfl, lookup_erase]
  · rw [if_neg h, lookup_erase_ne h]

/-! ### walking a map -/

section
variable {α : Type*}

/-- visit the listed entries one after the other, writing each value back, until `f` answers -/
def walk (f : ν → Option α × ν) :
    List (Sigma fun _ : κ => ν) → (AList fun _ : κ => ν) → Option α × AList fun _ : κ => ν
  | [], m => (none, m)
  | e :: r, m =>
    match f e.2 with
    | (some a, v) => (some a, m.insert e.1 v)
    | (none, v) => walk f r (m.insert e.1 v)

/-- the listed entries are entries of the map, each listed once -/
structure Lists (l : List (Sigma fun _ : κ => ν)) (m : AList fun _ : κ => ν) : Prop where
  nodup : l.NodupKeys
  agree : ∀ e ∈ l, m.lookup e.1 = some e.2

theorem lists_run (w : Arrangement (Sigma fun _ : κ => ν)) (m : AList fun _ : κ => ν) :
    Lists (w.run m.entries) m where
  nodup := (List.perm_nodupKeys (w.perm m.entries)).mpr m.nodupKeys
  agree := by
    intro e he
    exact mem_entries.mp (w.mem_run.mp he)

/-- the entry of a key can be the first one of a walk -/
theorem run_front {m : AList fun _ : κ => ν} {k : κ} {v : ν} (h : m.lookup k = some v) :
    ∃ post, (Arrangement.front fun e : Sigma fun _ : κ => ν => e.1 = k).run m.entries = ⟨k, v⟩ :: post := by
  have hmem : (⟨k, v⟩ : Sigma fun _ : κ => ν) ∈ m.entries.filter fun e => e.1 = k :=
    List.mem_filter.mpr ⟨mem_entries.mpr h, decide_eq_true rfl⟩
  obtain ⟨e, rest, he⟩ := List.exists_cons_of_ne_nil (List.ne_nil_of_mem hmem)
  obtain ⟨hentry, hkey⟩ := List.mem_filter.mp (show e ∈ m.entries.filter fun e => e.1 = k by rw [he]; simp)
  obtain ⟨k', v'⟩ := e
  obtain rfl : k' = k := of_decide_eq_true hkey
  obtain rfl : v' = v := Option.some.inj ((mem_entries.mp hentry).symm.trans h)
  exact ⟨rest ++ m.entries.filter fun e => !decide (e.1 = k'), congrArg (· ++ _) he⟩

theorem Lists.lookup {l pre post : List (Sigma fun _ : κ => ν)} {m : AList fun _ : κ => ν} (h : Lists l m)
    {k : κ} {v : ν} (hl : l = pre ++ ⟨k, v⟩ :: post) : m.lookup k = some v := by
  refine h.agree ⟨k, v⟩ ?_
  rw [hl]
  exact List.mem_append_right _ List.mem_cons_self

/-- once a visited entry is written back, the entries after it are still those of the map -/
theorem Lists.tail {e : Sigma fun _ : κ => ν} {l : List (Sigma fun _ : κ => ν)} {m : AList fun _ : κ => ν}
    (h : Lists (e :: l) m) (v : ν) : Lists l (m.insert e.1 v) where
  nodup := (List.nodupKeys_cons.mp h.nodup).2
  agree := by
    intro x hx
    have hne : x.1 ≠ e.1 := by
      intro heq
      exact (List.nodupKeys_cons.mp h.nodup).1 (heq ▸ List.mem_keys_of_mem hx)
    rw [lookup_insert_ne hne]
    exact h.agree x (List.mem_cons_of_mem _ hx)

theorem lookup_walk_of_notMem (f : ν → Option α × ν) {l : List (Sigma fun _ : κ => ν)}
    (m : AList fun _ : κ => ν) {k : κ} (hk : k ∉ l.keys) : (walk f l m).2.lookup k = m.lookup k := by
  induction l generalizing m with
  | nil => rfl
  | cons e l ih =>
    rw [List.keys_cons, List.mem_cons, not_or] at hk
    unfold walk
    split
    · exact lookup_insert_ne hk.1
    · rw [ih _ hk.2]
      exact lookup_insert_ne hk.1

/-- an entry that is reached, all before it giving no answer, becomes what `f` makes of it -/
theorem lookup_walk_reached (f : ν → Option α × ν) {pre post : List (Sigma fun _ : κ => ν)} {k : κ} {v : ν}
    {m : AList fun _ : κ => ν} (h : Lists (pre ++ ⟨k, v⟩ :: post) m) (hpre : ∀ e ∈ pre, (f e.2).1 = none) :
    (walk f (pre ++ ⟨k, v⟩ :: post) m).2.lookup k = some (f v).2 := by
  induction pre generalizing m with
  | nil =>
    rw [List.nil_append] at h ⊢
    unfold walk
    split <;> rename_i hf <;> simp only at hf
    · rw [hf]
      exact lookup_insert _
    · rw [lookup_walk_of_notMem f _ (List.nodupKeys_cons.mp h.nodup).1, hf]
      exact lookup_insert _
  | cons e pre ih =>
    have he := hpre e List.mem_cons_self
    rw [List.cons_append] at h ⊢
    unfold walk
    split
    · rename_i a w hf
      rw [hf] at he
      cases he
    · exact ih (h.tail _) fun x hx => hpre x (List.mem_cons_of_mem _ hx)

/-- every value after a walk is the old one, or it was reached and is what `f` made of it -/
theorem lookup_walk (f : ν → Option α × ν) {l : List (Sigma fun _ : κ => ν)} {m : AList fun _ : κ => ν}
    (h : Lists l m) (k : κ) :
    (walk f l m).2.lookup k = m.lookup k ∨
      ∃ pre v post, l = pre ++ ⟨k, v⟩ :: post ∧ (∀ e ∈ pre, (f e.2).1 = none) ∧
        (walk f l m).2.lookup k = some (f v).2 := by
  induction l generalizing m with
  | nil => exact Or.inl rfl
  | cons e l ih =>
    have hnot := (List.nodupKeys_cons.mp h.nodup).1
    obtain ⟨ke, ve⟩ := e
    by_cases hk : k = ke
    · subst hk
      have hr : (walk f ([] ++ ⟨k, ve⟩ :: l) m).2.lookup k = some (f ve).2 := lookup_walk_reached f h nofun
      exact Or.inr ⟨[], ve, l, rfl, nofun, hr⟩
    · unfold walk
      split
      · exact Or.inl (lookup_insert_ne hk)
      · rename_i v hf
        rcases ih (h.tail v) with e1 | ⟨pre, w, post, rfl, hpre, e1⟩
        · rw [lookup_insert_ne hk] at e1
          exact Or.inl e1
        · refine Or.inr ⟨⟨ke, ve⟩ :: pre, w, post, rfl, ?_, e1⟩
          intro x hx
          rcases List.mem_cons.mp hx with rfl | hx
          · rw [hf]
          · exact hpre x hx

/-- the answer of a walk is the first one the listed entries give -/
theorem walk_fst (f : ν → Option α × ν) (l : List (Sigma fun _ : κ => ν)) (m : AList fun _ : κ => ν) :
    (walk f l m).1 = l.findSome? fun e => (f e.2).1 := by
  induction l generalizing m with
  | nil => rfl
  | cons e l ih =>
    unfold walk
    rw [List.findSome?_cons]
    split <;> rename_i hf <;> rw [hf]
    exact ih _

/-- if `f` changes nothing where it does not answer, only the first entry with an answer changes -/
theorem lookup_walk_first {f : ν → Option α × ν} (hf : ∀ v, (f v).1 = none → (f v).2 = v)
    {l : List (Sigma fun _ : κ => ν)} {m : AList fun _ : κ => ν} (h : Lists l m) (k : κ) :
    (walk f l m).2.lookup k
      = if (l.find? fun e => (f e.2).1.isSome).map Sigma.fst = some k then (m.lookup k).map (fun v => (f v).2)
        else m.lookup k := by
  induction l generalizing m with
  | nil => rfl
  | cons e l ih =>
    have he := h.agree e List.mem_cons_self
    unfold walk
    split
    · rename_i a v hfe
      rw [List.find?_cons_of_pos (by rw [hfe]; rfl), Option.map_some]
      show (m.insert e.1 v).lookup k = _
      rw [lookup_insert_eq]
      by_cases hk : k = e.1
      · rw [if_pos hk, if_pos (congrArg some hk.symm), hk, he, Option.map_some, hfe]
      · rw [if_neg hk, if_neg (fun heq => hk (Option.some.inj heq).symm)]
    · rename_i v hfe
      have hv : v = e.2 := by
        have := hf e.2 (by rw [hfe])
        rwa [hfe] at this
      have hins : ∀ k', (m.insert e.1 v).lookup k' = m.lookup k' := by
        intro k'
        rw [lookup_insert_eq]
        by_cases hk : k' = e.1
        · rw [if_pos hk, hk, he, hv]
        · rw [if_neg hk]
      rw [List.find?_cons_of_neg (by rw [hfe]; simp), ih (h.tail v), hins k]

end

end AList

/-! ## hash sets -/

namespace HashTable
variable {α η : Type*} [DecidableEq η]

/-- Insertion into a hash set: only elements with the hash of `e` are compared with it, and one that equals it
is kept instead of it.  Hash and equality may look at different fields. -/
def insert (hash : α → η) (eq : α → α → Bool) (s : List α) (e : α) : List α :=
  if s.any fun x => hash x = hash e && eq x e then s else s ++ [e]

/-- what equals no element is not dropped, whatever it collides with -/
theorem insert_of_fresh {hash : α → η} {eq : α → α → Bool} {s : List α} {e : α} (h : ∀ x ∈ s, eq x e = false) :
    insert hash eq s e = s ++ [e] := by
  refine if_neg ?_
  intro hany
  obtain ⟨x, hx, hxe⟩ := List.any_eq_true.mp hany
  rw [h x hx, Bool.and_false] at hxe
  cases hxe

end HashTable

/-! ## ordered maps -/

/-- a map with `Nat` keys, kept in increasing order of the keys -/
structure SortedMap (ν : Type*) where
  entries : List (Nat × ν)
  sorted : entries.Pairwise fun a b => a.1 < b.1

namespace SortedMap
variable {ν : Type*}

def empty : SortedMap ν := ⟨[], List.Pairwise.nil⟩

def insertEntries (k : Nat) (v : ν) : List (Nat × ν) → List (Nat × ν)
  | [] => [(k, v)]
  | (k', v') :: r =>
    if k < k' then (k, v) :: (k', v') :: r
    else if k = k' then (k, v) :: r
    else (k', v') :: insertEntries k v r

theorem mem_insertEntries {k : Nat} {v : ν} {l : List (Nat × ν)} {a : Nat × ν}
    (h : a ∈ insertEntries k v l) : a = (k, v) ∨ a ∈ l := by
  induction l with
  | nil => exact Or.inl (List.mem_singleton.mp h)
  | cons b r ih =>
    obtain ⟨k', v'⟩ := b
    rw [insertEntries] at h
    split at h
    · rcases List.mem_cons.mp h with e | e
      · exact Or.inl e
      · exact Or.inr e
    · split at h
      · rcases List.mem_cons.mp h with e | e
        · exact Or.inl e
        · exact Or.inr (List.mem_cons_of_mem _ e)
      · rcases List.mem_cons.mp h with e | e
        · exact Or.inr (e ▸ List.mem_cons_self)
        · rcases ih e with e' | e'
          · exact Or.inl e'
          · exact Or.inr (List.mem_cons_of_mem _ e')

theorem sorted_insertEntries (k : Nat) (v : ν) (l : List (Nat × ν))
    (hl : l.Pairwise fun a b => a.1 < b.1) :
    (insertEntries k v l).Pairwise fun a b => a.1 < b.1 := by
  induction l with
  | nil => exact List.pairwise_singleton _ _
  | cons b r ih =>
    obtain ⟨k', v'⟩ := b
    obtain ⟨hb, hr⟩ := List.pairwise_cons.mp hl
    rw [insertEntries]
    split
    · rename_i hlt
      refine List.pairwise_cons.mpr ⟨?_, hl⟩
      intro a ha
      rcases List.mem_cons.mp ha with e | e
      · rw [e]; exact hlt
      · exact lt_trans hlt (hb a e)
    · split
      · rename_i heq
        refine List.pairwise_cons.mpr ⟨?_, hr⟩
        intro a ha
        show k < a.1
        rw [heq]
        exact hb a ha
      · rename_i hlt hne
        refine List.pairwise_cons.mpr ⟨?_, ih hr⟩
        intro a ha
        rcases mem_insertEntries ha with e | e
        · rw [e]
          show k' < k
          omega
        · exact hb a e

/-- inserting under a new key adds one entry -/
theorem insertEntries_perm (k : Nat) (v : ν) (l : List (Nat × ν)) (h : ∀ a ∈ l, a.1 ≠ k) :
    (insertEntries k v l).Perm ((k, v) :: l) := by
  induction l with
  | nil => exact List.Perm.refl _
  | cons b r ih =>
    obtain ⟨k', v'⟩ := b
    have hk : k ≠ k' := fun e => h (k', v') List.mem_cons_self e.symm
    rw [insertEntries, if_neg hk]
    split
    · exact List.Perm.refl _
    · have ih' := ih (fun a ha => h a (List.mem_cons_of_mem _ ha))
      exact (ih'.cons (k', v')).trans (List.Perm.swap _ _ _)

def insert (m : SortedMap ν) (k : Nat) (v : ν) : SortedMap ν :=
  ⟨insertEntries k v m.entries, sorted_insertEntries k v m.entries m.sorted⟩

/-- the values in increasing order of their keys -/
def vals (m : SortedMap ν) : List ν := m.entries.map Prod.snd

def len (m : SortedMap ν) : Nat := m.entries.length

theorem vals_insert_perm (m : SortedMap ν) (k : Nat) (v : ν) (h : ∀ a ∈ m.entries, a.1 ≠ k) :
    (m.insert k v).vals.Perm (v :: m.vals) :=
  (insertEntries_perm k v m.entries h).map Prod.snd

theorem sorted_keys (m : SortedMap ν) : (m.entries.map Prod.fst).Pairwise (· < ·) :=
  List.pairwise_map.mpr m.sorted

end SortedMap

/-- two strictly increasing lists of one length, one contained in the other, are equal -/
theorem eq_of_increasing_subset {a b : List Nat} (ha : a.Pairwise (· < ·)) (hb : b.Pairwise (· < ·))
    (hab : a ⊆ b) (hlen : b.length ≤ a.length) : a = b := by
  have hnd : a.Nodup := ha.imp (fun h => Nat.ne_of_lt h)
  have hperm : a.Perm b := (List.subperm_of_subset hnd hab).perm_of_length_le hlen
  exact hperm.eq_of_pairwise' ha hb
