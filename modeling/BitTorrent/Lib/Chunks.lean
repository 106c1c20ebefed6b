import Mathlib.Data.List.Basic

/-!
# Cutting a list into chunks

* `full n l`     the complete chunks of length `n` of a list, `rest n l` what is left behind them;
* `chunks n l`   all chunks, the last one possibly shorter;
* `full_append`  a list is cut piecewise: what is left of the first part is put in front of the second.
-/

namespace Chunks

variable {α : Type*}

def chunk (n : Nat) (l : List α) (i : Nat) : List α := (l.drop (i * n)).take n

def full (n : Nat) (l : List α) : List (List α) := (List.range (l.length / n)).map (chunk n l)

def rest (n : Nat) (l : List α) : List α := l.drop (l.length / n * n)

def chunks (n : Nat) (l : List α) : List (List α) := full n l ++ if rest n l = [] then [] else [rest n l]

theorem length_rest (n : Nat) (l : List α) : (rest n l).length = l.length % n := by
  rw [rest, List.length_drop, Nat.mul_comm]
  have := Nat.div_add_mod l.length n
  omega

theorem rest_eq_nil {n : Nat} {l : List α} : rest n l = [] ↔ l.length % n = 0 := by
  rw [← List.length_eq_zero_iff, length_rest]

theorem full_of_lt {n : Nat} {l : List α} (h : l.length < n) : full n l = [] := by
  rw [full, Nat.div_eq_of_lt h]
  rfl

theorem rest_of_lt {n : Nat} {l : List α} (h : l.length < n) : rest n l = l := by
  rw [rest, Nat.div_eq_of_lt h, Nat.zero_mul, List.drop_zero]

section
variable {n : Nat} {l : List α}

theorem div_drop (hn : 0 < n) (h : n ≤ l.length) : l.length / n = (l.drop n).length / n + 1 := by
  rw [List.length_drop, ← Nat.sub_add_cancel h, Nat.add_div_right _ hn, Nat.add_sub_cancel]

theorem full_cons (hn : 0 < n) (h : n ≤ l.length) : full n l = l.take n :: full n (l.drop n) := by
  rw [full, div_drop hn h, List.range_succ_eq_map, List.map_cons, List.map_map, full]
  congr 1
  · rw [chunk, Nat.zero_mul, List.drop_zero]
  · apply List.map_congr_left
    intro i _
    show ((l.drop ((i + 1) * n)).take n) = (((l.drop n).drop (i * n)).take n)
    rw [List.drop_drop, Nat.succ_mul, Nat.add_comm]

theorem rest_drop (hn : 0 < n) (h : n ≤ l.length) : rest n l = rest n (l.drop n) := by
  rw [rest, rest, List.drop_drop, div_drop hn h, Nat.succ_mul, Nat.add_comm]

end

theorem flatten_full_append_rest {n : Nat} (hn : 0 < n) (l : List α) : (full n l).flatten ++ rest n l = l := by
  induction hlen : l.length using Nat.strongRecOn generalizing l with
  | ind k ih =>
    by_cases h : l.length < n
    · rw [full_of_lt h, rest_of_lt h]
      rfl
    · have hle : n ≤ l.length := Nat.not_lt.mp h
      have hdrop : (l.drop n).length < k := by
        rw [List.length_drop]
        omega
      rw [full_cons hn hle, rest_drop hn hle, List.flatten_cons, List.append_assoc, ih _ hdrop (l.drop n) rfl,
        List.take_append_drop]

/-- the chunks are the list -/
theorem flatten_chunks {n : Nat} (hn : 0 < n) (l : List α) : (chunks n l).flatten = l := by
  have hall := flatten_full_append_rest hn l
  unfold chunks
  split
  · rename_i hrest
    rw [hrest, List.append_nil] at hall
    rw [List.append_nil, hall]
  · rw [List.flatten_append, List.flatten_singleton, hall]

theorem length_le_of_mem_chunks {n : Nat} (hn : 0 < n) {l c : List α} (h : c ∈ chunks n l) : c.length ≤ n := by
  rcases List.mem_append.mp h with h | h
  · obtain ⟨i, -, rfl⟩ := List.mem_map.mp h
    rw [chunk, List.length_take]
    exact Nat.min_le_left _ _
  · split at h
    · cases h
    · obtain rfl := List.mem_singleton.mp h
      rw [length_rest]
      exact Nat.le_of_lt (Nat.mod_lt _ hn)

/-- cutting off complete chunks in front changes nothing behind -/
theorem full_append {n : Nat} (hn : 0 < n) (a b : List α) :
    full n (a ++ b) = full n a ++ full n (rest n a ++ b) ∧ rest n (a ++ b) = rest n (rest n a ++ b) := by
  induction hlen : a.length using Nat.strongRecOn generalizing a with
  | ind k ih =>
    by_cases h : a.length < n
    · rw [full_of_lt h, rest_of_lt h, List.nil_append]
      exact ⟨rfl, rfl⟩
    · have hle : n ≤ a.length := Nat.le_of_not_lt h
      have hle' : n ≤ (a ++ b).length := by
        rw [List.length_append]
        omega
      obtain ⟨ih1, ih2⟩ := ih (a.drop n).length (by rw [List.length_drop]; omega) (a.drop n) rfl
      rw [full_cons hn hle', full_cons hn hle, rest_drop hn hle', rest_drop hn hle,
        List.drop_append_of_le_length hle, List.take_append_of_le_length hle, ih1, ih2]
      exact ⟨rfl, rfl⟩

theorem chunks_append {n : Nat} (hn : 0 < n) (a b : List α) :
    chunks n (a ++ b) = full n a ++ chunks n (rest n a ++ b) := by
  obtain ⟨h1, h2⟩ := full_append hn a b
  rw [chunks, h1, h2, List.append_assoc]
  rfl

theorem full_of_length {n : Nat} (hn : 0 < n) {l : List α} (h : l.length = n) : full n l = [l] := by
  rw [full_cons hn (Nat.le_of_eq h.symm), List.take_of_length_le (Nat.le_of_eq h),
    List.drop_of_length_le (Nat.le_of_eq h), full_of_lt hn]

/-- chunks that were put together are cut again -/
theorem chunks_flatMap {β : Type*} {n : Nat} (hn : 0 < n) {f : β → List α} (hf : ∀ x, (f x).length = n) (xs : List β) :
    chunks n (xs.flatMap f) = xs.map f := by
  induction xs with
  | nil => rw [List.flatMap_nil, chunks, full_of_lt hn, rest_of_lt hn, if_pos rfl, List.map_nil, List.nil_append]
  | cons x xs ih =>
    have hrest : rest n (f x) = [] := rest_eq_nil.mpr (by rw [hf, Nat.mod_self])
    rw [List.flatMap_cons, chunks_append hn, full_of_length hn (hf x), hrest, List.nil_append, ih]
    rfl

theorem length_chunks (n : Nat) (l : List α) :
    (chunks n l).length = l.length / n + if l.length % n = 0 then 0 else 1 := by
  rw [chunks, List.length_append, full, List.length_map, List.length_range]
  by_cases h : l.length % n = 0
  · rw [if_pos (rest_eq_nil.mpr h), if_pos h]
    rfl
  · rw [if_neg (fun e => h (rest_eq_nil.mp e)), if_neg h]
    rfl

/-- the chunks by their index -/
theorem getElem_chunks {n : Nat} (hn : 0 < n) (l : List α) {i : Nat} (hi : i < (chunks n l).length) :
    (chunks n l)[i]? = some (chunk n l i) := by
  have hlen : (full n l).length = l.length / n := by
    rw [full, List.length_map, List.length_range]
  by_cases h : i < l.length / n
  · rw [chunks, List.getElem?_append_left (by rw [hlen]; exact h), full, List.getElem?_map,
      List.getElem?_range h]
    rfl
  · rw [length_chunks] at hi
    by_cases hmod : l.length % n = 0
    · rw [if_pos hmod] at hi
      omega
    · rw [if_neg hmod] at hi
      have hie : i = l.length / n := by omega
      rw [chunks, if_neg (fun e => hmod (rest_eq_nil.mp e)), List.getElem?_append_right (by omega), hlen, hie,
        Nat.sub_self]
      show some (rest n l) = _
      rw [chunk, List.take_of_length_le]
      · rfl
      · have := length_rest n l
        rw [rest] at this
        rw [this]
        exact Nat.le_of_lt (Nat.mod_lt _ hn)

end Chunks
