import Mathlib.Data.List.Basic

/-!
# Consecutive intervals

`Contig s l e`: the intervals `(offset, length)` of the list `l` lie one behind the other and run from
`s` to `e`.  If the lengths are those of byte strings, their concatenation is read by offset
(`Contig.getElem_flatMap`).
-/

namespace Tiling

def Contig : Nat → List (Nat × Nat) → Nat → Prop
  | s, [], e => s = e
  | s, (o, n) :: r, e => o = s ∧ Contig (s + n) r e

theorem contig_append (s e : Nat) (a b : List (Nat × Nat)) :
    Contig s (a ++ b) e ↔ ∃ m, Contig s a m ∧ Contig m b e := by
  induction a generalizing s with
  | nil => simp [Contig]
  | cons x r ih =>
    obtain ⟨o, n⟩ := x
    simp only [List.cons_append, Contig, ih]
    constructor
    · rintro ⟨h, m, h1, h2⟩
      exact ⟨m, ⟨h, h1⟩, h2⟩
    · rintro ⟨m, ⟨h, h1⟩, h2⟩
      exact ⟨h, m, h1, h2⟩

theorem Contig.le {s e : Nat} {l : List (Nat × Nat)} (h : Contig s l e) : s ≤ e := by
  induction l generalizing s with
  | nil => exact Nat.le_of_eq h
  | cons x r ih =>
    obtain ⟨o, n⟩ := x
    have := ih h.2
    omega

theorem Contig.le_of_mem {s e : Nat} {l : List (Nat × Nat)} (h : Contig s l e) {x : Nat × Nat}
    (hx : x ∈ l) : s ≤ x.1 ∧ x.1 + x.2 ≤ e := by
  induction l generalizing s with
  | nil => cases hx
  | cons y r ih =>
    obtain ⟨o, n⟩ := y
    obtain ⟨rfl, h2⟩ := h
    rcases List.mem_cons.mp hx with rfl | hx'
    · exact ⟨Nat.le_refl _, h2.le⟩
    · have := ih h2 hx'
      omega

/-- each interval ends where the later ones have not begun -/
theorem Contig.pairwise {s e : Nat} {l : List (Nat × Nat)} (h : Contig s l e) :
    l.Pairwise fun x y => x.1 + x.2 ≤ y.1 := by
  induction l generalizing s with
  | nil => exact List.Pairwise.nil
  | cons x r ih =>
    obtain ⟨o, n⟩ := x
    obtain ⟨rfl, h2⟩ := h
    refine List.pairwise_cons.mpr ⟨?_, ih h2⟩
    intro y hy
    exact (h2.le_of_mem hy).1

/-- a position lies between the ends exactly if one of the intervals has it -/
theorem Contig.between_iff {s e k : Nat} {l : List (Nat × Nat)} (h : Contig s l e) :
    (s ≤ k ∧ k < e) ↔ ∃ x ∈ l, x.1 ≤ k ∧ k < x.1 + x.2 := by
  constructor
  · intro hk
    induction l generalizing s with
    | nil =>
      have : s = e := h
      omega
    | cons x r ih =>
      obtain ⟨o, n⟩ := x
      obtain ⟨rfl, h2⟩ := h
      by_cases hlt : k < o + n
      · exact ⟨(o, n), List.mem_cons_self, hk.1, hlt⟩
      · obtain ⟨y, hy, hyk⟩ := ih h2 ⟨by omega, hk.2⟩
        exact ⟨y, List.mem_cons_of_mem _ hy, hyk⟩
  · rintro ⟨x, hx, hlow, hhigh⟩
    have hx := h.le_of_mem hx
    omega

/-- consecutive non-empty intervals start at increasing offsets -/
theorem Contig.increasing {s e : Nat} {l : List (Nat × Nat)} (h : Contig s l e)
    (hpos : ∀ x ∈ l, 0 < x.2) : (l.map Prod.fst).Pairwise (· < ·) := by
  refine List.pairwise_map.mpr (h.pairwise.imp_of_mem ?_)
  intro x y hx _ hxy
  have := hpos x hx
  omega

section
variable {α : Type*}

/-- the interval a piece of data at an offset occupies -/
def span (x : Nat × List α) : Nat × Nat := (x.1, x.2.length)

theorem Contig.length_flatMap {s e : Nat} {l : List (Nat × List α)} (h : Contig s (l.map span) e) :
    s + (l.flatMap Prod.snd).length = e := by
  induction l generalizing s with
  | nil => exact h
  | cons x r ih =>
    obtain ⟨o, d⟩ := x
    obtain ⟨-, h2⟩ := h
    have hr : s + d.length + (r.flatMap Prod.snd).length = e := ih h2
    rw [List.flatMap_cons, List.length_append, ← hr, Nat.add_assoc]

/-- every position of the concatenation lies in one of the intervals and holds the byte of that piece
of data -/
theorem Contig.getElem_flatMap {s e : Nat} {l : List (Nat × List α)} (h : Contig s (l.map span) e)
    (k : Nat) (hs : s ≤ k) (he : k < e) :
    ∃ x ∈ l, x.1 ≤ k ∧ k < x.1 + x.2.length ∧ (l.flatMap Prod.snd)[k - s]? = x.2[k - x.1]? := by
  induction l generalizing s with
  | nil =>
    have : s = e := h
    omega
  | cons y r ih =>
    obtain ⟨o, d⟩ := y
    obtain ⟨rfl, h2⟩ := h
    rw [List.flatMap_cons]
    by_cases hk : k < o + d.length
    · refine ⟨(o, d), List.mem_cons_self, hs, hk, ?_⟩
      show (d ++ _)[k - o]? = d[k - o]?
      rw [List.getElem?_append_left (by omega)]
    · obtain ⟨x, hx, h1, h3, h4⟩ := ih h2 (by show o + d.length ≤ k; omega)
      refine ⟨x, List.mem_cons_of_mem _ hx, h1, h3, ?_⟩
      show (d ++ _)[k - o]? = _
      rw [List.getElem?_append_right (by omega), ← h4]
      congr 1
      show k - o - d.length = k - (o + d.length)
      omega

end

end Tiling
