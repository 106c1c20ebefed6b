import Mathlib.Data.List.Basic

/-!
# Writing into a list

`overwrite fill l p new` is the list `l` with `new` written at position `p`, as a file is written to: what
was there is replaced, the list grows where `new` reaches behind its end, and a gap before `p` is filled.
Writing nothing changes nothing.

* `overwrite_append`         two writes, the second where the first one ended, are one write;
* `take_drop_overwrite`      what was written is read back;
* `getElem?_overwrite_lt`, `getElem?_overwrite_ge`   the list is unchanged before and behind it.
-/

namespace Overwrite

section
variable {α : Type*}

/-- the list up to position `p`, filled up to it -/
def upTo (fill : α) (l : List α) (p : Nat) : List α := l.take p ++ List.replicate (p - l.length) fill

@[simp]
theorem length_upTo (fill : α) (l : List α) (p : Nat) : (upTo fill l p).length = p := by
  rw [upTo, List.length_append, List.length_take, List.length_replicate]
  omega

def overwrite (fill : α) (l : List α) (p : Nat) (new : List α) : List α :=
  match new with
  | [] => l
  | a :: new => upTo fill l p ++ (a :: new) ++ l.drop (p + (a :: new).length)

variable {fill : α} {l : List α} {p : Nat}

@[simp]
theorem overwrite_nil : overwrite fill l p [] = l := rfl

theorem overwrite_of_ne_nil {new : List α} (h : new ≠ []) :
    overwrite fill l p new = upTo fill l p ++ new ++ l.drop (p + new.length) := by
  cases new with
  | nil => exact absurd rfl h
  | cons a new => rfl

theorem take_overwrite {new : List α} (h : new ≠ []) :
    (overwrite fill l p new).take (p + new.length) = upTo fill l p ++ new := by
  rw [overwrite_of_ne_nil h]
  apply List.take_left'
  rw [List.length_append, length_upTo]

theorem drop_overwrite (new : List α) {n : Nat} (hn : p + new.length ≤ n) :
    (overwrite fill l p new).drop n = l.drop n := by
  cases new with
  | nil => rfl
  | cons a new =>
    have hlen : (upTo fill l p ++ (a :: new)).length = p + (a :: new).length := by
      rw [List.length_append, length_upTo]
    rw [overwrite, List.drop_append, List.drop_eq_nil_of_le (hlen ▸ hn), hlen, List.nil_append, List.drop_drop,
      Nat.add_sub_cancel' hn]

theorem length_overwrite_ge {new : List α} (h : new ≠ []) : p + new.length ≤ (overwrite fill l p new).length := by
  rw [overwrite_of_ne_nil h, List.length_append, List.length_append, length_upTo]
  exact Nat.le_add_right _ _

/-- **A write where the last one ended continues it.** -/
theorem overwrite_append (a b : List α) :
    overwrite fill (overwrite fill l p a) (p + a.length) b = overwrite fill l p (a ++ b) := by
  by_cases ha : a = []
  · subst ha
    rfl
  by_cases hb : b = []
  · subst hb
    rw [overwrite_nil, List.append_nil]
  have hab : a ++ b ≠ [] := fun h => ha (List.append_eq_nil_iff.mp h).1
  have hfront : upTo fill (overwrite fill l p a) (p + a.length) = upTo fill l p ++ a := by
    rw [upTo, take_overwrite ha, Nat.sub_eq_zero_of_le (length_overwrite_ge ha), List.replicate_zero,
      List.append_nil]
  rw [overwrite_of_ne_nil hb, hfront, drop_overwrite a (Nat.le_add_right _ _), overwrite_of_ne_nil hab,
    List.length_append, List.append_assoc, List.append_assoc, List.append_assoc, List.append_assoc, Nat.add_assoc]

theorem take_drop_overwrite (new : List α) : ((overwrite fill l p new).drop p).take new.length = new := by
  by_cases h : new = []
  · subst h
    rfl
  · rw [overwrite_of_ne_nil h, List.append_assoc, List.drop_left' (length_upTo fill l p), List.take_left' rfl]

theorem getElem?_overwrite_lt (new : List α) {i : Nat} (hi : i < p) (hl : i < l.length) :
    (overwrite fill l p new)[i]? = l[i]? := by
  by_cases h : new = []
  · subst h
    rfl
  · have hfront : i < (upTo fill l p).length := by rwa [length_upTo]
    rw [overwrite_of_ne_nil h, List.append_assoc, List.getElem?_append_left hfront, upTo,
      List.getElem?_append_left (by rw [List.length_take]; omega), List.getElem?_take, if_pos hi]

theorem getElem?_overwrite_ge (new : List α) {i : Nat} (hi : p + new.length ≤ i) :
    (overwrite fill l p new)[i]? = l[i]? := by
  have h := congrArg (·[0]?) (drop_overwrite new hi : (overwrite fill l p new).drop i = l.drop i)
  simpa only [List.getElem?_drop, Nat.add_zero] using h

end

end Overwrite
