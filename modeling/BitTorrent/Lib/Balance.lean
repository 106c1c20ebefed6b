import Mathlib.Algebra.Group.Hom.Defs
import BitTorrent.Lib.Machine

/-!
# Books kept over a run

What the steps of a machine take from a stock and give to it, in any commutative monoid: a number, a multiset,
or a tuple of such accounts.

* `booked step book s is`   what the steps of a run book, added up;
* `exists_of_booked`        something booked is booked by one of the steps;
* `balance`                 what is taken and left is what was there and is given: if it holds of every guarded step, it
                            holds of every guarded run;
* `trajectory`              the states of an endless run;
* `exhausts`                a stock that is only taken from runs out in an endless run, if something is taken again
                            and again as long as there is some left.
-/

namespace Run

variable {σ ι M : Type*}

section
variable [AddCommMonoid M] {step : σ → ι → σ} {I : σ → Prop} {G : σ → ι → Prop}

/-- what the steps of a run book, added up -/
def booked (step : σ → ι → σ) (book : σ → ι → M) : σ → List ι → M
  | _, [] => 0
  | s, i :: is => book s i + booked step book (step s i) is

@[simp] theorem booked_nil (book : σ → ι → M) (s : σ) : booked step book s [] = 0 := rfl

theorem booked_cons (book : σ → ι → M) (s : σ) (i : ι) (is : List ι) :
    booked step book s (i :: is) = book s i + booked step book (step s i) is := rfl

theorem booked_zero (s : σ) (is : List ι) : booked step (fun _ _ => (0 : M)) s is = 0 := by
  induction is generalizing s with
  | nil => rfl
  | cons i is ih => rw [booked_cons, ih, add_zero]

theorem booked_append (book : σ → ι → M) (s : σ) (a b : List ι) :
    booked step book s (a ++ b) = booked step book s a + booked step book (exec step s a) b := by
  induction a generalizing s with
  | nil => rw [List.nil_append, booked_nil, zero_add, exec_nil]
  | cons i a ih => rw [List.cons_append, booked_cons, booked_cons, ih, exec_cons, add_assoc]

/-- what is booked is booked by a step -/
theorem exists_of_booked {book : σ → ι → M} {s : σ} {is : List ι} (h : booked step book s is ≠ 0) :
    ∃ pre i, pre ++ [i] <+: is ∧ book (exec step s pre) i ≠ 0 := by
  induction is generalizing s with
  | nil => exact (h rfl).elim
  | cons i is ih =>
    by_cases hi : book s i = 0
    · rw [booked_cons, hi, zero_add] at h
      obtain ⟨pre, j, hpre, hj⟩ := ih h
      exact ⟨i :: pre, j, List.cons_prefix_cons.mpr ⟨rfl, hpre⟩, hj⟩
    · exact ⟨[], i, ⟨is, rfl⟩, hi⟩

/-- **The books balance over a whole run.** -/
theorem balance (stock : σ → M) (taken given : σ → ι → M) (hkeep : ∀ s i, I s → G s i → I (step s i))
    (hstep : ∀ s i, I s → G s i → taken s i + stock (step s i) = stock s + given s i) {s : σ} (h0 : I s)
    {is : List ι} (hG : Along step G s is) :
    booked step taken s is + stock (exec step s is) = stock s + booked step given s is := by
  induction is generalizing s with
  | nil => rw [booked_nil, booked_nil, zero_add, add_zero, exec_nil]
  | cons i is ih =>
    have hrest := ih (hkeep s i h0 hG.1) hG.2
    have hfirst := hstep s i h0 hG.1
    calc booked step taken s (i :: is) + stock (exec step s (i :: is))
        = taken s i + (booked step taken (step s i) is + stock (exec step (step s i) is)) := by
          rw [booked_cons, exec_cons, add_assoc]
      _ = taken s i + stock (step s i) + booked step given (step s i) is := by rw [hrest, add_assoc]
      _ = stock s + booked step given s (i :: is) := by rw [hfirst, booked_cons, add_assoc]

end

/-! ## endless runs -/

section
variable {step : σ → ι → σ} {I : σ → Prop} {G : σ → ι → Prop}

/-- the states of the endless run that reads `f 0`, `f 1`, ... -/
def trajectory (step : σ → ι → σ) (s : σ) (f : Nat → ι) (n : Nat) : σ := exec step s ((List.range n).map f)

theorem trajectory_succ (s : σ) (f : Nat → ι) (n : Nat) :
    trajectory step s f (n + 1) = step (trajectory step s f n) (f n) := by
  rw [trajectory, List.range_succ, List.map_append, List.map_singleton, exec_snoc, trajectory]

/-- the beginnings of a guarded endless run are guarded -/
theorem along_range {s : σ} {f : Nat → ι} (hG : ∀ n, G (trajectory step s f n) (f n)) (n : Nat) :
    Along step G s ((List.range n).map f) := by
  induction n with
  | zero => trivial
  | succ n ih =>
    rw [List.range_succ, List.map_append, List.map_singleton, along_snoc]
    exact ⟨ih, hG n⟩

theorem trajectory_inv (hkeep : ∀ s i, I s → G s i → I (step s i)) {s : σ} (h0 : I s) {f : Nat → ι}
    (hG : ∀ n, G (trajectory step s f n) (f n)) (n : Nat) : I (trajectory step s f n) :=
  exec_inv_along hkeep h0 (along_range hG n)

/-- **A stock that is only taken from runs out**, if as long as there is some left something is taken again. -/
theorem exhausts (stock : σ → Nat) (taken : σ → ι → Nat) (hkeep : ∀ s i, I s → G s i → I (step s i))
    (hstep : ∀ s i, I s → G s i → taken s i + stock (step s i) = stock s) {s : σ} (h0 : I s) {f : Nat → ι}
    (hG : ∀ n, G (trajectory step s f n) (f n))
    (hfair : ∀ n, ∃ m, n ≤ m ∧ (stock (trajectory step s f m) = 0 ∨ 0 < taken (trajectory step s f m) (f m))) :
    ∃ n, stock (trajectory step s f n) = 0 := by
  have hnext : ∀ n, taken (trajectory step s f n) (f n) + stock (trajectory step s f (n + 1))
      = stock (trajectory step s f n) := by
    intro n
    rw [trajectory_succ]
    exact hstep _ _ (trajectory_inv hkeep h0 hG n) (hG n)
  have hmono : ∀ n d, stock (trajectory step s f (n + d)) ≤ stock (trajectory step s f n) := by
    intro n d
    induction d with
    | zero => exact Nat.le_refl _
    | succ d ih =>
      have h1 := hnext (n + d)
      rw [Nat.add_assoc] at h1
      omega
  -- by induction on what is left: each taking step leaves less
  have hall : ∀ k n, stock (trajectory step s f n) ≤ k → ∃ n, stock (trajectory step s f n) = 0 := by
    intro k
    induction k with
    | zero => exact fun n hn => ⟨n, Nat.le_zero.mp hn⟩
    | succ k ih =>
      intro n hn
      obtain ⟨m, hm, hzero | hpos⟩ := hfair n
      · exact ⟨m, hzero⟩
      · apply ih (m + 1)
        have h1 := hnext m
        have h2 := hmono n (m - n)
        rw [Nat.add_sub_cancel' hm] at h2
        omega
  exact hall _ 0 (Nat.le_refl _)

end

end Run
