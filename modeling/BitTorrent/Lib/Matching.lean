import Mathlib.Data.Nat.Nth

/-!
# Matching outputs to inputs by counting

Two sequences of labels, inputs `inp` and outputs `out`.  If for every label no initial part has more
outputs than inputs, and no place is both, then every output is matched to an earlier input with its
label and no two outputs to the same one (`exists_matching`): output number `n` of a label goes to input
number `n` of that label.
-/

namespace Matching

variable {κ : Type*} [DecidableEq κ]

/-- the number of places below `n` with the label `k` -/
def tally (f : ℕ → Option κ) (k : κ) (n : ℕ) : ℕ := Nat.count (fun i => f i = some k) n

theorem tally_zero (f : ℕ → Option κ) (k : κ) : tally f k 0 = 0 := Nat.count_zero _

theorem tally_succ (f : ℕ → Option κ) (k : κ) (n : ℕ) :
    tally f k (n + 1) = tally f k n + if f n = some k then 1 else 0 := Nat.count_succ _ _

/-- the place of label number `c` below `n`, if there are that many -/
theorem nth_of_lt_tally {f : ℕ → Option κ} {k : κ} {c n : ℕ} (h : c < tally f k n) :
    Nat.nth (fun i => f i = some k) c < n ∧ f (Nat.nth (fun i => f i = some k) c) = some k ∧
      tally f k (Nat.nth (fun i => f i = some k) c) = c := by
  have hcard : ∀ hf : (Set.ofPred fun i => f i = some k).Finite, c < hf.toFinset.card :=
    fun hf => h.trans_le (Nat.count_le_card hf n)
  exact ⟨Nat.nth_lt_of_lt_count h, Nat.nth_mem c hcard, Nat.count_nth hcard⟩

theorem exists_matching {inp out : ℕ → Option κ} (hle : ∀ k n, tally out k n ≤ tally inp k n)
    (hapart : ∀ i k, out i = some k → inp i = none) :
    ∃ f : ℕ → ℕ, (∀ i k, out i = some k → f i < i ∧ inp (f i) = some k) ∧
      ∀ i j k l, out i = some k → out j = some l → f i = f j → i = j := by
  -- an output is no input, so before it there is one input more than outputs
  have hlt : ∀ i k, out i = some k → tally out k i < tally inp k i := by
    intro i k hi
    have h := hle k (i + 1)
    rw [tally_succ, tally_succ, if_pos hi, if_neg (by rw [hapart i k hi]; exact nofun)] at h
    omega
  refine ⟨fun i => (out i).elim 0 fun k => Nat.nth (fun j => inp j = some k) (tally out k i), ?_, ?_⟩
  · intro i k hi
    obtain ⟨h1, h2, -⟩ := nth_of_lt_tally (hlt i k hi)
    simp only [hi, Option.elim_some]
    exact ⟨h1, h2⟩
  · intro i j k l hi hj h
    simp only [hi, hj, Option.elim_some] at h
    obtain ⟨-, hk, hci⟩ := nth_of_lt_tally (hlt i k hi)
    obtain ⟨-, hl, hcj⟩ := nth_of_lt_tally (hlt j l hj)
    -- the two meet in one input, so they have one label
    obtain rfl : k = l := Option.some.inj (hk.symm.trans (h ▸ hl))
    have hcount : tally out k i = tally out k j := hci.symm.trans ((congrArg (tally inp k) h).trans hcj)
    exact Nat.count_injective hi hj hcount

end Matching
