import Mathlib.Data.List.Infix
import Mathlib.Logic.Basic

/-!
# Runs of a machine

A machine is a step function `step : σ → ι → σ`; a run is a list of inputs.

* `exec step s is`       the state after the inputs `is`;
* `stateAt step s is n`  the state before input number `n`;
* `outputs step out s is`   what the steps of the run put out, in order;
* `Along step G s is`    every input of the run finds the guard `G` true in the state it is read in;
* `along_iff`            the same, read off the prefixes of the run;
* `exec_inv`, `exec_inv_along`, `exec_inv_some`   the invariant rules (plain, for guarded runs, and for a
                         machine that may stop);
* `hist_along`           the same for a predicate on the whole history of the run;
* `safe_iff_along_of`, `safe_iff_along`   an exact rule: if a guarded step keeps the invariant and an
                         unguarded one breaks the property at once, the property holds along a run
                         exactly when the guard does;
* `safe_iff_along_some`  the same for a machine that may stop.
-/

namespace Run

variable {σ ι : Type*}

/-- the state after the inputs `is` -/
def exec (step : σ → ι → σ) (s : σ) (is : List ι) : σ := is.foldl step s

/-- the state after `n` inputs, or after all of them -/
def stateAt (step : σ → ι → σ) (s : σ) (is : List ι) (n : Nat) : σ := exec step s (is.take n)

/-- what the steps of a run put out -/
def outputs {ω : Type*} (step : σ → ι → σ) (out : σ → ι → Option ω) : σ → List ι → List ω
  | _, [] => []
  | s, i :: is => (out s i).toList ++ outputs step out (step s i) is

/-- every input finds the guard true -/
def Along (step : σ → ι → σ) (G : σ → ι → Prop) : σ → List ι → Prop
  | _, [] => True
  | s, i :: is => G s i ∧ Along step G (step s i) is

section
variable {step : σ → ι → σ} {G : σ → ι → Prop}

@[simp] theorem exec_nil (s : σ) : exec step s [] = s := rfl
theorem exec_cons (s : σ) (i : ι) (is : List ι) : exec step s (i :: is) = exec step (step s i) is := rfl
theorem exec_append (s : σ) (a b : List ι) : exec step s (a ++ b) = exec step (exec step s a) b := by
  simp [exec, List.foldl_append]
theorem exec_snoc (s : σ) (is : List ι) (i : ι) :
    exec step s (is ++ [i]) = step (exec step s is) i := by
  rw [exec_append]; rfl

theorem stateAt_zero (s : σ) (is : List ι) : stateAt step s is 0 = s := rfl

theorem stateAt_succ {s : σ} {is : List ι} {n : Nat} {i : ι} (h : is[n]? = some i) :
    stateAt step s is (n + 1) = step (stateAt step s is n) i := by
  obtain ⟨hn, rfl⟩ := List.getElem?_eq_some_iff.mp h
  rw [stateAt, List.take_succ_eq_append_getElem hn, exec_snoc]
  rfl

theorem stateAt_succ_of_none {s : σ} {is : List ι} {n : Nat} (h : is[n]? = none) :
    stateAt step s is (n + 1) = stateAt step s is n := by
  have hn := List.getElem?_eq_none_iff.mp h
  rw [stateAt, stateAt, List.take_of_length_le hn, List.take_of_length_le (Nat.le_succ_of_le hn)]

theorem outputs_append {ω : Type*} {out : σ → ι → Option ω} (s : σ) (a b : List ι) :
    outputs step out s (a ++ b) = outputs step out s a ++ outputs step out (exec step s a) b := by
  induction a generalizing s with
  | nil => rfl
  | cons i is ih => rw [List.cons_append, outputs, outputs, ih, List.append_assoc, exec_cons]

theorem outputs_snoc {ω : Type*} {out : σ → ι → Option ω} (s : σ) (is : List ι) (i : ι) :
    outputs step out s (is ++ [i]) = outputs step out s is ++ (out (exec step s is) i).toList := by
  rw [outputs_append, outputs, outputs, List.append_nil]

/-- what a run puts out is put out by a step of it -/
theorem mem_outputs {ω : Type*} {out : σ → ι → Option ω} {x : ω} {s : σ} {is : List ι} :
    x ∈ outputs step out s is ↔ ∃ pre i post, is = pre ++ i :: post ∧ out (exec step s pre) i = some x := by
  constructor
  · intro h
    induction is generalizing s with
    | nil => cases h
    | cons i is ih =>
      rcases List.mem_append.mp h with h | h
      · exact ⟨[], i, is, rfl, Option.mem_toList.mp h⟩
      · obtain ⟨pre, j, post, rfl, hj⟩ := ih h
        exact ⟨i :: pre, j, post, rfl, hj⟩
  · rintro ⟨pre, i, post, rfl, hi⟩
    rw [outputs_append, outputs]
    exact List.mem_append_right _ (List.mem_append_left _ (Option.mem_toList.mpr hi))

theorem along_append (s : σ) (a b : List ι) :
    Along step G s (a ++ b) ↔ Along step G s a ∧ Along step G (exec step s a) b := by
  induction a generalizing s with
  | nil => simp [Along]
  | cons i is ih => simp only [List.cons_append, Along, exec_cons, ih, and_assoc]

theorem along_snoc (s : σ) (is : List ι) (i : ι) :
    Along step G s (is ++ [i]) ↔ Along step G s is ∧ G (exec step s is) i := by
  rw [along_append]
  simp [Along]

theorem along_congr {G' : σ → ι → Prop} (h : ∀ s i, G s i ↔ G' s i) (s : σ) (is : List ι) :
    Along step G s is ↔ Along step G' s is := by
  induction is generalizing s with
  | nil => exact Iff.rfl
  | cons i is ih => exact and_congr (h s i) (ih (step s i))

/-- the guard holds along a run iff it holds wherever an input is read -/
theorem along_iff (s : σ) (is : List ι) :
    Along step G s is ↔ ∀ pre i, pre ++ [i] <+: is → G (exec step s pre) i := by
  induction is generalizing s with
  | nil =>
    refine ⟨fun _ pre i h => ?_, fun _ => trivial⟩
    exact (List.append_ne_nil_of_right_ne_nil pre (List.cons_ne_nil i []) (List.prefix_nil.mp h)).elim
  | cons j is ih =>
    rw [Along, ih]
    constructor
    · rintro ⟨h0, h⟩ pre i hpre
      cases pre with
      | nil =>
        rw [(List.cons_prefix_cons.mp hpre).1]
        exact h0
      | cons k pre =>
        obtain ⟨rfl, htail⟩ := List.cons_prefix_cons.mp hpre
        exact h pre i htail
    · intro h
      exact ⟨h [] j ⟨is, rfl⟩, fun pre i hpre => h (j :: pre) i (List.cons_prefix_cons.mpr ⟨rfl, hpre⟩)⟩

/-! ## invariant rules -/

theorem exec_inv {I : σ → Prop} (hstep : ∀ s i, I s → I (step s i)) {s : σ} (h0 : I s)
    (is : List ι) : I (exec step s is) := by
  induction is generalizing s with
  | nil => exact h0
  | cons i is ih => exact ih (hstep s i h0)

theorem exec_inv_along {I : σ → Prop} (hstep : ∀ s i, I s → G s i → I (step s i)) {s : σ}
    (h0 : I s) {is : List ι} (hG : Along step G s is) : I (exec step s is) := by
  induction is generalizing s with
  | nil => exact h0
  | cons i is ih => exact ih (hstep s i h0 hG.1) hG.2

/-- an invariant of the steps that do not stop the machine holds of every state reached -/
theorem exec_inv_some (step : Option σ → ι → Option σ) {f : σ → ι → Option σ}
    (hnext : ∀ s i, step s i = s.bind fun a => f a i) {I : σ → Prop} (hstep : ∀ a a' i, I a → f a i = some a' → I a')
    {a a' : σ} (ha : I a) {is : List ι} (h : exec step (some a) is = some a') : I a' := by
  refine exec_inv (I := fun s : Option σ => ∀ c, s = some c → I c) ?_ ?_ is a' h
  · intro s i hs c hc
    rw [hnext] at hc
    obtain ⟨b, hb, hc⟩ := Option.bind_eq_some_iff.mp hc
    exact hstep b c i (hs b hb) hc
  · intro c hc
    cases hc
    exact ha

/-- a predicate on the history of a guarded run, by induction on its last step -/
theorem hist_along {s : σ} {I : List ι → Prop} (h0 : I [])
    (hstep : ∀ is i, I is → G (exec step s is) i → I (is ++ [i])) {is : List ι}
    (hG : Along step G s is) : I is := by
  induction is using List.reverseRecOn with
  | nil => exact h0
  | append_singleton is i ih =>
    obtain ⟨h1, h2⟩ := (along_snoc s is i).mp hG
    exact hstep is i (ih h1) h2

/-- **Exactness**, for runs of certain inputs.  If the guard keeps the invariant and its failure breaks the property
at the very next state, the property holds at every prefix of a run exactly when the guard holds along the run. -/
theorem safe_iff_along_of {s : σ} {I P : List ι → Prop} {Q : ι → Prop} (h0 : I []) (hP : ∀ is, I is → P is)
    (hstep : ∀ is i, Q i → I is → G (exec step s is) i → I (is ++ [i]))
    (hbad : ∀ is i, Q i → I is → ¬ G (exec step s is) i → ¬ P (is ++ [i])) (is : List ι) (hQ : ∀ i ∈ is, Q i) :
    (∀ pre, pre <+: is → P pre) ↔ Along step G s is := by
  -- along a guarded run the invariant holds
  have hinv : ∀ is, (∀ i ∈ is, Q i) → Along step G s is → I is := by
    intro is
    induction is using List.reverseRecOn with
    | nil => exact fun _ _ => h0
    | append_singleton is i ih =>
      intro hQ hG
      obtain ⟨h1, h2⟩ := (along_snoc s is i).mp hG
      exact hstep is i (hQ i (by simp)) (ih (fun j hj => hQ j (List.mem_append_left _ hj)) h1) h2
  constructor
  · intro h
    induction is using List.reverseRecOn with
    | nil => trivial
    | append_singleton is i ih =>
      have hQ1 : ∀ j ∈ is, Q j := fun j hj => hQ j (List.mem_append_left _ hj)
      have h1 : Along step G s is := ih hQ1 (fun pre hp => h pre (hp.trans (List.prefix_append is [i])))
      rw [along_snoc]
      refine ⟨h1, ?_⟩
      by_contra hG
      exact hbad is i (hQ i (by simp)) (hinv is hQ1 h1) hG (h _ (List.prefix_refl _))
  · rintro h pre ⟨post, rfl⟩
    exact hP pre (hinv pre (fun i hi => hQ i (List.mem_append_left _ hi)) ((along_append s pre post).mp h).1)

/-- **Exactness**, for all runs. -/
theorem safe_iff_along {s : σ} {I P : List ι → Prop} (h0 : I []) (hP : ∀ is, I is → P is)
    (hstep : ∀ is i, I is → G (exec step s is) i → I (is ++ [i]))
    (hbad : ∀ is i, I is → ¬ G (exec step s is) i → ¬ P (is ++ [i])) (is : List ι) :
    (∀ pre, pre <+: is → P pre) ↔ Along step G s is :=
  safe_iff_along_of (Q := fun _ => True) h0 hP (fun is i _ => hstep is i) (fun is i _ => hbad is i) is fun _ _ => trivial

/-- **Exactness**, for a machine that may stop: its state is gone then, and nothing is left to guard. -/
theorem safe_iff_along_some (step : Option σ → ι → Option σ) {f : σ → ι → Option σ} {G : Option σ → ι → Prop}
    {s : Option σ} {I P : List ι → σ → Prop} (hnext : ∀ s i, step s i = s.bind fun a => f a i)
    (hnone : ∀ i, G none i) (h0 : ∀ a, s = some a → I [] a) (hP : ∀ is a, exec step s is = some a → I is a → P is a)
    (hstep : ∀ is i a a', exec step s is = some a → I is a → G (some a) i → f a i = some a' → I (is ++ [i]) a')
    (hbad : ∀ is i a, exec step s is = some a → I is a → ¬ G (some a) i → ∃ a', f a i = some a' ∧ ¬ P (is ++ [i]) a')
    (is : List ι) : (∀ pre, pre <+: is → ∀ a, exec step s pre = some a → P pre a) ↔ Along step G s is := by
  refine safe_iff_along (I := fun is => ∀ a, exec step s is = some a → I is a) h0 ?_ ?_ ?_ is
  · intro is hI a ha
    exact hP is a ha (hI a ha)
  · intro is i hI hG a' ha'
    rw [exec_snoc, hnext] at ha'
    obtain ⟨a, ha, hf⟩ := Option.bind_eq_some_iff.mp ha'
    rw [ha] at hG
    exact hstep is i a a' ha (hI a ha) hG hf
  · intro is i hI hG hafter
    cases ha : exec step s is with
    | none =>
      rw [ha] at hG
      exact hG (hnone i)
    | some a =>
      rw [ha] at hG
      obtain ⟨a', hf, hbroken⟩ := hbad is i a ha (hI a ha) hG
      apply hbroken
      apply hafter
      rw [exec_snoc, ha, hnext, Option.bind_some, hf]

end

end Run
