import Mathlib.Data.List.Induction

/-!
# A loop that takes every element out and puts it back

The elements of a list are gone through by their index, from the last one down: each is taken out, has its turn,
and what is left of it goes to the end of the list; a turn with an answer ends the loop.  Taking an element out may
rearrange the ones behind it, as `Vec::swap_remove` does.

* `loop`           the loop, with a record of the turns;
* `loop_visits`    in front of the index stand the elements that had no turn, in their order, behind it what is left
                   of the others; so nothing has two turns, and nothing is left out before an answer ends the loop;
* `exists_turn_eq_none`   the index is always that of an element.
-/

namespace Pass

/-- a way to take out an element that leaves the elements in front of it alone -/
structure Removal (α : Type*) where
  take : List α → Nat → Option (α × List α)
  take_eq : ∀ (front behind : List α) (a : α), ∃ behind', behind'.Perm behind ∧
    take (front ++ a :: behind) front.length = some (a, front ++ behind')

/-- the turn of an element: the element before it, what is left of it, and its answer -/
structure Turn (α β : Type*) where
  before : α
  after : Option α
  answer : Option β

structure Outcome (α β σ : Type*) where
  turns : List (Turn α β)
  answer : Option β
  left : List α
  state : σ

section
variable {α β σ : Type*}

/-- turns that end no element leave as many as there were -/
theorem map_after_eq {ts : List (Turn α β)} (h : ∀ t ∈ ts, t.after.isSome) :
    ts.map Turn.after = (ts.filterMap Turn.after).map some := by
  induction ts with
  | nil => rfl
  | cons t ts ih =>
    obtain ⟨hhead, htail⟩ := List.forall_mem_cons.mp h
    obtain ⟨a, ha⟩ := Option.isSome_iff_exists.mp hhead
    rw [List.map_cons, ih htail, ha, List.filterMap_cons_some ha, List.map_cons]

def Outcome.record (t : Turn α β) (o : Outcome α β σ) : Outcome α β σ := { o with turns := t :: o.turns }

section
variable (r : Removal α) (turn : Nat → σ → α → Option (Option α × Option β × σ))

/-- `for i in (0..n).rev()`; a turn may depend on the index and on a state -/
def loop : Nat → List α → σ → Option (Outcome α β σ)
  | 0, l, s => some ⟨[], none, l, s⟩
  | n + 1, l, s =>
    match r.take l n with
    | none => none
    | some (a, rest) =>
      match turn n s a with
      | none => none
      | some (after, some answer, s) => some ⟨[⟨a, after, some answer⟩], some answer, rest ++ after.toList, s⟩
      | some (after, none, s) => (loop n (rest ++ after.toList) s).map (Outcome.record ⟨a, after, none⟩)

/-- the turns follow each other from state to state, by falling index -/
inductive Turned : Nat → σ → List (Turn α β) → σ → Prop
  | done (n : Nat) (s : σ) : Turned n s [] s
  | next {n : Nat} {s s' s'' : σ} {t : Turn α β} {ts : List (Turn α β)}
      (h : turn n s t.before = some (t.after, t.answer, s')) (hrest : Turned n s' ts s'') :
      Turned (n + 1) s (t :: ts) s''

/-- What the loop does to the elements of `l` in front of `behind`: the ones up to `unvisited` have one turn each,
in the state they were in, and what is left of them stays, with the others. -/
structure Visits (l behind : List α) (s : σ) (o : Outcome α β σ) (unvisited : List α) : Prop where
  order : l.reverse = o.turns.map Turn.before ++ unvisited
  left : o.left.Perm (o.turns.filterMap Turn.after ++ unvisited ++ behind)
  turned : Turned turn l.length s o.turns o.state
  quiet : o.answer = none → unvisited = [] ∧ ∀ t ∈ o.turns, t.answer = none
  answered : ∀ b, o.answer = some b → ∃ ts last, o.turns = ts ++ [last] ∧ last.answer = some b ∧
    ∀ t ∈ ts, t.answer = none

variable {r turn}

/-- the k-th turn is one of the index k below the first -/
theorem Turned.getElem {n : Nat} {s s' : σ} {ts : List (Turn α β)} (h : Turned turn n s ts s') {k : Nat}
    {t : Turn α β} (hk : ts[k]? = some t) :
    ∃ s₁ s₂, turn (n - 1 - k) s₁ t.before = some (t.after, t.answer, s₂) := by
  induction h generalizing k with
  | done n s => cases hk
  | @next n s s' s'' t' ts ht hrest ih =>
    cases k with
    | zero =>
      cases hk
      exact ⟨s, s', ht⟩
    | succ k =>
      obtain ⟨s₁, s₂, hturn⟩ := ih hk
      refine ⟨s₁, s₂, ?_⟩
      rw [show n + 1 - 1 - (k + 1) = n - 1 - k by omega]
      exact hturn

theorem Turned.of_mem {n : Nat} {s s' : σ} {ts : List (Turn α β)} (h : Turned turn n s ts s') {t : Turn α β}
    (ht : t ∈ ts) : ∃ k s₁ s₂, turn k s₁ t.before = some (t.after, t.answer, s₂) := by
  obtain ⟨k, hk⟩ := List.getElem?_of_mem ht
  exact ⟨n - 1 - k, h.getElem hk⟩

/-- the first element that has a turn is the last one of the list; the rest of the loop goes over the ones in front -/
theorem Visits.record {l behind behind' : List α} {s s' : σ} {a : α} {after : Option α} {o : Outcome α β σ}
    {unvisited : List α} (hturn : turn l.length s a = some (after, none, s')) (hperm : behind'.Perm behind)
    (h : Visits turn l (behind' ++ after.toList) s' o unvisited) :
    Visits turn (l ++ [a]) behind s (o.record ⟨a, after, none⟩) unvisited where
  order := by
    rw [List.reverse_append, h.order]
    rfl
  left := by
    have hafter : (Outcome.record ⟨a, after, none⟩ o).turns.filterMap Turn.after
        = after.toList ++ o.turns.filterMap Turn.after := by
      cases after <;> rfl
    rw [hafter]
    show o.left.Perm _
    refine h.left.trans ?_
    rw [List.append_assoc after.toList, List.append_assoc after.toList, ← List.append_assoc _ behind']
    exact List.perm_append_comm.trans (((List.Perm.refl _).append hperm).append_left _)
  turned := by
    rw [List.length_append, List.length_singleton]
    exact .next hturn h.turned
  quiet hanswer := by
    obtain ⟨hunvisited, hquiet⟩ := h.quiet hanswer
    refine ⟨hunvisited, ?_⟩
    intro t ht
    rcases List.mem_cons.mp ht with rfl | ht
    · rfl
    · exact hquiet t ht
  answered b hanswer := by
    obtain ⟨ts, last, hturns, hlast, hquiet⟩ := h.answered b hanswer
    refine ⟨⟨a, after, none⟩ :: ts, last, congrArg _ hturns, hlast, ?_⟩
    intro t ht
    rcases List.mem_cons.mp ht with rfl | ht
    · rfl
    · exact hquiet t ht

/-- a turn with an answer leaves the elements in front without one -/
theorem Visits.stop {l behind behind' : List α} {s s' : σ} {a : α} {after : Option α} {b : β}
    (hturn : turn l.length s a = some (after, some b, s')) (hperm : behind'.Perm behind) :
    Visits turn (l ++ [a]) behind s ⟨[⟨a, after, some b⟩], some b, l ++ behind' ++ after.toList, s'⟩ l.reverse where
  order := by
    rw [List.reverse_append]
    rfl
  left := by
    have hafter : [Turn.mk a after (some b)].filterMap Turn.after = after.toList := by
      cases after <;> rfl
    rw [hafter, List.append_assoc after.toList]
    exact List.perm_append_comm.trans (((List.reverse_perm l).symm.append hperm).append_left _)
  turned := by
    rw [List.length_append, List.length_singleton]
    exact .next hturn (.done _ _)
  quiet hanswer := by cases hanswer
  answered b' hanswer := by
    cases hanswer
    exact ⟨[], _, rfl, rfl, fun t ht => by cases ht⟩

/-- **Every element has at most one turn.** -/
theorem loop_visits (l behind : List α) {s : σ} {o : Outcome α β σ} (h : loop r turn l.length (l ++ behind) s = some o) :
    ∃ unvisited, Visits turn l behind s o unvisited := by
  induction l using List.reverseRecOn generalizing behind s o with
  | nil =>
    cases h
    exact ⟨[], rfl, List.Perm.refl _, .done _ _, fun _ => ⟨rfl, fun t ht => by cases ht⟩, fun b hb => by cases hb⟩
  | append_singleton l a ih =>
    obtain ⟨behind', hperm, htake⟩ := r.take_eq l behind a
    rw [List.length_append, List.length_singleton, List.append_assoc, List.singleton_append, loop, htake] at h
    simp only at h
    split at h
    · cases h
    · rename_i hturn
      cases h
      exact ⟨_, Visits.stop hturn hperm⟩
    · rename_i hturn
      obtain ⟨o', ho', rfl⟩ := Option.map_eq_some_iff.mp h
      rw [List.append_assoc] at ho'
      obtain ⟨unvisited, hvisits⟩ := ih _ ho'
      exact ⟨unvisited, Visits.record hturn hperm hvisits⟩

/-- the loop takes out elements that are there: only a turn can fail -/
theorem exists_turn_eq_none (l behind : List α) {s : σ} (h : loop r turn l.length (l ++ behind) s = none) :
    ∃ a ∈ l, ∃ k s', turn k s' a = none := by
  induction l using List.reverseRecOn generalizing behind s with
  | nil => cases h
  | append_singleton l a ih =>
    obtain ⟨behind', -, htake⟩ := r.take_eq l behind a
    rw [List.length_append, List.length_singleton, List.append_assoc, List.singleton_append, loop, htake] at h
    simp only at h
    split at h
    · rename_i hturn
      exact ⟨a, List.mem_append_right _ (List.mem_singleton_self a), l.length, s, hturn⟩
    · cases h
    · rw [Option.map_eq_none_iff, List.append_assoc] at h
      obtain ⟨b, hb, hnone⟩ := ih _ h
      exact ⟨b, List.mem_append_left _ hb, hnone⟩

end

end

end Pass
