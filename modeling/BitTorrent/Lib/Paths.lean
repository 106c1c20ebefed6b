import Mathlib.Data.Fintype.EquivFin
import Mathlib.Data.List.Basic

/-!
# Paths, and staying below a directory

* `PathBuf α`     a path: absolute or not, and its components with names in `α`; `join` appends a relative
                  path, and an absolute one replaces what it is joined to;
* `resolve`       the place a path leads to when `.` and `..` are resolved: how many steps above the
                  start, and the names from there (nothing is above the root);
* `Place.Below`   properly below a place;
* `Inside`        components that never lead above their start, and in the end below it;
* `below_join_iff`   exactly the relative paths with such components lead below every base they are joined to.
-/

namespace Paths
variable {α : Type*}

inductive Component (α : Type*) where
  | curDir
  | parentDir
  | normal (name : α)

structure PathBuf (α : Type*) where
  absolute : Bool
  components : List (Component α)

namespace PathBuf

/-- the empty path -/
def empty : PathBuf α := ⟨false, []⟩

def join (p q : PathBuf α) : PathBuf α := if q.absolute then q else ⟨p.absolute, p.components ++ q.components⟩

theorem join_of_absolute (p : PathBuf α) {q : PathBuf α} (hq : q.absolute = true) : p.join q = q := if_pos hq

theorem join_of_relative (p : PathBuf α) {q : PathBuf α} (hq : q.absolute = false) :
    p.join q = ⟨p.absolute, p.components ++ q.components⟩ := if_neg (by rw [hq]; exact Bool.false_ne_true)

theorem empty_join (q : PathBuf α) : empty.join q = q := by
  cases hq : q.absolute with
  | true => exact join_of_absolute _ hq
  | false =>
    rw [join_of_relative _ hq]
    show PathBuf.mk false q.components = q
    rw [← hq]

theorem join_assoc (p q r : PathBuf α) : (p.join q).join r = p.join (q.join r) := by
  cases hr : r.absolute with
  | true => rw [join_of_absolute _ hr, join_of_absolute q hr, join_of_absolute p hr]
  | false =>
    rw [join_of_relative _ hr, join_of_relative q hr]
    cases hq : q.absolute with
    | true => rw [join_of_absolute p hq, join_of_absolute p rfl, hq]
    | false => rw [join_of_relative p hq, join_of_relative p rfl, List.append_assoc]

/-- paths joined one behind the other -/
def joinAll (ps : List (PathBuf α)) : PathBuf α := ps.foldl join empty

theorem foldl_join (p : PathBuf α) (ps : List (PathBuf α)) : ps.foldl join p = p.join (joinAll ps) := by
  induction ps using List.reverseRecOn with
  | nil =>
    show p = p.join empty
    rw [join_of_relative p rfl]
    show p = ⟨p.absolute, p.components ++ []⟩
    rw [List.append_nil]
  | append_singleton ps q ih =>
    rw [joinAll, List.foldl_append, List.foldl_append, List.foldl_cons, List.foldl_nil, ih, join_assoc]
    rfl

theorem joinAll_cons (p : PathBuf α) (ps : List (PathBuf α)) : joinAll (p :: ps) = p.join (joinAll ps) := by
  rw [joinAll, List.foldl_cons, empty_join, foldl_join]

theorem absolute_join (p q : PathBuf α) : (p.join q).absolute = (p.absolute || q.absolute) := by
  cases hq : q.absolute with
  | true => rw [join_of_absolute p hq, hq, Bool.or_true]
  | false => rw [join_of_relative p hq, Bool.or_false]

theorem absolute_joinAll (ps : List (PathBuf α)) : (joinAll ps).absolute = ps.any PathBuf.absolute := by
  induction ps with
  | nil => rfl
  | cons p ps ih => rw [joinAll_cons, absolute_join, ih, List.any_cons]

theorem components_joinAll {ps : List (PathBuf α)} (h : ∀ p ∈ ps, p.absolute = false) :
    (joinAll ps).components = ps.flatMap PathBuf.components := by
  induction ps with
  | nil => rfl
  | cons p ps ih =>
    have hps : ∀ q ∈ ps, q.absolute = false := fun q hq => h q (List.mem_cons_of_mem _ hq)
    have hrel : (joinAll ps).absolute = false := by
      rw [absolute_joinAll, List.any_eq_false]
      intro q hq
      rw [hps q hq]
      exact Bool.false_ne_true
    rw [joinAll_cons, join_of_relative p hrel, List.flatMap_cons, ← ih hps]

end PathBuf

/-! ## places -/

structure Place (α : Type*) where
  absolute : Bool
  ups : Nat
  names : List α

/-- one component further -/
def Place.enter (r : Place α) : Component α → Place α
  | .curDir => r
  | .normal name => { r with names := r.names ++ [name] }
  | .parentDir =>
    if r.names.isEmpty then (if r.absolute then r else { r with ups := r.ups + 1 })
    else { r with names := r.names.dropLast }

def PathBuf.resolve (p : PathBuf α) : Place α := p.components.foldl Place.enter ⟨p.absolute, 0, []⟩

/-- `r` is a proper descendant of `base` -/
def Place.Below (base r : Place α) : Prop :=
  r.absolute = base.absolute ∧ r.ups = base.ups ∧ ∃ names, names ≠ [] ∧ r.names = base.names ++ names

theorem PathBuf.resolve_join (p : PathBuf α) {q : PathBuf α} (hq : q.absolute = false) :
    (p.join q).resolve = q.components.foldl Place.enter p.resolve := by
  rw [join_of_relative p hq, resolve, List.foldl_append]
  rfl

/-! ## how far a path leads up and down -/

def Component.isParent : Component α → Bool
  | .parentDir => true
  | _ => false

def Component.isNormal : Component α → Bool
  | .normal _ => true
  | _ => false

/-- the name, if the component is one -/
def Component.name? : Component α → Option α
  | .normal name => some name
  | _ => none

def ascents (cs : List (Component α)) : Nat := cs.countP Component.isParent
def descents (cs : List (Component α)) : Nat := cs.countP Component.isNormal

/-- never above the start, and below it in the end -/
def Inside (cs : List (Component α)) : Prop :=
  (∀ pre, pre <+: cs → ascents pre ≤ descents pre) ∧ ascents cs < descents cs

section
variable (cs : List (Component α)) (name : α)

@[simp] theorem ascents_nil : ascents ([] : List (Component α)) = 0 := rfl
@[simp] theorem descents_nil : descents ([] : List (Component α)) = 0 := rfl
@[simp] theorem ascents_curDir : ascents (.curDir :: cs) = ascents cs :=
  List.countP_cons_of_neg Bool.false_ne_true
@[simp] theorem descents_curDir : descents (.curDir :: cs) = descents cs :=
  List.countP_cons_of_neg Bool.false_ne_true
@[simp] theorem ascents_parentDir : ascents (.parentDir :: cs) = ascents cs + 1 := List.countP_cons_of_pos rfl
@[simp] theorem descents_parentDir : descents (.parentDir :: cs) = descents cs :=
  List.countP_cons_of_neg Bool.false_ne_true
@[simp] theorem ascents_normal : ascents (.normal name :: cs) = ascents cs :=
  List.countP_cons_of_neg Bool.false_ne_true
@[simp] theorem descents_normal : descents (.normal name :: cs) = descents cs + 1 := List.countP_cons_of_pos rfl

end

/-- plain names lead below the start -/
theorem inside_normals {names : List α} (h : names ≠ []) : Inside (names.map Component.normal) := by
  have hzero : ∀ pre, pre <+: names.map Component.normal → ascents pre = 0 := by
    intro pre hpre
    refine List.countP_eq_zero.mpr fun c hc => ?_
    obtain ⟨name, -, rfl⟩ := List.mem_map.mp (hpre.subset hc)
    exact Bool.false_ne_true
  have hall : descents (names.map Component.normal) = names.length := by
    rw [descents, List.countP_map]
    exact List.countP_eq_length.mpr fun _ _ => rfl
  refine ⟨fun pre hpre => by rw [hzero pre hpre]; exact Nat.zero_le _, ?_⟩
  rw [hzero _ (List.prefix_refl _), hall]
  exact List.length_pos_iff.mpr h

theorem Place.enter_parentDir {r : Place α} (h : r.names ≠ []) :
    r.enter .parentDir = { r with names := r.names.dropLast } := by
  unfold enter
  rw [if_neg (by simpa using h)]

/-- components that never lead above the names `below` leave what is above them alone -/
theorem Place.foldl_enter_inside (r : Place α) (cs : List (Component α)) (below : List α)
    (h : ∀ pre, pre <+: cs → ascents pre ≤ descents pre + below.length) :
    ∃ names, cs.foldl Place.enter { r with names := r.names ++ below } = { r with names := r.names ++ names } ∧
      names.length + ascents cs = below.length + descents cs := by
  induction cs generalizing below with
  | nil => exact ⟨below, rfl, rfl⟩
  | cons c cs ih =>
    rw [List.foldl_cons]
    cases c with
    | curDir =>
      obtain ⟨names, hfold, hlen⟩ := ih below fun pre hpre => by
        simpa using h (.curDir :: pre) (List.prefix_cons_inj _ |>.mpr hpre)
      exact ⟨names, hfold, by simpa using hlen⟩
    | normal name =>
      obtain ⟨names, hfold, hlen⟩ := ih (below ++ [name]) fun pre hpre => by
        have hstep := h (.normal name :: pre) (List.prefix_cons_inj _ |>.mpr hpre)
        rw [ascents_normal, descents_normal] at hstep
        rw [List.length_append, List.length_singleton]
        omega
      refine ⟨names, ?_, ?_⟩
      · rw [← hfold]
        show List.foldl _ { r with names := r.names ++ below ++ [name] } cs = _
        rw [List.append_assoc]
      · rw [List.length_append, List.length_singleton] at hlen
        rw [ascents_normal, descents_normal]
        omega
    | parentDir =>
      have hpos : 1 ≤ below.length := by
        simpa using h [.parentDir] (List.prefix_cons_inj _ |>.mpr (List.nil_prefix))
      have hne : below ≠ [] := List.length_pos_iff.mp hpos
      obtain ⟨names, hfold, hlen⟩ := ih below.dropLast fun pre hpre => by
        have hstep := h (.parentDir :: pre) (List.prefix_cons_inj _ |>.mpr hpre)
        rw [ascents_parentDir, descents_parentDir] at hstep
        rw [List.length_dropLast]
        omega
      refine ⟨names, ?_, ?_⟩
      · rw [← hfold, Place.enter_parentDir (List.append_ne_nil_of_right_ne_nil _ hne)]
        show List.foldl _ { r with names := (r.names ++ below).dropLast } cs = _
        rw [List.dropLast_append_of_ne_nil hne]
      · rw [List.length_dropLast] at hlen
        rw [ascents_parentDir, descents_parentDir]
        omega

/-- a name is there from the start or comes with a component -/
theorem Place.mem_foldl_enter {r : Place α} {cs : List (Component α)} {x : α}
    (h : x ∈ (cs.foldl Place.enter r).names) : x ∈ r.names ∨ .normal x ∈ cs := by
  induction cs generalizing r with
  | nil => exact Or.inl h
  | cons c cs ih =>
    rcases ih h with hr | hcs
    · cases c with
      | curDir => exact Or.inl hr
      | normal name =>
        rcases List.mem_append.mp hr with hr | hr
        · exact Or.inl hr
        · obtain rfl := List.mem_singleton.mp hr
          exact Or.inr List.mem_cons_self
      | parentDir =>
        left
        simp only [enter] at hr
        split at hr
        · split at hr <;> exact hr
        · exact List.mem_of_mem_dropLast hr
    · exact Or.inr (List.mem_cons_of_mem _ hcs)

/-- components that once lead above the name `x` do not bring it back unless they have it -/
theorem Place.foldl_enter_escapes {x : α} {cs pre : List (Component α)} (hx : .normal x ∉ cs) (hpre : pre <+: cs)
    {r : Place α} {below : List α} (hr : r.names = x :: below) (hbelow : x ∉ below)
    (h : descents pre + below.length < ascents pre) : x ∉ (cs.foldl Place.enter r).names := by
  induction cs generalizing pre r below with
  | nil =>
    rw [List.prefix_nil.mp hpre] at h
    simp at h
  | cons c cs ih =>
    have hx' : .normal x ∉ cs := fun hmem => hx (List.mem_cons_of_mem _ hmem)
    cases pre with
    | nil => simp at h
    | cons d pre =>
      obtain ⟨rfl, htail⟩ := List.cons_prefix_cons.mp hpre
      rw [List.foldl_cons]
      cases d with
      | curDir => exact ih hx' htail hr hbelow (by simpa using h)
      | normal name =>
        have hnames : (r.enter (.normal name)).names = x :: (below ++ [name]) := by
          show r.names ++ [name] = _
          rw [hr]
          rfl
        refine ih hx' htail hnames ?_ ?_
        · intro hmem
          rcases List.mem_append.mp hmem with hmem | hmem
          · exact hbelow hmem
          · obtain rfl := List.mem_singleton.mp hmem
            exact hx List.mem_cons_self
        · rw [ascents_normal, descents_normal] at h
          rw [List.length_append, List.length_singleton]
          omega
      | parentDir =>
        have hnames : (r.enter .parentDir).names = (x :: below).dropLast := by
          rw [Place.enter_parentDir (by rw [hr]; exact List.cons_ne_nil _ _), hr]
        cases below with
        | nil =>
          intro hmem
          rcases Place.mem_foldl_enter hmem with hmem | hmem
          · rw [hnames] at hmem
            cases hmem
          · exact hx' hmem
        | cons y below =>
          refine ih hx' htail hnames ?_ ?_
          · exact fun hmem => hbelow (List.mem_of_mem_dropLast hmem)
          · rw [ascents_parentDir, descents_parentDir, List.length_cons] at h
            rw [List.length_dropLast, List.length_cons]
            omega

/-- **Exactly the relative paths inside their start lead below every base.** -/
theorem PathBuf.below_join_iff [Infinite α] (p : PathBuf α) :
    (∀ base : PathBuf α, base.resolve.Below (base.join p).resolve) ↔ p.absolute = false ∧ Inside p.components := by
  constructor
  · intro hall
    have hrel : p.absolute = false := by
      by_contra habs
      obtain ⟨-, -, names, hne, hnames⟩ := hall p
      rw [join_of_absolute p (Bool.of_not_eq_false habs)] at hnames
      exact hne (List.self_eq_append_right.mp hnames)
    obtain ⟨x, hx⟩ : ∃ x : α, .normal x ∉ p.components := by
      classical
      obtain ⟨x, hx⟩ := Infinite.exists_notMem_finset (p.components.filterMap Component.name?).toFinset
      exact ⟨x, fun hmem => hx (List.mem_toFinset.mpr (List.mem_filterMap.mpr ⟨_, hmem, rfl⟩))⟩
    -- the base is a directory whose name does not occur in the path
    have hbase := hall ⟨true, [.normal x]⟩
    rw [resolve_join _ hrel] at hbase
    obtain ⟨-, -, names, hne, hnames⟩ := hbase
    have hnames : (p.components.foldl Place.enter (⟨true, 0, [x]⟩ : Place α)).names = [x] ++ names := hnames
    have hprefix : ∀ pre, pre <+: p.components → ascents pre ≤ descents pre := by
      intro pre hpre
      by_contra hlt
      have hmem := Place.foldl_enter_escapes (r := (⟨true, 0, [x]⟩ : Place α)) hx hpre rfl List.not_mem_nil
        (by simpa using hlt)
      rw [hnames] at hmem
      exact hmem List.mem_cons_self
    obtain ⟨ns, hfold, hlen⟩ := Place.foldl_enter_inside (⟨true, 0, [x]⟩ : Place α) p.components [] hprefix
    have heq : ns = names := by
      have hfold : p.components.foldl Place.enter (⟨true, 0, [x]⟩ : Place α) = ⟨true, 0, [x] ++ ns⟩ := hfold
      rw [hfold] at hnames
      exact List.append_cancel_left hnames
    have hpos : 0 < names.length := List.length_pos_iff.mpr hne
    rw [heq, List.length_nil] at hlen
    exact ⟨hrel, hprefix, by omega⟩
  · rintro ⟨hrel, hprefix, hlt⟩ base
    rw [resolve_join base hrel]
    obtain ⟨names, hfold, hlen⟩ := Place.foldl_enter_inside base.resolve p.components [] hprefix
    rw [List.append_nil] at hfold
    rw [List.length_nil] at hlen
    have hfold : p.components.foldl Place.enter base.resolve
        = { base.resolve with names := base.resolve.names ++ names } := hfold
    rw [hfold]
    exact ⟨rfl, rfl, names, List.length_pos_iff.mp (by omega), rfl⟩

end Paths
