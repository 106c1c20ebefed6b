import Mathlib.Data.List.Basic

/-!
# Decoding a stream that arrives in chunks

A decoder looks at a buffer and answers that it needs more, or with an item and what is left behind it, or
with an error; `none` says that it crashed.  `Decoder` has the two laws that make the cutting of the stream
irrelevant: an answer other than `more` stands when bytes are appended, and an item uses something up.

* `drain d b`        decode until the buffer gives no further item;
* `drain_append`     what is drained from `b ++ s` is what is drained from `b`, then from the rest with `s`;
* `feedAll d cs`     append the chunks one after the other and drain after each;
* `feedAll_flatten`  as long as no call crashes, this is what the whole stream gives at once.
-/

namespace Framing
variable {α μ ε : Type*}

inductive Reply (α μ ε : Type*) where
  | more
  | item (m : μ) (rest : List α)
  | bad (e : ε)

structure Decoder (α μ ε : Type*) where
  decode : List α → Option (Reply α μ ε)
  start : decode [] = some .more
  shrinks : ∀ {b m rest}, decode b = some (.item m rest) → rest.length < b.length
  item_append : ∀ {b m rest} (s : List α), decode b = some (.item m rest) →
    decode (b ++ s) = some (.item m (rest ++ s))
  bad_append : ∀ {b e} (s : List α), decode b = some (.bad e) → decode (b ++ s) = some (.bad e)

/-- what a stream has given so far: items, and the bytes left over or the error that ended it -/
abbrev Yield (α μ ε : Type*) := List μ × Except ε (List α)

/-- items that came before -/
def Yield.after (ms : List μ) (y : Yield α μ ε) : Yield α μ ε := (ms ++ y.1, y.2)

namespace Decoder
variable (d : Decoder α μ ε)

def drain (b : List α) : Option (Yield α μ ε) :=
  match h : d.decode b with
  | none => none
  | some .more => some ([], .ok b)
  | some (.bad e) => some ([], .error e)
  | some (.item m rest) => (drain rest).map (Yield.after [m])
termination_by b.length
decreasing_by exact d.shrinks h

/-- a chunk arrives; after an error the stream is not read any more -/
def feed (y : Yield α μ ε) (chunk : List α) : Option (Yield α μ ε) :=
  match y.2 with
  | .ok b => (d.drain (b ++ chunk)).map (Yield.after y.1)
  | .error _ => some y

def feedAll (chunks : List (List α)) : Option (Yield α μ ε) := chunks.foldlM d.feed ([], .ok [])

variable {d}

theorem drain_none {b : List α} (h : d.decode b = none) : d.drain b = none := by
  rw [drain]
  split <;> rename_i h' <;> cases h.symm.trans h'
  rfl

theorem drain_more {b : List α} (h : d.decode b = some .more) : d.drain b = some ([], .ok b) := by
  rw [drain]
  split <;> rename_i h' <;> cases h.symm.trans h'
  rfl

theorem drain_bad {b : List α} {e : ε} (h : d.decode b = some (.bad e)) : d.drain b = some ([], .error e) := by
  rw [drain]
  split <;> rename_i h' <;> cases h.symm.trans h'
  rfl

theorem drain_item {b rest : List α} {m : μ} (h : d.decode b = some (.item m rest)) :
    d.drain b = (d.drain rest).map (Yield.after [m]) := by
  rw [drain]
  split <;> rename_i h' <;> cases h.symm.trans h'
  rfl

theorem feed_after (ms : List μ) (y : Yield α μ ε) (s : List α) :
    (d.feed y s).map (Yield.after ms) = d.feed (Yield.after ms y) s := by
  unfold feed
  cases hy : y.2 with
  | ok b =>
    simp only [Yield.after, hy, Option.map_map]
    congr 1
    funext z
    simp [Yield.after, List.append_assoc]
  | error e => simp only [Yield.after, hy, Option.map_some]

/-- **Draining is piecewise.** -/
theorem drain_append {b : List α} {y : Yield α μ ε} (h : d.drain b = some y) (s : List α) :
    d.drain (b ++ s) = d.feed y s := by
  induction hn : b.length using Nat.strongRecOn generalizing b y with
  | ind n ih =>
    cases hd : d.decode b with
    | none =>
      rw [drain_none hd] at h
      cases h
    | some reply =>
      cases reply with
      | more =>
        rw [drain_more hd] at h
        cases h
        show d.drain (b ++ s) = (d.drain (b ++ s)).map (Yield.after [])
        exact Option.map_id'.symm
      | bad e =>
        rw [drain_bad hd] at h
        cases h
        exact drain_bad (d.bad_append s hd)
      | item m rest =>
        rw [drain_item hd] at h
        obtain ⟨y, hrest, rfl⟩ := Option.map_eq_some_iff.mp h
        rw [drain_item (d.item_append s hd), ih rest.length (hn ▸ d.shrinks hd) hrest rfl]
        exact feed_after [m] y s

/-- **The cutting of the stream does not matter.**  If no call crashes on the way, the chunks give what the
whole stream gives at once. -/
theorem feedAll_flatten {chunks : List (List α)} {y : Yield α μ ε} (h : d.feedAll chunks = some y) :
    d.drain chunks.flatten = some y := by
  have hrun : ∀ (chunks : List (List α)) (b : List α) (y₀ : Yield α μ ε), d.drain b = some y₀ →
      chunks.foldlM d.feed y₀ = some y → d.drain (b ++ chunks.flatten) = some y := by
    intro chunks
    induction chunks with
    | nil =>
      intro b y₀ hb hy
      cases hy
      rw [List.flatten_nil, List.append_nil]
      exact hb
    | cons chunk chunks ih =>
      intro b y₀ hb hy
      rw [List.foldlM_cons] at hy
      obtain ⟨y₁, hy₁, hy⟩ := Option.bind_eq_some_iff.mp hy
      rw [List.flatten_cons, ← List.append_assoc]
      exact ih (b ++ chunk) y₁ ((drain_append hb chunk).trans hy₁) hy
  exact hrun chunks [] ([], .ok []) (drain_more d.start) h

end Decoder

end Framing
