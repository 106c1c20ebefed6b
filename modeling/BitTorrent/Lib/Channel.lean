import BitTorrent.Lib.Framing
import BitTorrent.Lib.Machine

/-!
# A channel of items over a stream of bytes

Items are encoded one after the other onto a stream, the stream arrives in pieces of any size, and a decoder takes
items out of what has arrived.

* `Encodes d enc Good`   the decoder gives back every good item that was encoded, whatever follows;
* `strict_prefix`        on a part of an item it asks for more, or crashes;
* `Channel`              the stream, cut at the point up to which it has arrived, and the history;
* `ChannelOp`            an item is sent, bytes arrive, the decoder is called;
* `InTransit`            what was sent is what was received followed by what the stream still holds;
* `step_receive`         so the decoder gives the next item as soon as its bytes are there, and nothing before.
-/

namespace Framing
open Run

variable {α μ ε : Type*}

/-! ## encodings -/

structure Encodes (d : Decoder α μ ε) (enc : μ → List α) (Good : μ → Prop) : Prop where
  decode : ∀ {m}, Good m → ∀ rest, d.decode (enc m ++ rest) = some (.item m rest)

section
variable {d : Decoder α μ ε} {enc : μ → List α} {Good : μ → Prop}

/-- an item has bytes -/
theorem Encodes.ne_nil (he : Encodes d enc Good) {m : μ} (hm : Good m) : enc m ≠ [] := by
  intro hnil
  have h := he.decode hm []
  rw [hnil, List.nil_append, d.start] at h
  cases h

/-- a part of an item is not taken for an item or an error -/
theorem Encodes.strict_prefix (he : Encodes d enc Good) {m : μ} (hm : Good m) {b s : List α} (hs : s ≠ [])
    (hb : b ++ s = enc m) : d.decode b = none ∨ d.decode b = some .more := by
  have hwhole := he.decode hm []
  rw [List.append_nil, ← hb] at hwhole
  cases h : d.decode b with
  | none => exact Or.inl rfl
  | some reply =>
    cases reply with
    | more => exact Or.inr rfl
    | item m' rest =>
      have hsame := (d.item_append s h).symm.trans hwhole
      rw [Option.some.injEq, Reply.item.injEq] at hsame
      exact (hs (List.append_eq_nil_iff.mp hsame.2).2).elim
    | bad e => cases (d.bad_append s h).symm.trans hwhole

end

/-! ## the channel -/

structure Channel (α μ : Type*) where
  /-- history: the items that were sent -/
  sent : List μ
  /-- bytes on their way -/
  wire : List α
  /-- bytes that have arrived -/
  buffer : List α
  /-- history: the items that were taken out -/
  received : List μ

inductive ChannelOp (μ : Type*) where
  | send (m : μ)
  /-- at most `n` bytes arrive -/
  | transfer (n : Nat)
  | receive

namespace Channel

def new : Channel α μ := ⟨[], [], [], []⟩

variable (d : Decoder α μ ε) (enc : μ → List α)

/-- `none`: the decoder has crashed or found an error -/
def step (c : Channel α μ) : ChannelOp μ → Option (Channel α μ)
  | .send m => some { c with sent := c.sent ++ [m], wire := c.wire ++ enc m }
  | .transfer n => some { c with wire := c.wire.drop n, buffer := c.buffer ++ c.wire.take n }
  | .receive =>
    match d.decode c.buffer with
    | some (.item m rest) => some { c with buffer := rest, received := c.received ++ [m] }
    | some .more => some c
    | some (.bad _) => none
    | none => none

/-- the machine: nothing happens on a channel that is lost -/
def next (s : Option (Channel α μ)) (op : ChannelOp μ) : Option (Channel α μ) := s.bind fun c => c.step d enc op

/-- what was sent and not received is what the stream holds -/
structure InTransit (Good : μ → Prop) (c : Channel α μ) (rest : List μ) : Prop where
  sent : c.sent = c.received ++ rest
  bytes : c.buffer ++ c.wire = rest.flatMap enc
  good : ∀ m ∈ rest, Good m

variable {d enc} {Good : μ → Prop} {c c' : Channel α μ} {rest : List μ}

theorem InTransit.send (h : c.InTransit enc Good rest) {m : μ} (hm : Good m) :
    ({ c with sent := c.sent ++ [m], wire := c.wire ++ enc m } : Channel α μ).InTransit enc Good (rest ++ [m]) := by
  refine ⟨?_, ?_, ?_⟩
  · rw [← List.append_assoc, ← h.sent]
  · rw [← List.append_assoc, h.bytes, List.flatMap_append, List.flatMap_singleton]
  · intro x hx
    rcases List.mem_append.mp hx with hx | hx
    · exact h.good x hx
    · rw [List.mem_singleton.mp hx]
      exact hm

theorem InTransit.transfer (h : c.InTransit enc Good rest) (n : Nat) :
    ({ c with wire := c.wire.drop n, buffer := c.buffer ++ c.wire.take n } : Channel α μ).InTransit enc Good rest := by
  refine ⟨h.sent, ?_, h.good⟩
  rw [List.append_assoc, List.take_append_drop]
  exact h.bytes

/-- the bytes of the next item have arrived -/
def Arrived (enc : μ → List α) (c : Channel α μ) (m : μ) : Prop := (enc m).length ≤ c.buffer.length

/-- they begin what has arrived -/
theorem InTransit.buffer_of_arrived {m : μ} (h : c.InTransit enc Good (m :: rest)) (ha : c.Arrived enc m) :
    c.buffer = enc m ++ c.buffer.drop (enc m).length := by
  have hbytes : c.buffer ++ c.wire = enc m ++ rest.flatMap enc := h.bytes
  have htake : c.buffer.take (enc m).length = enc m := by
    have h1 := congrArg (List.take (enc m).length) hbytes
    rw [List.take_append_of_le_length ha, List.take_append_of_le_length (Nat.le_refl _), List.take_length] at h1
    exact h1
  calc c.buffer = c.buffer.take (enc m).length ++ c.buffer.drop (enc m).length := (List.take_append_drop ..).symm
    _ = enc m ++ c.buffer.drop (enc m).length := by rw [htake]

/-- or what has arrived is a part of them -/
theorem InTransit.part_of_not_arrived {m : μ} (h : c.InTransit enc Good (m :: rest)) (ha : ¬ c.Arrived enc m) :
    ∃ s, s ≠ [] ∧ c.buffer ++ s = enc m := by
  have hbytes : c.buffer ++ c.wire = enc m ++ rest.flatMap enc := h.bytes
  have hlt : c.buffer.length < (enc m).length := Nat.not_le.mp ha
  refine ⟨(enc m).drop c.buffer.length, ?_, ?_⟩
  · intro hnil
    have hle := List.drop_eq_nil_iff.mp hnil
    omega
  · have h1 := congrArg (List.take c.buffer.length) hbytes
    rw [List.take_append_of_le_length (Nat.le_refl _), List.take_length,
      List.take_append_of_le_length (Nat.le_of_lt hlt)] at h1
    calc c.buffer ++ (enc m).drop c.buffer.length
        = (enc m).take c.buffer.length ++ (enc m).drop c.buffer.length := by rw [← h1]
      _ = enc m := List.take_append_drop ..

section
variable (he : Encodes d enc Good)
include he

/-- the next item is taken out as soon as its bytes are there -/
theorem InTransit.receive {m : μ} (h : c.InTransit enc Good (m :: rest)) (ha : c.Arrived enc m) :
    c.step d enc .receive
        = some { c with buffer := c.buffer.drop (enc m).length, received := c.received ++ [m] } ∧
      ({ c with buffer := c.buffer.drop (enc m).length, received := c.received ++ [m] } : Channel α μ).InTransit
        enc Good rest := by
  have hbuf := h.buffer_of_arrived ha
  refine ⟨?_, ?_, ?_, fun x hx => h.good x (List.mem_cons_of_mem _ hx)⟩
  · rw [step, hbuf, he.decode (h.good m List.mem_cons_self), ← hbuf]
  · rw [List.append_assoc, List.singleton_append]
    exact h.sent
  · have hbytes : c.buffer ++ c.wire = enc m ++ rest.flatMap enc := h.bytes
    rw [hbuf, List.append_assoc] at hbytes
    exact List.append_cancel_left hbytes

/-- nothing is taken out before -/
theorem InTransit.wait (h : c.InTransit enc Good rest) (hnone : ∀ m, rest.head? = some m → ¬ c.Arrived enc m) :
    c.step d enc .receive = if d.decode c.buffer = none then none else some c := by
  have hreply : d.decode c.buffer = none ∨ d.decode c.buffer = some .more := by
    cases rest with
    | nil =>
      have hnil : c.buffer = [] := (List.append_eq_nil_iff.mp h.bytes).1
      rw [hnil]
      exact Or.inr d.start
    | cons m rest =>
      obtain ⟨s, hs, hb⟩ := h.part_of_not_arrived (hnone m rfl)
      exact he.strict_prefix (h.good m List.mem_cons_self) hs hb
  rcases hreply with hreply | hreply
  · rw [step, hreply, if_pos rfl]
  · rw [step, hreply, if_neg nofun]

/-- **A call of the decoder** takes out the next item if its bytes are there; else the channel is lost, if the decoder
crashes on what is there, or nothing changes. -/
theorem step_receive (h : c.InTransit enc Good rest) :
    (∃ m rest', rest = m :: rest' ∧ c.Arrived enc m ∧ c.step d enc .receive
        = some { c with buffer := c.buffer.drop (enc m).length, received := c.received ++ [m] }) ∨
      (∀ m, rest.head? = some m → ¬ c.Arrived enc m) ∧
        c.step d enc .receive = if d.decode c.buffer = none then none else some c := by
  by_cases ha : ∃ m, rest.head? = some m ∧ c.Arrived enc m
  · obtain ⟨m, hm, ha⟩ := ha
    obtain ⟨rest', rfl⟩ := List.head?_eq_some_iff.mp hm
    exact Or.inl ⟨m, rest', rfl, ha, (h.receive he ha).1⟩
  · have hnone : ∀ m, rest.head? = some m → ¬ c.Arrived enc m := fun m hm h' => ha ⟨m, hm, h'⟩
    exact Or.inr ⟨hnone, h.wait he hnone⟩

/-- what is sent is good -/
theorem InTransit.step (h : c.InTransit enc Good rest) {op : ChannelOp μ} (hop : ∀ m, op = .send m → Good m)
    (hstep : c.step d enc op = some c') : ∃ rest', c'.InTransit enc Good rest' := by
  cases op with
  | send m =>
    cases hstep
    exact ⟨_, h.send (hop m rfl)⟩
  | transfer n =>
    cases hstep
    exact ⟨_, h.transfer n⟩
  | receive =>
    rcases step_receive he h with ⟨m, rest', rfl, ha, heq⟩ | ⟨-, heq⟩
    · cases heq.symm.trans hstep
      exact ⟨rest', (h.receive he ha).2⟩
    · rw [heq] at hstep
      split at hstep <;> cases hstep
      exact ⟨rest, h⟩

/-- **Every run** that does not lose the channel. -/
theorem inTransit_run {ops : List (ChannelOp μ)} (hops : ∀ m, .send m ∈ ops → Good m)
    (hrun : exec (next d enc) (some new) ops = some c) : ∃ rest, c.InTransit enc Good rest := by
  induction ops using List.reverseRecOn generalizing c with
  | nil =>
    cases hrun
    exact ⟨[], rfl, rfl, List.forall_mem_nil _⟩
  | append_singleton ops op ih =>
    rw [exec_snoc] at hrun
    obtain ⟨c₀, hc₀, hstep⟩ := Option.bind_eq_some_iff.mp hrun
    obtain ⟨rest, h⟩ := ih (fun m hm => hops m (List.mem_append_left _ hm)) hc₀
    refine h.step he ?_ hstep
    rintro m rfl
    exact hops m (List.mem_append_right _ List.mem_cons_self)

end

end Channel

end Framing
