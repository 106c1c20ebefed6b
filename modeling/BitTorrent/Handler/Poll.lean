import BitTorrent.Disk.Moves
import BitTorrent.Handler.Handler

/-!
# What a poll of the handler does

* `settle_eq`        the inner loop of `poll` ends: `settle` satisfies its equation;
* `Settles`          everything a substream can do within one poll;
* `scan`             a poll without the swaps: the substreams above the one that reports are settled, those below are
                     left alone;
* `Quiet`            no substream has something to report; the scan comes to a substream if those behind it are quiet;
* `poll_eq_scan`     the poll is the scan, up to the order of the substreams.
-/

namespace Btt
open Run

variable {S U E V : Type}

namespace SubstreamState

/-- the number of an inbound substream -/
def inId : SubstreamState S U E V → Option Nat
  | .inWaitingMessage id _ => some id
  | .inWaitingUser id _ => some id
  | .inPendingSend id _ _ => some id
  | .inPendingFlush id _ => some id
  | _ => none

/-- the data of the request that a substream still has to report about -/
def userData : SubstreamState S U E V → Option U
  | .outPendingOpen _ userData => userData
  | .outPendingSend _ _ userData => userData
  | .outPendingFlush _ userData => userData
  | .outWaitingAnswer _ userData _ => some userData
  | .outReportError _ userData => some userData
  | _ => none

/-- an inbound substream has nothing to report about -/
theorem userData_of_inId {s : SubstreamState S U E V} {id : Nat} (h : s.inId = some id) : s.userData = none := by
  cases s <;> first | rfl | cases h

/-- the message was handed to the behaviour -/
def isWaitingUser : SubstreamState S U E V → Bool
  | .inWaitingUser _ _ => true
  | _ => false

/-- the swarm has not been asked for the substream yet -/
def isUnopened : SubstreamState S U E V → Bool
  | .outPendingOpen _ _ => true
  | _ => false

/-- the message the substream reads if it is polled now -/
def next (io : BttStream S E) : SubstreamState S U E V → Option PeerMessage
  | .outWaitingAnswer stream _ _ =>
    match (io.pollNext stream).1 with
    | .ready (some (.ok msg)) => some msg
    | _ => none
  | .inWaitingMessage _ stream =>
    match (io.pollNext stream).1 with
    | .ready (some (.ok msg)) => some msg
    | _ => none
  | _ => none

end SubstreamState

open BitTorrentHandler

/-! ## one move -/

/-- `t` is `s` further on: the same substream, with the same data to report about -/
structure Continues (s t : SubstreamState S U E V) : Prop where
  inId : t.inId = s.inId
  userData : t.userData = s.userData
  waiting : t.isWaitingUser = s.isWaitingUser
  opened : t.isUnopened = false

/-- everything a move of a substream can do; `again` says that it is moved once more -/
inductive Advances (io : BttStream S E) (now : Instant) :
    SubstreamState S U E V → Option (SubstreamState S U E V) → Option (ProtocolsHandlerEvent U E V) → Bool → Prop
  | opens {msg userData} :
      Advances io now (.outPendingOpen msg userData) none (some (.outboundSubstreamRequest (msg, userData))) false
  | again {s t} (hc : Continues s t) (hread : s.next io = none) (hlt : t.moves < s.moves) :
      Advances io now s (some t) none true
  | stays {s t} (hc : Continues s t) (hread : s.next io = none) : Advances io now s (some t) none false
  | closes {s} (hdata : s.userData = none) (hwait : s.isWaitingUser = false) (hread : s.next io = none) :
      Advances io now s none none false
  | fails {s u err} (hid : s.inId = none) (hdata : s.userData = some u) (hread : s.next io = none) :
      Advances io now s none (some (.custom (.torrentErr err (some u)))) false
  | answered {s u msg event stream} (hid : s.inId = none) (hdata : s.userData = some u) (hread : s.next io = some msg)
      (hevent : processBttOut msg u = some event) :
      Advances io now s (some (.outClosing stream)) (some (.custom event)) true
  | delivered {s id msg event stream} (hid : s.inId = some id) (hwait : s.isWaitingUser = false)
      (hread : s.next io = some msg) (hevent : processBttIn now msg id = some event) :
      Advances io now s (some (.inWaitingUser id stream)) (some (.custom event)) false

section
variable {io : BttStream S E} {now : Instant} {s t : SubstreamState S U E V}

/-- an error of the stream ends the substream, with an event if there is data to report -/
theorem advances_reportIo (err : E) (hid : s.inId = none) (hwait : s.isWaitingUser = false) (hread : s.next io = none) :
    Advances io now s none (reportIo err s.userData) false := by
  cases hdata : s.userData with
  | none => exact .closes hdata hwait hread
  | some u => exact .fails hid hdata hread

theorem advance_cases {s' : Option (SubstreamState S U E V)} {event : Option (ProtocolsHandlerEvent U E V)}
    {again : Bool} (h : advanceSubstream io now s = some (s', event, again)) : Advances io now s s' event again := by
  cases s with
  | outPendingOpen msg userData =>
    cases h
    exact .opens
  | outPendingSend stream msg userData =>
    simp only [advanceSubstream] at h
    split at h
    · split at h <;> cases h
      · exact .again ⟨rfl, rfl, rfl, rfl⟩ rfl (by simp [SubstreamState.moves])
      · exact advances_reportIo (s := .outPendingSend stream msg userData) _ rfl rfl rfl
    · cases h
      exact .stays ⟨rfl, rfl, rfl, rfl⟩ rfl
    · cases h
      exact advances_reportIo (s := .outPendingSend stream msg userData) _ rfl rfl rfl
  | outPendingFlush stream userData =>
    simp only [advanceSubstream] at h
    split at h
    · split at h <;> cases h <;> exact .again ⟨rfl, rfl, rfl, rfl⟩ rfl (by simp [SubstreamState.moves])
    · cases h
      exact .stays ⟨rfl, rfl, rfl, rfl⟩ rfl
    · cases h
      exact advances_reportIo (s := .outPendingFlush stream userData) _ rfl rfl rfl
  | outWaitingAnswer stream userData since =>
    simp only [advanceSubstream] at h
    split at h <;> rename_i hnext
    · obtain ⟨event, hevent, h⟩ := Option.map_eq_some_iff.mp h
      cases h
      exact .answered rfl rfl (by rw [SubstreamState.next, hnext]) hevent
    · cases h
      exact .stays ⟨rfl, rfl, rfl, rfl⟩ (by rw [SubstreamState.next, hnext])
    · cases h
      exact .fails rfl rfl (by rw [SubstreamState.next, hnext])
    · cases h
      exact .fails rfl rfl (by rw [SubstreamState.next, hnext])
  | outReportError error userData =>
    cases h
    exact .fails rfl rfl rfl
  | outClosing stream =>
    simp only [advanceSubstream] at h
    split at h <;> cases h
    · exact .closes rfl rfl rfl
    · exact .stays ⟨rfl, rfl, rfl, rfl⟩ rfl
  | inWaitingMessage id stream =>
    simp only [advanceSubstream] at h
    split at h <;> rename_i hnext
    · obtain ⟨event, hevent, h⟩ := Option.map_eq_some_iff.mp h
      cases h
      exact .delivered rfl rfl (by rw [SubstreamState.next, hnext]) hevent
    · cases h
      exact .stays ⟨rfl, rfl, rfl, rfl⟩ (by rw [SubstreamState.next, hnext])
    · cases h
      exact .closes rfl rfl (by rw [SubstreamState.next, hnext])
    · cases h
      exact .closes rfl rfl (by rw [SubstreamState.next, hnext])
  | inWaitingUser id stream =>
    cases h
    exact .stays ⟨rfl, rfl, rfl, rfl⟩ rfl
  | inPendingSend id stream msg =>
    simp only [advanceSubstream] at h
    split at h
    · split at h <;> cases h
      · exact .again ⟨rfl, rfl, rfl, rfl⟩ rfl (by simp [SubstreamState.moves])
      · exact .closes rfl rfl rfl
    · cases h
      exact .stays ⟨rfl, rfl, rfl, rfl⟩ rfl
    · cases h
      exact .closes rfl rfl rfl
  | inPendingFlush id stream =>
    simp only [advanceSubstream] at h
    split at h <;> cases h
    · exact .again ⟨rfl, rfl, rfl, rfl⟩ rfl (by simp [SubstreamState.moves])
    · exact .stays ⟨rfl, rfl, rfl, rfl⟩ rfl
    · exact .closes rfl rfl rfl
  | inClosing stream =>
    simp only [advanceSubstream] at h
    split at h <;> cases h
    · exact .closes rfl rfl rfl
    · exact .stays ⟨rfl, rfl, rfl, rfl⟩ rfl

/-- only a `Port` panics -/
theorem advance_none (h : advanceSubstream io now s = none) : ∃ port, s.next io = some (.port port) := by
  cases s with
  | outWaitingAnswer stream userData since =>
    simp only [advanceSubstream] at h
    split at h <;> rename_i hnext
    · rename_i msg _
      have hout := Option.map_eq_none_iff.mp h
      cases msg with
      | port port => exact ⟨port, by rw [SubstreamState.next, hnext]⟩
      | _ => cases hout
    all_goals cases h
  | inWaitingMessage id stream =>
    simp only [advanceSubstream] at h
    split at h <;> rename_i hnext
    · rename_i msg _
      have hin := Option.map_eq_none_iff.mp h
      cases msg with
      | port port => exact ⟨port, by rw [SubstreamState.next, hnext]⟩
      | _ => cases hin
    all_goals cases h
  | outPendingSend stream msg userData =>
    simp only [advanceSubstream] at h
    split at h
    · split at h <;> cases h
    all_goals cases h
  | outPendingFlush stream userData =>
    simp only [advanceSubstream] at h
    split at h
    · split at h <;> cases h
    all_goals cases h
  | inPendingSend id stream msg =>
    simp only [advanceSubstream] at h
    split at h
    · split at h <;> cases h
    all_goals cases h
  | outClosing stream =>
    simp only [advanceSubstream] at h
    split at h <;> cases h
  | inPendingFlush id stream =>
    simp only [advanceSubstream] at h
    split at h <;> cases h
  | inClosing stream =>
    simp only [advanceSubstream] at h
    split at h <;> cases h
  | _ => cases h

/-! ## the inner loop -/

theorem moves_pos (s : SubstreamState S U E V) : 0 < s.moves := by
  cases s <;> simp [SubstreamState.moves]

/-- a substream that is moved again has fewer moves left -/
theorem moves_lt_of_again (h : advanceSubstream io now s = some (some t, none, true)) : t.moves < s.moves := by
  cases advance_cases h with
  | again hc hread hlt => exact hlt

/-- more turns than there are moves make no difference -/
theorem advanceWhile_of_le {n : Nat} (h : s.moves ≤ n) : advanceWhile io now n s = settle io now s := by
  have hboth : ∀ k m (s : SubstreamState S U E V), s.moves ≤ k → s.moves ≤ m →
      advanceWhile io now k s = advanceWhile io now m s := by
    intro k
    induction k with
    | zero =>
      intro m s hk _
      exact absurd hk (Nat.not_le.mpr (moves_pos s))
    | succ k ih =>
      intro m s hk hm
      cases m with
      | zero => exact absurd hm (Nat.not_le.mpr (moves_pos s))
      | succ m =>
        rw [advanceWhile, advanceWhile]
        split
        · rfl
        · rename_i t ht
          have hlt := moves_lt_of_again ht
          exact ih m t (by omega) (by omega)
        · rfl
  exact hboth n s.moves s h (Nat.le_refl _)

/-- **The inner loop of `poll`**: a substream that moved on without an event is moved again, everything else ends the
loop. -/
theorem settle_eq (s : SubstreamState S U E V) :
    settle io now s = (advanceSubstream io now s).bind fun r =>
      if r.2.1.isNone = true ∧ r.2.2 = true then r.1.elim (some (none, none)) (settle io now) else some (r.1, r.2.1) := by
  rw [← advanceWhile_of_le (Nat.le_succ s.moves), advanceWhile]
  cases h : advanceSubstream io now s with
  | none => rfl
  | some r =>
    obtain ⟨s', event, again⟩ := r
    cases event with
    | some event => cases s' <;> rfl
    | none =>
      cases again with
      | false => cases s' <;> rfl
      | true =>
        cases s' with
        | none => rfl
        | some t => exact advanceWhile_of_le (Nat.le_of_lt (moves_lt_of_again h))

end

/-! ## the moves of one poll -/

/-- everything a substream can do in one poll: go on quietly, end quietly, ask for its opening, report an error, report
an answer, or deliver a message of the remote -/
inductive Settles (now : Instant) :
    SubstreamState S U E V → Option (SubstreamState S U E V) → Option (ProtocolsHandlerEvent U E V) →
      Option PeerMessage → Prop
  | stays {s t} (hc : Continues s t) : Settles now s (some t) none none
  | closes {s} (hdata : s.userData = none) (hwait : s.isWaitingUser = false) : Settles now s none none none
  | opens {msg userData} :
      Settles now (.outPendingOpen msg userData) none (some (.outboundSubstreamRequest (msg, userData))) none
  | fails {s u err} (hid : s.inId = none) (hdata : s.userData = some u) :
      Settles now s none (some (.custom (.torrentErr err (some u)))) none
  | answered {s u msg event stream} (hid : s.inId = none) (hdata : s.userData = some u)
      (hevent : processBttOut msg u = some event) :
      Settles now s (some (.outClosing stream)) (some (.custom event)) (some msg)
  | delivered {s id msg event stream} (hid : s.inId = some id) (hwait : s.isWaitingUser = false)
      (hevent : processBttIn now msg id = some event) :
      Settles now s (some (.inWaitingUser id stream)) (some (.custom event)) (some msg)

/-- the message a substream reads within `n` moves of one poll -/
def hearsWithin (io : BttStream S E) (now : Instant) : Nat → SubstreamState S U E V → Option PeerMessage
  | 0, _ => none
  | n + 1, s =>
    match s.next io, advanceSubstream io now s with
    | some msg, _ => some msg
    | none, some (some t, none, true) => hearsWithin io now n t
    | none, _ => none

/-- the message a substream reads in one poll -/
def hears (io : BttStream S E) (now : Instant) (s : SubstreamState S U E V) : Option PeerMessage :=
  hearsWithin io now s.moves s

section
variable {io : BttStream S E} {now : Instant} {s t : SubstreamState S U E V}

/-- a substream that goes on does in the end what the new state does -/
theorem Settles.continues {s' : Option (SubstreamState S U E V)} {event : Option (ProtocolsHandlerEvent U E V)}
    {msg : Option PeerMessage} (h : Settles now t s' event msg) (hc : Continues s t) : Settles now s s' event msg := by
  cases h with
  | stays hc' => exact .stays ⟨hc'.inId.trans hc.inId, hc'.userData.trans hc.userData, hc'.waiting.trans hc.waiting, hc'.opened⟩
  | closes hdata hwait => exact .closes (hc.userData.symm.trans hdata) (hc.waiting.symm.trans hwait)
  | opens => cases hc.opened
  | fails hid hdata => exact .fails (hc.inId.symm.trans hid) (hc.userData.symm.trans hdata)
  | answered hid hdata hevent => exact .answered (hc.inId.symm.trans hid) (hc.userData.symm.trans hdata) hevent
  | delivered hid hwait hevent => exact .delivered (hc.inId.symm.trans hid) (hc.waiting.symm.trans hwait) hevent

theorem advanceWhile_settles {n : Nat} {s' : Option (SubstreamState S U E V)}
    {event : Option (ProtocolsHandlerEvent U E V)} (hn : s.moves ≤ n)
    (h : advanceWhile io now n s = some (s', event)) : Settles now s s' event (hearsWithin io now n s) := by
  induction n generalizing s with
  | zero => exact absurd hn (Nat.not_le.mpr (moves_pos s))
  | succ n ih =>
    rw [advanceWhile] at h
    rw [hearsWithin]
    cases hadv : advanceSubstream io now s with
    | none =>
      rw [hadv] at h
      cases h
    | some r =>
      obtain ⟨r, ev, again⟩ := r
      rw [hadv] at h
      cases advance_cases hadv with
      | opens =>
        cases h
        exact .opens
      | again hc hread hlt =>
        rw [hread]
        exact (ih (by omega) h).continues hc
      | stays hc hread =>
        cases h
        rw [hread]
        exact .stays hc
      | closes hdata hwait hread =>
        cases h
        rw [hread]
        exact .closes hdata hwait
      | fails hid hdata hread =>
        cases h
        rw [hread]
        exact .fails hid hdata
      | answered hid hdata hread hevent =>
        cases h
        rw [hread]
        exact .answered hid hdata hevent
      | delivered hid hwait hread hevent =>
        cases h
        rw [hread]
        exact .delivered hid hwait hevent

/-- **What a substream does in one poll.** -/
theorem settle_cases {s' : Option (SubstreamState S U E V)} {event : Option (ProtocolsHandlerEvent U E V)}
    (h : settle io now s = some (s', event)) : ∃ msg, hears io now s = msg ∧ Settles now s s' event msg :=
  ⟨_, rfl, advanceWhile_settles (Nat.le_refl _) h⟩

theorem advanceWhile_none {n : Nat} (h : advanceWhile io now n s = none) :
    ∃ port, hearsWithin io now n s = some (.port port) := by
  induction n generalizing s with
  | zero => cases h
  | succ n ih =>
    rw [advanceWhile] at h
    rw [hearsWithin]
    split at h
    · rename_i hadv
      obtain ⟨port, hport⟩ := advance_none hadv
      exact ⟨port, by rw [hport]⟩
    · rename_i t hadv
      cases advance_cases hadv with
      | again hc hread hlt =>
        rw [hread, hadv]
        exact ih h
    · cases h

/-- a poll panics on a substream only if that reads a `Port` -/
theorem settle_none (h : settle io now s = none) : ∃ port, hears io now s = some (.port port) := advanceWhile_none h

end

/-! ## the reverse loop -/

/-- the substream that reports, when it is advanced, what is left of it, and its event -/
structure Report (S U E V : Type) where
  source : SubstreamState S U E V
  now : Instant
  left : Option (SubstreamState S U E V)
  event : ProtocolsHandlerEvent U E V

/-- a poll of the substreams number `k`, `k + 1`, ...: the last one that has something to report does so, those after
it are settled -/
def scan (io : BttStream S E) (clock : Nat → Instant) :
    Nat → List (SubstreamState S U E V) → Option (Option (Report S U E V) × List (SubstreamState S U E V))
  | _, [] => some (none, [])
  | k, s :: l =>
    match scan io clock (k + 1) l with
    | none => none
    | some (some report, l) => some (some report, s :: l)
    | some (none, l) =>
      match settle io (clock (k + 1)) s with
      | none => none
      | some (s', some event) => some (some ⟨s, clock (k + 1), s', event⟩, s'.toList ++ l)
      | some (s', none) => some (none, s'.toList ++ l)

section
variable {io : BttStream S E} {clock : Nat → Instant}

/-- the substream that reports stands somewhere, those after it had nothing to say -/
theorem scan_report {k : Nat} {l l' : List (SubstreamState S U E V)} {report : Report S U E V}
    (h : scan io clock k l = some (some report, l')) :
    ∃ pre post rest, l = pre ++ report.source :: post ∧ l' = pre ++ (report.left.toList ++ rest) ∧
      settle io report.now report.source = some (report.left, some report.event) ∧
      scan io clock (k + pre.length + 1) post = some (none, rest) ∧ report.now = clock (k + pre.length + 1) := by
  induction l generalizing k l' with
  | nil => cases h
  | cons s l ih =>
    rw [scan] at h
    split at h
    · cases h
    · rename_i report' l1 hl
      cases h
      obtain ⟨pre, post, rest, rfl, rfl, hs, hpost, hnow⟩ := ih hl
      have hk : k + 1 + pre.length + 1 = k + (s :: pre).length + 1 := by
        rw [List.length_cons]
        omega
      rw [hk] at hpost hnow
      exact ⟨s :: pre, post, rest, rfl, rfl, hs, hpost, hnow⟩
    · rename_i l1 hl
      split at h
      · cases h
      · rename_i s' event hs
        cases h
        exact ⟨[], l, l1, rfl, rfl, hs, hl, rfl⟩
      · cases h

end

/-- what becomes of the substreams number `k`, `k + 1`, ... in a poll that reaches them all -/
def Settling (P : Option (Option (SubstreamState S U E V) × Option (ProtocolsHandlerEvent U E V)) → Prop)
    (io : BttStream S E) (clock : Nat → Instant) (k : Nat) (l : List (SubstreamState S U E V)) : Prop :=
  ∀ i s, l[i]? = some s → P (settle io (clock (k + i + 1)) s)

/-- none of them has something to report -/
def Quiet (io : BttStream S E) (clock : Nat → Instant) (k : Nat) (l : List (SubstreamState S U E V)) : Prop :=
  Settling (fun r => ∃ s', r = some (s', none)) io clock k l

/-- and all of them are over -/
def Finished (io : BttStream S E) (clock : Nat → Instant) (k : Nat) (l : List (SubstreamState S U E V)) : Prop :=
  Settling (fun r => r = some (none, none)) io clock k l

section
variable {io : BttStream S E} {clock : Nat → Instant} {k : Nat} {s : SubstreamState S U E V}
  {pre l l' : List (SubstreamState S U E V)}

theorem settling_cons {P : Option (Option (SubstreamState S U E V) × Option (ProtocolsHandlerEvent U E V)) → Prop} :
    Settling P io clock k (s :: l) ↔ P (settle io (clock (k + 1)) s) ∧ Settling P io clock (k + 1) l := by
  have hk : ∀ i, k + (i + 1) + 1 = k + 1 + i + 1 := by omega
  constructor
  · intro h
    refine ⟨h 0 s rfl, fun i t ht => ?_⟩
    rw [← hk]
    exact h (i + 1) t ht
  · rintro ⟨hs, hl⟩ i t ht
    cases i with
    | zero =>
      cases ht
      exact hs
    | succ i =>
      rw [hk]
      exact hl i t ht

theorem settling_nil {P : Option (Option (SubstreamState S U E V) × Option (ProtocolsHandlerEvent U E V)) → Prop} :
    Settling P io clock k [] := by
  intro i s hs
  cases hs

/-- a poll reaches all substreams and reports nothing exactly if none has something to report -/
theorem scan_of_quiet (h : Quiet io clock k l) : ∃ l', scan io clock k l = some (none, l') := by
  induction l generalizing k with
  | nil => exact ⟨[], rfl⟩
  | cons s l ih =>
    obtain ⟨⟨s', hs⟩, hl⟩ := settling_cons.mp h
    obtain ⟨l', hscan⟩ := ih hl
    exact ⟨s'.toList ++ l', by simp only [scan, hscan, hs]⟩

theorem quiet_of_scan (h : scan io clock k l = some (none, l')) :
    Quiet io clock k l ∧ (Finished io clock k l ↔ l' = []) := by
  induction l generalizing k l' with
  | nil =>
    cases h
    exact ⟨settling_nil, fun _ => rfl, fun _ => settling_nil⟩
  | cons s l ih =>
    rw [scan] at h
    split at h
    · cases h
    · cases h
    · rename_i rest hl
      split at h
      · cases h
      · cases h
      · rename_i s' hs
        cases h
        obtain ⟨hquiet, hfin⟩ := ih hl
        refine ⟨settling_cons.mpr ⟨⟨s', hs⟩, hquiet⟩, ?_⟩
        rw [List.append_eq_nil_iff, ← hfin, Option.toList_eq_nil_iff]
        refine settling_cons.trans (and_congr_left fun _ => ?_)
        rw [hs]
        exact ⟨fun e => congrArg Prod.fst (Option.some.inj e), fun e => by rw [e]⟩

/-- the poll comes to a substream if those behind it have nothing to report -/
theorem scan_reached_none (hquiet : Quiet io clock (k + pre.length + 1) l)
    (hs : settle io (clock (k + pre.length + 1)) s = none) : scan io clock k (pre ++ s :: l) = none := by
  induction pre generalizing k with
  | nil =>
    rw [List.length_nil, Nat.add_zero] at hquiet hs
    obtain ⟨l', hscan⟩ := scan_of_quiet hquiet
    rw [List.nil_append, scan, hscan, hs]
  | cons t pre ih =>
    have hk : k + (t :: pre).length + 1 = k + 1 + pre.length + 1 := by
      rw [List.length_cons]
      omega
    rw [hk] at hquiet hs
    rw [List.cons_append, scan, ih hquiet hs]

theorem scan_reached_report {s' : Option (SubstreamState S U E V)} {event : ProtocolsHandlerEvent U E V}
    (hquiet : Quiet io clock (k + pre.length + 1) l)
    (hs : settle io (clock (k + pre.length + 1)) s = some (s', some event)) :
    ∃ rest, scan io clock k (pre ++ s :: l) = some (some ⟨s, clock (k + pre.length + 1), s', event⟩, rest) := by
  induction pre generalizing k with
  | nil =>
    rw [List.length_nil, Nat.add_zero] at hquiet hs ⊢
    obtain ⟨l', hscan⟩ := scan_of_quiet hquiet
    exact ⟨s'.toList ++ l', by rw [List.nil_append, scan, hscan, hs]⟩
  | cons t pre ih =>
    have hk : k + (t :: pre).length + 1 = k + 1 + pre.length + 1 := by
      rw [List.length_cons]
      omega
    rw [hk] at hquiet hs ⊢
    obtain ⟨rest, hscan⟩ := ih hquiet hs
    exact ⟨t :: rest, by rw [List.cons_append, scan, hscan]⟩

end

section
variable {io : BttStream S E} {clock : Nat → Instant}

/-- the last substreams come first -/
theorem scan_append (k : Nat) (a b : List (SubstreamState S U E V)) :
    scan io clock k (a ++ b) = (scan io clock (k + a.length) b).bind fun r =>
      r.1.elim ((scan io clock k a).map fun q => (q.1, q.2 ++ r.2)) fun report => some (some report, a ++ r.2) := by
  induction a generalizing k with
  | nil =>
    rw [List.nil_append, List.length_nil, Nat.add_zero]
    cases scan io clock k b with
    | none => rfl
    | some r => obtain ⟨_ | report, l⟩ := r <;> rfl
  | cons s a ih =>
    rw [List.cons_append, scan, ih, List.length_cons, show k + 1 + a.length = k + (a.length + 1) by omega]
    cases scan io clock (k + (a.length + 1)) b with
    | none => rfl
    | some r =>
      obtain ⟨_ | report, l⟩ := r
      · rw [Option.bind_some, Option.bind_some, Option.elim_none, Option.elim_none, scan]
        cases scan io clock (k + 1) a with
        | none => rfl
        | some q =>
          obtain ⟨_ | report, l'⟩ := q
          · simp only [Option.map_some]
            cases settle io (clock (k + 1)) s with
            | none => rfl
            | some x =>
              obtain ⟨s', _ | event⟩ := x
              · simp only [Option.map_some, List.append_assoc]
              · simp only [Option.map_some, List.append_assoc]
          · rfl
      · rfl

theorem scan_singleton (k : Nat) (s : SubstreamState S U E V) :
    scan io clock k [s] = (settle io (clock (k + 1)) s).map fun r =>
      (r.2.map fun event => ⟨s, clock (k + 1), r.1, event⟩, r.1.toList) := by
  rw [scan, scan]
  cases settle io (clock (k + 1)) s with
  | none => rfl
  | some r => obtain ⟨s', _ | event⟩ := r <;> simp

/-- the loop's first turn -/
theorem pollSubstreams_succ {n : Nat} {h : BitTorrentHandler S U E V} {s : SubstreamState S U E V}
    {rest : List (SubstreamState S U E V)} (hswap : DiskManager.swapRemove h.substreams n = some (s, rest)) :
    pollSubstreams io clock (n + 1) h = (settle io (clock (n + 1)) s).bind fun r =>
      r.2.elim (pollSubstreams io clock n { h with substreams := rest ++ r.1.toList }) fun event =>
        some (some event, { h with substreams := rest ++ r.1.toList }) := by
  rw [pollSubstreams]
  simp only [hswap]
  cases settle io (clock (n + 1)) s with
  | none => rfl
  | some r => obtain ⟨_ | s', _ | event⟩ := r <;> simp

/-- the loop over `pre`, with the substreams settled before behind it, is a scan of `pre` -/
theorem pollSubstreams_eq_scan (h : BitTorrentHandler S U E V) (pre done : List (SubstreamState S U E V)) :
    (scan io clock 0 pre = none →
      pollSubstreams io clock pre.length { h with substreams := pre ++ done } = none) ∧
    ∀ r l, scan io clock 0 pre = some (r, l) → ∃ l', l'.Perm (l ++ done) ∧
      pollSubstreams io clock pre.length { h with substreams := pre ++ done }
        = some (r.map Report.event, { h with substreams := l' }) := by
  induction pre using List.reverseRecOn generalizing done with
  | nil =>
    refine ⟨nofun, ?_⟩
    rintro r l ⟨⟩
    exact ⟨done, List.Perm.refl _, rfl⟩
  | append_singleton pre s ih =>
    obtain ⟨done', hperm, hswap⟩ := DiskManager.swapRemove_append pre done s
    rw [List.append_assoc, List.singleton_append, List.length_append, List.length_singleton, scan_append,
      scan_singleton, Nat.zero_add, pollSubstreams_succ hswap]
    cases settle io (clock (pre.length + 1)) s with
    | none => exact ⟨fun _ => rfl, fun r l h => by cases h⟩
    | some x =>
      obtain ⟨s', _ | event⟩ := x
      · -- nothing to report: the substream is put back at the end and the loop goes on below
        obtain ⟨hnone, hsome⟩ := ih (done' ++ s'.toList)
        rw [← List.append_assoc] at hnone hsome
        refine ⟨?_, ?_⟩
        · intro hscan
          exact hnone (Option.map_eq_none_iff.mp hscan)
        · intro r l hscan
          obtain ⟨q, hq, hrl⟩ := Option.map_eq_some_iff.mp hscan
          cases hrl
          obtain ⟨l', hl', hpoll⟩ := hsome q.1 q.2 hq
          refine ⟨l', hl'.trans ?_, hpoll⟩
          rw [List.append_assoc]
          exact (List.perm_append_comm.trans (hperm.append_left _)).append_left _
      · refine ⟨nofun, ?_⟩
        rintro r l ⟨⟩
        refine ⟨pre ++ done' ++ s'.toList, ?_, rfl⟩
        rw [List.append_assoc, List.append_assoc]
        exact (List.perm_append_comm.trans (hperm.append_left _)).append_left _

/-- how long a connection is kept after a poll that had nothing to report -/
def keptAfter (clock : Nat → Instant) (l : List (SubstreamState S U E V)) : KeepAlive :=
  if l.isEmpty then .until_ (clock 0 + idleTimeout) else .yes

/-- **A poll is a scan of the substreams**, up to their order: it panics if the scan does, it reports what the scan
reports, and it sets `keep_alive` exactly if there is nothing to report. -/
theorem poll_eq_scan (h : BitTorrentHandler S U E V) :
    (scan io clock 0 h.substreams = none → h.poll io clock = none) ∧
    ∀ r l, scan io clock 0 h.substreams = some (r, l) → ∃ l', l'.Perm l ∧
      h.poll io clock = some (r.map Report.event,
        { h with substreams := l', keepAlive := r.elim (keptAfter clock l) fun _ => h.keepAlive }) := by
  obtain ⟨hnone, hsome⟩ : (scan io clock 0 h.substreams = none → _) ∧ _ := pollSubstreams_eq_scan h h.substreams []
  rw [List.append_nil] at hnone hsome
  refine ⟨?_, ?_⟩
  · intro hscan
    rw [poll, hnone hscan]
  · intro r l hscan
    obtain ⟨l', hl', hpoll⟩ := hsome r l hscan
    rw [List.append_nil] at hl'
    refine ⟨l', hl', ?_⟩
    rw [poll, hpoll]
    cases r with
    | some report => rfl
    | none =>
      have hempty : l'.isEmpty = l.isEmpty := by
        rw [Bool.eq_iff_iff, List.isEmpty_iff, List.isEmpty_iff]
        exact ⟨fun e => List.nil_perm.mp (e ▸ hl'), fun e => List.perm_nil.mp (e ▸ hl')⟩
      simp only [Option.map_none, Option.elim_none, keptAfter, ← hempty]
      split <;> rfl

/-- the other way round: a poll that does not panic -/
theorem poll_some {h h' : BitTorrentHandler S U E V} {event : Option (ProtocolsHandlerEvent U E V)}
    (hpoll : h.poll io clock = some (event, h')) :
    ∃ r l l', scan io clock 0 h.substreams = some (r, l) ∧ l'.Perm l ∧ event = r.map Report.event ∧
      h' = { h with substreams := l', keepAlive := r.elim (keptAfter clock l) fun _ => h.keepAlive } := by
  obtain ⟨hnone, hsome⟩ : (scan io clock 0 h.substreams = none → _) ∧ _ := poll_eq_scan h
  cases hscan : scan io clock 0 h.substreams with
  | none => cases (hnone hscan).symm.trans hpoll
  | some x =>
    obtain ⟨r, l⟩ := x
    obtain ⟨l', hl', heq⟩ := hsome r l hscan
    cases heq.symm.trans hpoll
    exact ⟨r, l, l', rfl, hl', rfl, rfl⟩

/-! ## what a scan conserves -/

section
variable {X : Type} {f : SubstreamState S U E V → List X}

/-- substreams only lose what every one of them only loses -/
theorem scan_sublist (hf : ∀ now s s' event, settle io now s = some (s', event) → (s'.toList.flatMap f).Sublist (f s))
    {k : Nat} {l l' : List (SubstreamState S U E V)} {r : Option (Report S U E V)}
    (h : scan io clock k l = some (r, l')) : (l'.flatMap f).Sublist (l.flatMap f) := by
  induction l generalizing k l' r with
  | nil =>
    cases h
    exact List.Sublist.refl _
  | cons s l ih =>
    rw [scan] at h
    rw [List.flatMap_cons]
    split at h
    · cases h
    · rename_i report l1 hl
      cases h
      rw [List.flatMap_cons]
      exact (ih hl).append_left _
    · rename_i l1 hl
      split at h
      · cases h
      all_goals
        rename_i s' _ hs
        cases h
        rw [List.flatMap_append]
        exact (hf _ _ _ _ hs).append (ih hl)

/-- what quiet substreams keep comes and goes with the report only: `i` comes with it, `o` goes -/
theorem scan_conserves {i o : Report S U E V → List X}
    (hquiet : ∀ now s s', settle io now s = some (s', none) → s'.toList.flatMap f = f s)
    (hloud : ∀ now s s' event, settle io now s = some (s', some event) →
      (f s ++ i ⟨s, now, s', event⟩).Perm (s'.toList.flatMap f ++ o ⟨s, now, s', event⟩))
    {k : Nat} {l l' : List (SubstreamState S U E V)} {r : Option (Report S U E V)}
    (h : scan io clock k l = some (r, l')) :
    (l.flatMap f ++ r.elim [] i).Perm (l'.flatMap f ++ r.elim [] o) := by
  induction l generalizing k l' r with
  | nil =>
    cases h
    exact List.Perm.refl _
  | cons s l ih =>
    rw [scan] at h
    rw [List.flatMap_cons, List.append_assoc]
    split at h
    · cases h
    · rename_i report l1 hl
      cases h
      rw [List.flatMap_cons, List.append_assoc]
      exact (ih hl).append_left _
    · rename_i l1 hl
      have hrest : (l.flatMap f).Perm (l1.flatMap f) := by
        have h1 := ih hl
        rwa [Option.elim_none, Option.elim_none, List.append_nil, List.append_nil] at h1
      split at h
      · cases h
      · rename_i s' event hs
        cases h
        rw [Option.elim_some, Option.elim_some, List.flatMap_append, List.append_assoc]
        refine (List.perm_append_comm.append_left _).trans ?_
        rw [← List.append_assoc]
        refine ((hloud _ _ _ _ hs).append hrest).trans ?_
        rw [List.append_assoc]
        exact List.perm_append_comm.append_left _
      · rename_i s' hs
        cases h
        rw [Option.elim_none, Option.elim_none, List.append_nil, List.append_nil, List.flatMap_append, hquiet _ _ _ hs]
        exact hrest.append_left _

end

end

end Btt
