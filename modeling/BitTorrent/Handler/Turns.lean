import BitTorrent.Handler.Poll
import BitTorrent.Lib.Pass

/-!
# The polling passes

`DiskManager::poll` goes over its active jobs, `BitTorrentHandler::poll` over its substreams, by index from the last
one down, with `swap_remove` and `push`.  Both are instances of `Pass.loop`, which records what has a turn.

* `pollActive_eq_loop`, `pollSubstreams_eq_loop`   the loops are those of the code;
* `polling_visits_once`                            every job and every substream has at most one turn a pass.
-/

namespace Btt
open Pass

/-- `Vec::swap_remove` -/
def swapRemoval {α : Type} : Removal α where
  take := DiskManager.swapRemove
  take_eq front behind a := DiskManager.swapRemove_append front behind a

/-! ## the active jobs -/

namespace DiskManager
variable {File World Err : Type} (fs : FileSystem File World Err)

/-- a job that is ready leaves the active ones, and ends the pass -/
def jobTurn (_ : Nat) (world : World) (job : BlockJob File) :
    Option (Option (BlockJob File) × Option (BlockJob File) × World) :=
  (job.poll fs world).map fun r =>
    match r with
    | (.ready _, job, world) => (none, some job, world)
    | (.pending, job, world) => (some job, none, world)

/-- the manager after the pass, and its answer for the job that was ready -/
def conclude (dm : DiskManager File World) (o : Outcome (BlockJob File) (BlockJob File) World) :
    Option DiskMessageOut × DiskManager File World :=
  match o.answer with
  | none => (none, { dm with activeBlocks := o.left, world := o.state })
  | some job =>
    let r := { dm with activeBlocks := o.left, world := o.state }.finalizeBlock job
    (some r.1, r.2)

variable {fs}

theorem jobTurn_eq_some {n : Nat} {w w' : World} {job : BlockJob File} {after finished : Option (BlockJob File)}
    (h : jobTurn fs n w job = some (after, finished, w')) :
    (finished = none ∧ after.isSome) ∨ (finished.isSome ∧ after = none) := by
  obtain ⟨⟨p, job', world⟩, -, heq⟩ := Option.map_eq_some_iff.mp h
  cases p with
  | ready r =>
    cases heq
    exact Or.inr ⟨rfl, rfl⟩
  | pending =>
    cases heq
    exact Or.inl ⟨rfl, rfl⟩

/-- the loop of the source is the recorded one -/
theorem pollActive_eq_loop (n : Nat) (dm : DiskManager File World) :
    pollActive fs n dm = (loop swapRemoval (jobTurn fs) n dm.activeBlocks dm.world).map dm.conclude := by
  induction n generalizing dm with
  | zero => rfl
  | succ n ih =>
    rw [pollActive, loop, show swapRemoval.take dm.activeBlocks n = swapRemove dm.activeBlocks n from rfl]
    cases swapRemove dm.activeBlocks n with
    | none => rfl
    | some taken =>
      obtain ⟨job, rest⟩ := taken
      simp only [jobTurn]
      cases job.poll fs dm.world with
      | none => rfl
      | some polled =>
        obtain ⟨p, job', world⟩ := polled
        cases p with
        | ready r =>
          show _ = some (dm.conclude ⟨_, some job', rest ++ [], world⟩)
          rw [List.append_nil]
          rfl
        | pending =>
          show pollActive fs n _ = Option.map dm.conclude (Option.map _ _)
          rw [ih, Option.map_map]
          rfl

theorem conclude_none {dm dm' : DiskManager File World} {o : Outcome (BlockJob File) (BlockJob File) World}
    (h : dm.conclude o = (none, dm')) : o.answer = none ∧ dm'.activeBlocks = o.left := by
  unfold conclude at h
  split at h
  · rename_i hanswer
    cases h
    exact ⟨hanswer, rfl⟩
  · cases h

theorem conclude_some {dm dm' : DiskManager File World} {o : Outcome (BlockJob File) (BlockJob File) World}
    {msg : DiskMessageOut} (h : dm.conclude o = (some msg, dm')) :
    ∃ job, o.answer = some job ∧ msg = answerOf job ∧ dm'.activeBlocks = o.left := by
  unfold conclude at h
  split at h
  · cases h
  · rename_i job hanswer
    rw [finalizeBlock_eq] at h
    cases h
    exact ⟨job, hanswer, rfl, rfl⟩

/-- The pass over the active jobs that answers `out` and leaves `dm'`, with a record `o` of its turns: the jobs up
to `unvisited` were polled, once each.  If none was ready, all of them were, and stay active as their polls left
them; otherwise the last one polled is the only one gone. -/
structure VisitsOnce (fs : FileSystem File World Err) (dm : DiskManager File World) (out : Option DiskMessageOut)
    (dm' : DiskManager File World) (o : Outcome (BlockJob File) (BlockJob File) World)
    (unvisited : List (BlockJob File)) : Prop where
  recorded : loop swapRemoval (jobTurn fs) dm.activeBlocks.length dm.activeBlocks dm.world = some o
  concluded : dm.conclude o = (out, dm')
  polled : Turned (jobTurn fs) dm.activeBlocks.length dm.world o.turns o.state
  once : dm.activeBlocks.reverse = o.turns.map Turn.before ++ unvisited
  noneReady : out = none → unvisited = [] ∧
    ∃ advanced, o.turns.map Turn.after = advanced.map some ∧ dm'.activeBlocks.Perm advanced
  ready : ∀ msg, out = some msg → ∃ waited job finished advanced,
    o.turns = waited ++ [⟨job, none, some finished⟩] ∧ msg = answerOf finished ∧
    waited.map Turn.after = advanced.map some ∧ dm'.activeBlocks.Perm (advanced ++ unvisited)

theorem exists_visitsOnce {dm dm' : DiskManager File World} {out : Option DiskMessageOut}
    (h : pollActive fs dm.activeBlocks.length dm = some (out, dm')) : ∃ o unvisited, dm.VisitsOnce fs out dm' o unvisited := by
  rw [pollActive_eq_loop] at h
  obtain ⟨o, ho, hconclude⟩ := Option.map_eq_some_iff.mp h
  obtain ⟨unvisited, hvisits⟩ := loop_visits _ [] (by rw [List.append_nil]; exact ho)
  have hleft := hvisits.left
  rw [List.append_nil] at hleft
  -- a turn without an answer leaves a job
  have hstays : ∀ t ∈ o.turns, t.answer = none → t.after.isSome := by
    intro t ht hanswer
    obtain ⟨k, w, w', hturn⟩ := hvisits.turned.of_mem ht
    rcases jobTurn_eq_some hturn with ⟨-, hafter⟩ | ⟨hready, -⟩
    · exact hafter
    · rw [hanswer] at hready
      cases hready
  refine ⟨o, unvisited, ho, hconclude, hvisits.turned, hvisits.order, ?_, ?_⟩
  · rintro rfl
    obtain ⟨hanswer, hactive⟩ := conclude_none hconclude
    obtain ⟨rfl, hquiet⟩ := hvisits.quiet hanswer
    refine ⟨rfl, _, map_after_eq fun t ht => hstays t ht (hquiet t ht), ?_⟩
    rw [hactive]
    rwa [List.append_nil] at hleft
  · rintro msg rfl
    obtain ⟨finished, hanswer, rfl, hactive⟩ := conclude_some hconclude
    obtain ⟨waited, last, hturns, hlast, hquiet⟩ := hvisits.answered finished hanswer
    have hafter : last.after = none := by
      obtain ⟨k, w, w', hturn⟩ := hvisits.turned.of_mem (t := last) (by rw [hturns]; simp)
      rcases jobTurn_eq_some hturn with ⟨hnone, -⟩ | ⟨-, hafter⟩
      · rw [hlast] at hnone
        cases hnone
      · exact hafter
    have hmap := map_after_eq fun t ht => hstays t (by rw [hturns]; exact List.mem_append_left _ ht) (hquiet t ht)
    obtain ⟨job, after, answer⟩ := last
    cases hafter
    cases hlast
    refine ⟨waited, job, finished, _, hturns, rfl, hmap, ?_⟩
    rw [hactive]
    rw [hturns, List.filterMap_append, List.filterMap_cons_none rfl, List.filterMap_nil, List.append_nil] at hleft
    exact hleft

theorem exists_poll_eq_none {dm : DiskManager File World} (h : pollActive fs dm.activeBlocks.length dm = none) :
    ∃ job ∈ dm.activeBlocks, ∃ w, job.poll fs w = none := by
  rw [pollActive_eq_loop, Option.map_eq_none_iff] at h
  obtain ⟨job, hjob, _, w, hturn⟩ := exists_turn_eq_none _ [] (by rw [List.append_nil]; exact h)
  exact ⟨job, hjob, w, Option.map_eq_none_iff.mp hturn⟩

end DiskManager

/-! ## the substreams -/

namespace BitTorrentHandler
variable {S U E V : Type} (io : BttStream S E) (clock : Nat → Instant)

/-- a substream is moved until it stays, ends or reports something -/
def settleTurn (n : Nat) (_ : Unit) (s : SubstreamState S U E V) :
    Option (Option (SubstreamState S U E V) × Option (ProtocolsHandlerEvent U E V) × Unit) :=
  (settle io (clock (n + 1)) s).map fun r => (r.1, r.2, ())

variable {io clock}

theorem pollSubstreams_eq_loop (n : Nat) (h : BitTorrentHandler S U E V) :
    pollSubstreams io clock n h
      = (loop swapRemoval (settleTurn io clock) n h.substreams ()).map fun o =>
        (o.answer, { h with substreams := o.left }) := by
  induction n generalizing h with
  | zero => rfl
  | succ n ih =>
    rw [loop, show swapRemoval.take h.substreams n = DiskManager.swapRemove h.substreams n from rfl]
    cases hswap : DiskManager.swapRemove h.substreams n with
    | none =>
      rw [pollSubstreams]
      simp only [hswap]
      rfl
    | some taken =>
      obtain ⟨s, rest⟩ := taken
      rw [pollSubstreams_succ hswap]
      simp only [settleTurn]
      cases settle io (clock (n + 1)) s with
      | none => rfl
      | some settled =>
        obtain ⟨s', event⟩ := settled
        cases event with
        | some event => rfl
        | none =>
          show pollSubstreams io clock n _ = Option.map _ (Option.map _ _)
          rw [ih, Option.map_map]
          rfl

theorem poll_eq_loop (h : BitTorrentHandler S U E V) :
    h.poll io clock = (loop swapRemoval (settleTurn io clock) h.substreams.length h.substreams ()).map fun o =>
      (o.answer, { h with
        substreams := o.left
        keepAlive := o.answer.elim (keptAfter clock o.left) fun _ => h.keepAlive }) := by
  rw [poll, pollSubstreams_eq_loop]
  cases loop swapRemoval (settleTurn io clock) h.substreams.length h.substreams () with
  | none => rfl
  | some o =>
    obtain ⟨turns, answer, left, u⟩ := o
    cases answer with
    | some e => rfl
    | none =>
      show (if left.isEmpty then _ else _) = some (none, { h with substreams := left, keepAlive := keptAfter clock left })
      rw [keptAfter]
      split <;> rfl

/-- The poll that reports `event` and leaves `h'`, with a record `o` of its turns: the substreams up to `unvisited`
were moved on, once each, from their own states.  All others stay as they were; the ones with a turn stay as it left
them, unless it ended them. -/
structure VisitsOnce (io : BttStream S E) (clock : Nat → Instant) (h : BitTorrentHandler S U E V)
    (event : Option (ProtocolsHandlerEvent U E V)) (h' : BitTorrentHandler S U E V)
    (o : Outcome (SubstreamState S U E V) (ProtocolsHandlerEvent U E V) Unit)
    (unvisited : List (SubstreamState S U E V)) : Prop where
  recorded : loop swapRemoval (settleTurn io clock) h.substreams.length h.substreams () = some o
  concluded : o.answer = event ∧ o.left = h'.substreams
  settled : ∀ t ∈ o.turns, ∃ k, settle io (clock k) t.before = some (t.after, t.answer)
  once : h.substreams.reverse = o.turns.map Turn.before ++ unvisited
  left : h'.substreams.Perm (o.turns.filterMap Turn.after ++ unvisited)
  quiet : event = none → unvisited = [] ∧ ∀ t ∈ o.turns, t.answer = none
  reported : ∀ e, event = some e → ∃ ts last, o.turns = ts ++ [last] ∧ last.answer = some e ∧ ∀ t ∈ ts, t.answer = none

theorem exists_visitsOnce {h h' : BitTorrentHandler S U E V} {event : Option (ProtocolsHandlerEvent U E V)}
    (hpoll : h.poll io clock = some (event, h')) : ∃ o unvisited, h.VisitsOnce io clock event h' o unvisited := by
  rw [poll_eq_loop] at hpoll
  obtain ⟨o, ho, heq⟩ := Option.map_eq_some_iff.mp hpoll
  cases heq
  obtain ⟨unvisited, hvisits⟩ := loop_visits _ [] (by rw [List.append_nil]; exact ho)
  refine ⟨o, unvisited, ho, ⟨rfl, rfl⟩, ?_, hvisits.order, ?_, hvisits.quiet, hvisits.answered⟩
  · rintro ⟨before, after, answer⟩ ht
    obtain ⟨k, _, _, hturn⟩ := hvisits.turned.of_mem ht
    obtain ⟨r, hr, heq⟩ := Option.map_eq_some_iff.mp hturn
    cases heq
    exact ⟨k + 1, hr⟩
  · have hperm := hvisits.left
    rwa [List.append_nil] at hperm

theorem exists_settle_eq_none {h : BitTorrentHandler S U E V} (hpoll : h.poll io clock = none) :
    ∃ s ∈ h.substreams, ∃ k, settle io (clock k) s = none := by
  rw [poll_eq_loop, Option.map_eq_none_iff] at hpoll
  obtain ⟨s, hs, k, _, hturn⟩ := exists_turn_eq_none _ [] (by rw [List.append_nil]; exact hpoll)
  exact ⟨s, hs, k + 1, Option.map_eq_none_iff.mp hturn⟩

end BitTorrentHandler

/-- **A polling pass visits each element once**: the pass of the disk manager over its active jobs, and that of a
handler over its substreams.  Neither panics but where an element does. -/
theorem polling_visits_once :
    (∀ {File World Err : Type} (fs : FileSystem File World Err) (dm dm' : DiskManager File World)
      (out : Option DiskMessageOut), dm.pollActive fs dm.activeBlocks.length = some (out, dm') →
      ∃ o unvisited, dm.VisitsOnce fs out dm' o unvisited) ∧
    (∀ {File World Err : Type} (fs : FileSystem File World Err) (dm : DiskManager File World),
      dm.pollActive fs dm.activeBlocks.length = none → ∃ job ∈ dm.activeBlocks, ∃ w, job.poll fs w = none) ∧
    (∀ {S U E V : Type} (io : BttStream S E) (clock : Nat → Instant) (h h' : BitTorrentHandler S U E V)
      (event : Option (ProtocolsHandlerEvent U E V)), h.poll io clock = some (event, h') →
      ∃ o unvisited, h.VisitsOnce io clock event h' o unvisited) ∧
    (∀ {S U E V : Type} (io : BttStream S E) (clock : Nat → Instant) (h : BitTorrentHandler S U E V),
      h.poll io clock = none → ∃ s ∈ h.substreams, ∃ k, settle io (clock k) s = none) :=
  ⟨fun _ _ _ _ h => DiskManager.exists_visitsOnce h, fun _ _ h => DiskManager.exists_poll_eq_none h,
    fun _ _ _ _ _ h => BitTorrentHandler.exists_visitsOnce h, fun _ _ _ h => BitTorrentHandler.exists_settle_eq_none h⟩

end Btt
