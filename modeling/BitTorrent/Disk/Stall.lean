import BitTorrent.Disk.Moves

/-!
# Jobs on a disk that does not move

The outer loop of `DiskManager::poll` goes round as long as jobs are active and nothing is answered.  The
file system `stalled` opens files and then never has data ready.

* `Safe`, `Unfinished`   a job that cannot slice out of range; one with a part that is not done;
* `BlockJob.poll_spec`   with any file system a safe job can be polled;
* `BlockJob.poll_stalled`   on the stalled one an unfinished job waits if it is safe, and panics if not;
* `pollActive_safe`, `pollActive_stalled`   the same for the loop over the active jobs.
-/

namespace Btt
open Run

/-! ## jobs -/

section
variable {File World Err : Type}

/-- files open, seeks succeed, and no data is ever read or written -/
def FileSystem.stalled (File World Err : Type) [Inhabited File] : FileSystem File World Err where
  pollOpenFile _ w := (.ready (.ok default), w)
  pollSeek f offset w := (.ready (.ok offset), f, w)
  pollReadBlock f _ w := (.pending, f, w)
  pollWriteBlock f _ w := (.pending, f, w)

/-- the slice a write takes of its data is in range -/
def BlockFileWrite.Safe (b : BlockFileWrite File) : Prop :=
  b.state ≠ .ready → b.written ≤ b.fileWindow.length ∧ b.fileWindow.length ≤ b.block.length

def BlockJob.Safe : BlockJob File → Prop
  | .write (.single _ b) => b.Safe
  | .write (.overlap _ _ bs) => ∀ b ∈ bs, b.Safe
  | .read _ => True

/-- some part of the job is not done -/
def BlockJob.Unfinished : BlockJob File → Prop
  | .read (.single _ b) => b.state ≠ .ready
  | .read (.overlap _ _ bs) => ∃ b ∈ bs, b.state ≠ .ready
  | .write (.single _ b) => b.state ≠ .ready
  | .write (.overlap _ _ bs) => ∃ b ∈ bs, b.state ≠ .ready

/-! ### any file system -/

section
variable (fs : FileSystem File World Err)

theorem BlockFileRead.unfinished_fill {b : BlockFileRead File} {w : World} (hb : b.state ≠ .ready)
    (h : (b.fill fs w).1 = .pending) : (b.fill fs w).2.1.state ≠ .ready := by
  unfold fill at h ⊢
  split at h
  · simp only at h
    split at h
    · simp only
      rw [if_pos ‹_›]
      exact hb
    · cases h
  · cases h
  · nofun

theorem BlockFileRead.unfinished_poll {b : BlockFileRead File} {w : World} (h : (b.poll fs w).1 = .pending) :
    (b.poll fs w).2.1.state ≠ .ready := by
  unfold poll at h ⊢
  cases hs : b.state with
  | ready =>
    rw [hs] at h
    cases h
  | process =>
    rw [hs] at h
    exact unfinished_fill fs (by rw [hs]; nofun) h
  | seek =>
    rw [hs] at h
    simp only at h ⊢
    split at h
    · exact unfinished_fill fs nofun h
    · nofun

theorem unfinished_pollReads {bs : List (BlockFileRead File)} {w : World} (h : (pollReads fs bs w).1 = false) :
    ∃ b ∈ (pollReads fs bs w).2.1, b.state ≠ .ready := by
  induction bs generalizing w with
  | nil => cases h
  | cons b bs ih =>
    rcases Bool.and_eq_false_iff.mp h with hb | hbs
    · have hb' : (b.poll fs w).1.isReady = false := hb
      have hp : (b.poll fs w).1 = .pending := by
        cases hp : (b.poll fs w).1 with
        | ready e =>
          rw [hp] at hb'
          cases hb'
        | pending => rfl
      exact ⟨_, List.mem_cons_self, BlockFileRead.unfinished_poll fs hp⟩
    · obtain ⟨c, hc, hstate⟩ := ih hbs
      exact ⟨c, List.mem_cons_of_mem _ hc, hstate⟩

theorem BlockFileWrite.unfinished_write {b b' : BlockFileWrite File} {w w' : World} (hb : b.state ≠ .ready)
    (h : b.write fs w = some (.pending, b', w')) : b'.state ≠ .ready := by
  unfold write at h
  split at h
  · split at h
    · simp only at h
      split at h <;> cases h
      exact hb
    · cases h
    · cases h
      nofun
  · cases h

theorem BlockFileWrite.unfinished_poll {b b' : BlockFileWrite File} {w w' : World}
    (h : b.poll fs w = some (.pending, b', w')) : b'.state ≠ .ready := by
  unfold poll at h
  cases hs : b.state with
  | ready =>
    rw [hs] at h
    cases h
  | process =>
    rw [hs] at h
    exact unfinished_write fs (by rw [hs]; nofun) h
  | seek =>
    rw [hs] at h
    simp only at h
    split at h
    · refine unfinished_write fs ?_ h
      nofun
    · cases h
    · cases h
      nofun

theorem unfinished_pollWrites {bs bs' : List (BlockFileWrite File)} {w w' : World}
    (h : pollWrites fs bs w = some (false, bs', w')) : ∃ b ∈ bs', b.state ≠ .ready := by
  induction bs generalizing w bs' with
  | nil => cases h
  | cons b bs ih =>
    obtain ⟨⟨p, b1, w1⟩, hb, h⟩ := Option.bind_eq_some_iff.mp h
    obtain ⟨⟨ready, bs1, w2⟩, hbs, h⟩ := Option.bind_eq_some_iff.mp h
    simp only [Option.some.injEq, Prod.mk.injEq] at h
    obtain ⟨hready, rfl, rfl⟩ := h
    rcases Bool.and_eq_false_iff.mp hready with hp | hr
    · cases p with
      | ready e => cases hp
      | pending => exact ⟨b1, List.mem_cons_self, BlockFileWrite.unfinished_poll fs hb⟩
    · rw [hr] at hbs
      obtain ⟨c, hc, hstate⟩ := ih hbs
      exact ⟨c, List.mem_cons_of_mem _ hc, hstate⟩

/-- a job that is pending has a part that is not done -/
theorem BlockJob.unfinished_poll {job job' : BlockJob File} {w w' : World}
    (h : job.poll fs w = some (.pending, job', w')) : job'.Unfinished := by
  have hready : ∀ {r : Bool}, (readyIf r : Poll (Except Err Unit)) = .pending → r = false := by
    intro r hr
    cases r with
    | false => rfl
    | true => cases hr
  unfold poll at h
  split at h
  · simp only [Option.some.injEq, Prod.mk.injEq] at h
    obtain ⟨hp, rfl, rfl⟩ := h
    exact BlockFileRead.unfinished_poll fs hp
  · simp only [Option.some.injEq, Prod.mk.injEq] at h
    obtain ⟨hp, rfl, rfl⟩ := h
    exact unfinished_pollReads fs (hready hp)
  · obtain ⟨⟨p1, b', w1⟩, hb, h⟩ := Option.bind_eq_some_iff.mp h
    cases h
    exact BlockFileWrite.unfinished_poll fs hb
  · obtain ⟨⟨ready, bs', w1⟩, hbs, h⟩ := Option.bind_eq_some_iff.mp h
    simp only [Option.some.injEq, Prod.mk.injEq] at h
    obtain ⟨hp, rfl, rfl⟩ := h
    rw [hready hp] at hbs
    exact unfinished_pollWrites fs hbs

theorem BlockFileWrite.write_spec {b : BlockFileWrite File} (hb : b.state ≠ .ready) (hsafe : b.Safe) (w : World) :
    ∃ p b' w', b.write fs w = some (p, b', w') ∧ b'.Safe := by
  obtain ⟨h1, h2⟩ := hsafe hb
  unfold write
  rw [if_pos ⟨h1, h2⟩]
  split
  · simp only
    split
    · rename_i hlt
      exact ⟨_, _, _, rfl, fun _ => ⟨Nat.le_of_lt hlt, h2⟩⟩
    · exact ⟨_, _, _, rfl, fun h => (h rfl).elim⟩
  · exact ⟨_, _, _, rfl, fun _ => ⟨h1, h2⟩⟩
  · exact ⟨_, _, _, rfl, fun _ => ⟨h1, h2⟩⟩

/-- a safe write can be polled, and stays safe -/
theorem BlockFileWrite.poll_spec {b : BlockFileWrite File} (hsafe : b.Safe) (w : World) :
    ∃ p b' w', b.poll fs w = some (p, b', w') ∧ b'.Safe := by
  unfold poll
  cases hs : b.state with
  | ready => exact ⟨_, _, _, rfl, hsafe⟩
  | process => exact write_spec fs (by rw [hs]; nofun) hsafe w
  | seek =>
    have hne : b.state ≠ .ready := by rw [hs]; nofun
    simp only
    split
    · rename_i inner w1 hseek
      let b1 : BlockFileWrite File := ⟨{ b.file with inner := inner }, b.written, b.block, b.fileWindow, .seek⟩
      have hsafe1 : b1.Safe := fun _ => hsafe hne
      exact b1.write_spec fs nofun hsafe1 w1
    · exact ⟨_, _, _, rfl, fun _ => hsafe hne⟩
    · exact ⟨_, _, _, rfl, fun _ => hsafe hne⟩

theorem pollWrites_spec {bs : List (BlockFileWrite File)} (hsafe : ∀ b ∈ bs, b.Safe) (w : World) :
    ∃ ready bs' w', pollWrites fs bs w = some (ready, bs', w') ∧ ∀ b ∈ bs', b.Safe := by
  induction bs generalizing w with
  | nil => exact ⟨_, _, _, rfl, hsafe⟩
  | cons b bs ih =>
    obtain ⟨p, b', w1, hb, hsafe'⟩ := BlockFileWrite.poll_spec fs (hsafe b List.mem_cons_self) w
    obtain ⟨ready, bs', w2, hbs, hsafes⟩ := ih (fun c hc => hsafe c (List.mem_cons_of_mem _ hc)) w1
    refine ⟨p.isReady && ready, b' :: bs', w2, ?_, ?_⟩
    · show (b.poll fs w).bind _ = _
      rw [hb, Option.bind_some]
      show (pollWrites fs bs w1).bind _ = _
      rw [hbs, Option.bind_some]
    · intro c hc
      rcases List.mem_cons.mp hc with rfl | hc
      · exact hsafe'
      · exact hsafes c hc

/-- a safe job can be polled and stays safe -/
theorem BlockJob.poll_spec {job : BlockJob File} (hsafe : job.Safe) (w : World) :
    ∃ p job' w', job.poll fs w = some (p, job', w') ∧ job'.Safe := by
  cases job with
  | read r => cases r <;> exact ⟨_, _, _, rfl, trivial⟩
  | write r =>
    cases r with
    | single m b =>
      obtain ⟨p, b', w', hb, hsafe'⟩ := BlockFileWrite.poll_spec (b := b) fs hsafe w
      refine ⟨p, .write (.single m b'), w', ?_, hsafe'⟩
      show (b.poll fs w).bind _ = _
      rw [hb, Option.bind_some]
    | overlap t m bs =>
      obtain ⟨ready, bs', w', hbs, hsafe'⟩ := pollWrites_spec fs hsafe w
      refine ⟨readyIf ready, .write (.overlap t m bs'), w', ?_, hsafe'⟩
      show (pollWrites fs bs w).bind _ = _
      rw [hbs, Option.bind_some]

end

/-! ### the stalled one -/

section
variable [Inhabited File]

theorem BlockFileRead.poll_stalled {b : BlockFileRead File} (hb : b.state ≠ .ready) (w : World) :
    (b.poll (FileSystem.stalled File World Err) w).1 = .pending := by
  unfold poll
  cases hs : b.state with
  | ready => exact (hb hs).elim
  | process => rfl
  | seek => rfl

theorem pollReads_stalled {bs : List (BlockFileRead File)} (hbs : ∃ b ∈ bs, b.state ≠ .ready) (w : World) :
    (pollReads (FileSystem.stalled File World Err) bs w).1 = false := by
  induction bs generalizing w with
  | nil =>
    obtain ⟨b, hb, -⟩ := hbs
    cases hb
  | cons b bs ih =>
    obtain ⟨c, hc, hstate⟩ := hbs
    rcases List.mem_cons.mp hc with rfl | hc
    · show (Poll.isReady (c.poll _ w).1 && _) = false
      rw [BlockFileRead.poll_stalled hstate]
      rfl
    · show (_ && (pollReads _ bs _).1) = false
      rw [ih ⟨c, hc, hstate⟩, Bool.and_false]

/-- an unfinished write waits, or its slice is out of range -/
theorem BlockFileWrite.poll_stalled {b : BlockFileWrite File} (hb : b.state ≠ .ready) (w : World) :
    b.poll (FileSystem.stalled File World Err) w
      = if b.written ≤ b.fileWindow.length ∧ b.fileWindow.length ≤ b.block.length then
          some (.pending, { b with state := .process }, w)
        else none := by
  unfold poll
  cases hs : b.state with
  | ready => exact (hb hs).elim
  | process => rfl
  | seek => rfl

theorem pollWrites_stalled {bs : List (BlockFileWrite File)} (hbs : ∃ b ∈ bs, b.state ≠ .ready) {w w' : World}
    {ready : Bool} {bs' : List (BlockFileWrite File)}
    (h : pollWrites (FileSystem.stalled File World Err) bs w = some (ready, bs', w')) : ready = false := by
  induction bs generalizing w ready bs' with
  | nil =>
    obtain ⟨b, hb, -⟩ := hbs
    cases hb
  | cons b bs ih =>
    obtain ⟨⟨p, b1, w1⟩, hb, h⟩ := Option.bind_eq_some_iff.mp h
    obtain ⟨⟨ready1, bs1, w2⟩, hrest, h⟩ := Option.bind_eq_some_iff.mp h
    cases h
    obtain ⟨c, hc, hstate⟩ := hbs
    rcases List.mem_cons.mp hc with rfl | hc
    · rw [BlockFileWrite.poll_stalled hstate] at hb
      split at hb <;> cases hb
      rfl
    · rw [ih ⟨c, hc, hstate⟩ hrest, Bool.and_false]

theorem pollWrites_panics {bs : List (BlockFileWrite File)} (hbs : ¬ ∀ b ∈ bs, b.Safe) (w : World) :
    pollWrites (FileSystem.stalled File World Err) bs w = none := by
  induction bs generalizing w with
  | nil => exact (hbs (by simp)).elim
  | cons b bs ih =>
    by_cases hsafe : b.Safe
    · have hrest : ¬ ∀ c ∈ bs, c.Safe := by
        intro hall
        refine hbs ?_
        intro c hc
        rcases List.mem_cons.mp hc with rfl | hc
        · exact hsafe
        · exact hall c hc
      obtain ⟨p, b', w1, hb, -⟩ := BlockFileWrite.poll_spec (FileSystem.stalled File World Err) hsafe w
      show (b.poll _ w).bind _ = none
      rw [hb, Option.bind_some]
      show (pollWrites _ bs w1).bind _ = none
      rw [ih hrest, Option.bind_none]
    · have hpanic : b.poll (FileSystem.stalled File World Err) w = none := by
        unfold BlockFileWrite.Safe at hsafe
        push Not at hsafe
        rw [BlockFileWrite.poll_stalled hsafe.1, if_neg fun h => Nat.not_le.mpr (hsafe.2 h.1) h.2]
      show (b.poll _ w).bind _ = none
      rw [hpanic, Option.bind_none]

/-- an unfinished job waits, or panics -/
theorem BlockJob.poll_stalled (Err : Type) {job : BlockJob File} (hu : job.Unfinished) (w : World) :
    (job.Safe → ∃ job' w', job.poll (FileSystem.stalled File World Err) w = some (.pending, job', w')) ∧
      (¬ job.Safe → job.poll (FileSystem.stalled File World Err) w = none) := by
  cases job with
  | read r =>
    refine ⟨fun _ => ?_, fun h => (h trivial).elim⟩
    cases r with
    | single m b =>
      have hpoll : (BlockJob.read (.single m b)).poll (FileSystem.stalled File World Err) w
          = some ((b.poll (FileSystem.stalled File World Err) w).1,
              .read (.single m (b.poll (FileSystem.stalled File World Err) w).2.1),
              (b.poll (FileSystem.stalled File World Err) w).2.2) := rfl
      rw [hpoll, BlockFileRead.poll_stalled hu]
      exact ⟨_, _, rfl⟩
    | overlap t m bs =>
      have hpoll : (BlockJob.read (.overlap t m bs)).poll (FileSystem.stalled File World Err) w
          = some (readyIf (pollReads (FileSystem.stalled File World Err) bs w).1,
              .read (.overlap t m (pollReads (FileSystem.stalled File World Err) bs w).2.1),
              (pollReads (FileSystem.stalled File World Err) bs w).2.2) := rfl
      rw [hpoll, pollReads_stalled hu]
      exact ⟨_, _, rfl⟩
  | write r =>
    cases r with
    | single m b =>
      have hpoll : (BlockJob.write (.single m b)).poll (FileSystem.stalled File World Err) w
          = (b.poll (FileSystem.stalled File World Err) w).bind fun r =>
              some (r.1, .write (.single m r.2.1), r.2.2) := rfl
      rw [hpoll, BlockFileWrite.poll_stalled hu]
      constructor
      · intro hsafe
        rw [if_pos (hsafe hu)]
        exact ⟨_, _, rfl⟩
      · intro hunsafe
        rw [if_neg fun h => hunsafe fun _ => h]
        rfl
    | overlap t m bs =>
      have hpoll : (BlockJob.write (.overlap t m bs)).poll (FileSystem.stalled File World Err) w
          = (pollWrites (FileSystem.stalled File World Err) bs w).bind fun r =>
              some (readyIf r.1, .write (.overlap t m r.2.1), r.2.2) := rfl
      rw [hpoll]
      constructor
      · intro hsafe
        obtain ⟨ready, bs', w', hbs, -⟩ := pollWrites_spec (FileSystem.stalled File World Err) hsafe w
        rw [hbs, pollWrites_stalled hu hbs]
        exact ⟨_, _, rfl⟩
      · intro hunsafe
        rw [pollWrites_panics hunsafe]
        rfl

end

end

/-! ## the loop over the active jobs -/

namespace DiskManager
variable {File World Err : Type}

/-- the elements in front of the one that is taken out stay in front, whatever is put back -/
theorem swapRemove_spec {α : Type} {l : List α} {i : Nat} (hi : i < l.length) :
    ∃ a rest, swapRemove l i = some (a, rest) ∧ l.take (i + 1) = l.take i ++ [a] ∧ rest.length + 1 = l.length ∧
      ∀ x, (rest ++ [x]).take i = l.take i := by
  have hl : l.take i ++ l[i] :: l.drop (i + 1) = l := by
    rw [List.cons_getElem_drop_succ, List.take_append_drop]
  have hlen : (l.take i).length = i := List.length_take_of_le (Nat.le_of_lt hi)
  obtain ⟨behind, -, htake⟩ := swapRemove_append (l.take i) (l.drop (i + 1)) l[i]
  rw [hl, hlen] at htake
  refine ⟨l[i], _, htake, List.take_succ_eq_append_getElem hi, ?_, ?_⟩
  · rw [(perm_swapRemove htake).length_eq, List.length_cons]
  · intro x
    rw [List.append_assoc]
    exact List.take_left' hlen

/-- nothing but the active jobs has changed, and there are as many of them -/
structure Idles (dm dm' : DiskManager File World) : Prop where
  queuedEvents : dm'.queuedEvents = dm.queuedEvents
  torrents : dm'.torrents = dm.torrents
  fileCache : dm'.fileCache = dm.fileCache
  activeBlocks : dm'.activeBlocks.length = dm.activeBlocks.length

theorem Idles.trans {a b c : DiskManager File World} (h : Idles a b) (h' : Idles b c) : Idles a c :=
  ⟨h'.queuedEvents.trans h.queuedEvents, h'.torrents.trans h.torrents, h'.fileCache.trans h.fileCache,
    h'.activeBlocks.trans h.activeBlocks⟩

/-- safe jobs can all be polled, with any file system -/
theorem pollActive_safe (fs : FileSystem File World Err) {i : Nat} {dm : DiskManager File World}
    (hi : i ≤ dm.activeBlocks.length) (hsafe : ∀ job ∈ dm.activeBlocks.take i, job.Safe) :
    ∃ out dm', pollActive fs i dm = some (out, dm') ∧ (out = none → Idles dm dm') := by
  induction i generalizing dm with
  | zero => exact ⟨none, dm, rfl, fun _ => ⟨rfl, rfl, rfl, rfl⟩⟩
  | succ i ih =>
    obtain ⟨job, rest, hswap, htake, hlen, hrest⟩ := swapRemove_spec hi
    rw [htake] at hsafe
    obtain ⟨p, job', world, hpoll, -⟩ :=
      BlockJob.poll_spec fs (hsafe job (List.mem_append_right _ List.mem_cons_self)) dm.world
    rw [pollActive_succ, pollJob, hswap]
    simp only [hpoll]
    cases p with
    | ready e =>
      refine ⟨_, _, rfl, ?_⟩
      intro h
      cases h
    | pending =>
      have hlen' : (rest ++ [job']).length = dm.activeBlocks.length := by
        rw [List.length_append, List.length_singleton, hlen]
      let dm1 : DiskManager File World := { dm with activeBlocks := rest ++ [job'], world := world }
      have hi1 : i ≤ dm1.activeBlocks.length := by
        rw [hlen']
        omega
      have hsafe1 : ∀ j ∈ dm1.activeBlocks.take i, j.Safe := by
        rw [hrest]
        exact fun j hj => hsafe j (List.mem_append_left _ hj)
      obtain ⟨out, dm', h, hidle⟩ := ih hi1 hsafe1
      have hone : Idles dm dm1 := ⟨rfl, rfl, rfl, hlen'⟩
      exact ⟨out, dm', h, fun hout => hone.trans (hidle hout)⟩

/-- an unfinished job that is taken out waits, or panics -/
theorem pollJob_stalled [Inhabited File] (Err : Type) {i : Nat} {dm : DiskManager File World} {job : BlockJob File}
    {rest : List (BlockJob File)} (hswap : swapRemove dm.activeBlocks i = some (job, rest)) (hu : job.Unfinished) :
    (job.Safe → ∃ job' world, pollJob (FileSystem.stalled File World Err) i dm
        = some (none, { dm with activeBlocks := rest ++ [job'], world := world }) ∧ job'.Unfinished) ∧
    (¬ job.Safe → pollJob (FileSystem.stalled File World Err) i dm = none) := by
  obtain ⟨hwaits, hpanics⟩ := BlockJob.poll_stalled Err hu dm.world
  rw [pollJob, hswap]
  constructor
  · intro hsafe
    obtain ⟨job', world, hpoll⟩ := hwaits hsafe
    simp only [hpoll]
    exact ⟨job', world, rfl, BlockJob.unfinished_poll _ hpoll⟩
  · intro hunsafe
    simp only [hpanics hunsafe]

/-- the disk is stalled: no job finishes, and one that is not safe panics -/
theorem pollActive_stalled [Inhabited File] (Err : Type) {i : Nat} {dm : DiskManager File World}
    (hi : i ≤ dm.activeBlocks.length) (hu : ∀ job ∈ dm.activeBlocks, job.Unfinished) :
    ((∀ job ∈ dm.activeBlocks.take i, job.Safe) →
      ∃ dm', pollActive (FileSystem.stalled File World Err) i dm = some (none, dm') ∧ Idles dm dm' ∧
        ∀ job ∈ dm'.activeBlocks, job.Unfinished) ∧
    ((¬ ∀ job ∈ dm.activeBlocks.take i, job.Safe) →
      pollActive (FileSystem.stalled File World Err) i dm = none) := by
  induction i generalizing dm with
  | zero =>
    refine ⟨fun _ => ⟨dm, rfl, ⟨rfl, rfl, rfl, rfl⟩, hu⟩, fun h => (h ?_).elim⟩
    intro job hjob
    cases hjob
  | succ i ih =>
    obtain ⟨job, rest, hswap, htake, hlen, hrest⟩ := swapRemove_spec hi
    have hperm := perm_swapRemove hswap
    obtain ⟨hwaits, hpanics⟩ := pollJob_stalled Err hswap (hu job (hperm.mem_iff.mpr List.mem_cons_self))
    have hstep : pollActive (FileSystem.stalled File World Err) (i + 1) dm
        = (pollJob (FileSystem.stalled File World Err) i dm).bind fun r =>
            if r.1.isSome then some r else pollActive (FileSystem.stalled File World Err) i r.2 :=
      pollActive_succ i dm
    by_cases hjob : job.Safe
    · obtain ⟨job', world, hpoll, hjob'⟩ := hwaits hjob
      have hlen' : (rest ++ [job']).length = dm.activeBlocks.length := by
        rw [List.length_append, List.length_singleton, hlen]
      have hu' : ∀ j ∈ rest ++ [job'], j.Unfinished := by
        intro j hj
        rcases List.mem_append.mp hj with hj | hj
        · exact hu j (hperm.mem_iff.mpr (List.mem_cons_of_mem _ hj))
        · rw [List.mem_singleton.mp hj]
          exact hjob'
      -- the other jobs below `i` stand where they stood
      have hsafe : (∀ j ∈ dm.activeBlocks.take (i + 1), j.Safe) ↔ ∀ j ∈ dm.activeBlocks.take i, j.Safe := by
        rw [htake, List.forall_mem_append, List.forall_mem_singleton, and_iff_left hjob]
      let dm1 : DiskManager File World := { dm with activeBlocks := rest ++ [job'], world := world }
      have hi1 : i ≤ dm1.activeBlocks.length := by
        rw [hlen']
        omega
      have htake1 : dm1.activeBlocks.take i = dm.activeBlocks.take i := hrest job'
      obtain ⟨h1, h2⟩ := ih hi1 hu'
      rw [htake1] at h1 h2
      rw [hstep, hpoll, hsafe]
      refine ⟨?_, h2⟩
      intro hall
      obtain ⟨dm', h, hidle, hun⟩ := h1 hall
      have hone : Idles dm dm1 := ⟨rfl, rfl, rfl, hlen'⟩
      exact ⟨dm', h, hone.trans hidle, hun⟩
    · rw [hstep, hpanics hjob]
      refine ⟨fun hall => (hjob ?_).elim, fun _ => rfl⟩
      rw [htake] at hall
      exact hall job (List.mem_append_right _ List.mem_cons_self)

end DiskManager

end Btt
