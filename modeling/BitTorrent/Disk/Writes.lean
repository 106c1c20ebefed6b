import BitTorrent.Disk.Moves

/-!
# Which torrents the disk manager writes

`Writes W dm` says that every write of the manager, queued or active, is for a torrent that satisfies
`W`.  The invariant holds for any `W` (`poll_writes`): a poll starts no write of its own, and answers
`PieceWritten` and `WriteBlockError` only for torrents with a write.

The torrent of a job is read off the file it writes, so the manager also has to keep the files of a torrent
under that torrent's id (`files`).
-/

namespace Btt

/-! ## the manager -/

namespace DiskManager
variable {File World Err : Type}

structure Writes (W : TorrentId → Prop) (dm : DiskManager File World) : Prop where
  queued : ∀ t block, .writeBlock t block ∈ dm.queuedEvents → W t
  active : ∀ r, .write r ∈ dm.activeBlocks → W r.torrent
  files : ∀ t F, dm.torrents.lookup t = some F → ∀ e ∈ F.files, e.id.torrent = t

/-- an answer to a write is for a torrent that satisfies `W` -/
def Answers (W : TorrentId → Prop) : DiskMessageOut → Prop
  | .pieceWritten t _ => W t
  | .writeBlockError t _ => W t
  | _ => True

theorem Answers.mono {W W' : TorrentId → Prop} {msg : DiskMessageOut} (h : Answers W msg)
    (hW : ∀ t, W t → W' t) : Answers W' msg := by
  cases msg with
  | pieceWritten t block => exact hW t h
  | writeBlockError t err => exact hW t h
  | _ => trivial

theorem Writes.mono {W W' : TorrentId → Prop} {dm : DiskManager File World} (h : dm.Writes W)
    (hW : ∀ t, W t → W' t) : dm.Writes W' :=
  ⟨fun t block hq => hW t (h.queued t block hq), fun r hr => hW _ (h.active r hr), h.files⟩

theorem writes_withCapacity (W : TorrentId → Prop) (world : World) (capacity : Nat) :
    (withCapacity world capacity : DiskManager File World).Writes W := by
  refine ⟨?_, ?_, ?_⟩
  · intro t block h
    cases h
  · intro r h
    cases h
  · intro t F h
    rw [show (withCapacity world capacity : DiskManager File World).torrents = ∅ from rfl,
      AList.lookup_empty] at h
    cases h

theorem Writes.push {W : TorrentId → Prop} {dm : DiskManager File World} (h : dm.Writes W) {msg : DiskMessageIn}
    (hmsg : ∀ t block, msg = .writeBlock t block → W t) : (dm.push msg).Writes W := by
  refine ⟨?_, h.active, h.files⟩
  intro t block hq
  rcases List.mem_append.mp hq with hq | hq
  · exact h.queued t block hq
  · exact hmsg t block (List.mem_singleton.mp hq).symm

section
variable {fs : FileSystem File World Err} {sha1 : List UInt8 → ShaHash} {order : Arrangement FileEntry}
  {W : TorrentId → Prop} {dm dm' : DiskManager File World}

theorem Writes.frame (h : dm.Writes W) (hf : Frame dm dm') : dm'.Writes W := by
  refine ⟨?_, ?_, ?_⟩
  · rw [hf.queuedEvents]
    exact h.queued
  · rw [hf.activeBlocks]
    exact h.active
  · rw [hf.torrents]
    exact h.files

/-- a message is handled: its write is started or put back, other writes stay -/
theorem Writes.handled (hdm : dm.Writes W) {msg : DiskMessageIn}
    (hmsg : ∀ t block, msg = .writeBlock t block → W t) {r : Option (Poll DiskMessageOut)}
    (h : Handled fs sha1 order dm msg r dm') :
    dm'.Writes W ∧ ∀ out ∈ r.bind Poll.answer, Answers W out := by
  have hfiles : ∀ t F, dm'.torrents.lookup t = some F → ∀ e ∈ F.files, e.id.torrent = t := by
    intro t F hF
    rcases h.lookup hF with h1 | ⟨info, -, -, hnew⟩
    · exact hdm.files t F h1
    · exact fun e he => TorrentFile.torrent_of_mem_new hnew he
  cases h with
  | existing h => exact ⟨hdm, fun out hout => by cases hout; trivial⟩
  | added h hnew => exact ⟨⟨hdm.queued, hdm.active, hfiles⟩, fun out hout => by cases hout; trivial⟩
  | removed =>
    refine ⟨?_, ?_⟩
    · unfold DiskManager.removeTorrent at hfiles ⊢
      split <;> rename_i hid <;> rw [hid] at hfiles
      · exact ⟨hdm.queued, hdm.active, hfiles⟩
      · exact hdm
    · intro out hout
      cases hout
      unfold DiskManager.removeTorrent
      split <;> trivial
  | synced => exact ⟨hdm, by simp⟩
  | moved => exact ⟨hdm, by simp⟩
  | @bad id block h =>
    refine ⟨hdm, ?_⟩
    intro out hout
    cases hout
    exact hmsg id block rfl
  | @refused _ id m e _ hreq h =>
    refine ⟨hdm.frame h.frame, ?_⟩
    intro out hout
    cases hout
    cases msg with
    | readBlock id m => trivial
    | writeBlock id block => exact hmsg id block rfl
    | _ => cases hreq
  | @started _ id m files job _ hreq hgood h hjob =>
    refine ⟨⟨?_, ?_, hfiles⟩, by simp⟩
    · rw [h.frame.queuedEvents]
      exact hdm.queued
    · intro r hr
      rcases List.mem_append.mp hr with hr | hr
      · rw [h.frame.activeBlocks] at hr
        exact hdm.active r hr
      · have hserves : Serves msg (.write r) := by
          have hown := h.torrent_of_mem (hdm.files id)
          rw [← List.mem_singleton.mp hr] at hjob
          exact serves_jobFor hreq hown.1 hown.2 hjob
        cases msg with
        | writeBlock id block =>
          rw [hserves.1]
          exact hmsg id block rfl
        | _ => cases hserves
  | requeued hreq hgood h => exact ⟨(hdm.frame h.frame).push hmsg, by simp [Poll.answer]⟩

theorem Writes.jobPolled (hdm : dm.Writes W) {out : Option DiskMessageOut} (h : JobPolled fs dm out dm') :
    dm'.Writes W ∧ ∀ msg ∈ out, Answers W msg := by
  have hjob : ∀ {job rest job' w p}, dm.activeBlocks.Perm (job :: rest) →
      job.poll fs dm.world = some (p, job', w) → ∀ r, job' = .write r → W r.torrent := by
    rintro job rest job' w p hjobs hpoll r rfl
    obtain ⟨r0, rfl, he, -⟩ := (BlockJob.continues_poll hpoll).write
    rw [he]
    exact hdm.active r0 (hjobs.mem_iff.mpr List.mem_cons_self)
  have hrest : ∀ {job rest}, dm.activeBlocks.Perm (job :: rest) → ∀ r, .write r ∈ rest → W r.torrent := by
    intro job rest hjobs r hr
    exact hdm.active r (hjobs.mem_iff.mpr (List.mem_cons_of_mem _ hr))
  cases h with
  | @finished job rest job' w e hjobs h =>
    refine ⟨⟨hdm.queued, hrest hjobs, hdm.files⟩, ?_⟩
    intro msg hmsg
    cases hmsg
    cases job' with
    | read r => rcases answerOf_read r with ⟨data, ha⟩ | ha <;> rw [ha] <;> trivial
    | write r =>
      have hW := hjob hjobs h r rfl
      rcases answerOf_write r with ⟨data, ha⟩ | ha <;> rw [ha] <;> exact hW
  | pending hjobs h =>
    refine ⟨⟨hdm.queued, ?_, hdm.files⟩, by simp⟩
    intro r hr
    rcases List.mem_append.mp hr with hr | hr
    · exact hrest hjobs r hr
    · exact hjob hjobs h r (List.mem_singleton.mp hr).symm

/-- a move of `poll` keeps the writes, and answers writes only -/
theorem Writes.moved (hdm : dm.Writes W) {op : DiskOp} (hop : op.message = none) {out : Option DiskMessageOut}
    (h : Moved fs sha1 dm op out dm') : dm'.Writes W ∧ ∀ msg ∈ out, Answers W msg := by
  cases h with
  | call hcall =>
    rw [hop] at hcall
    cases hcall
  | job h => exact hdm.jobPolled h
  | idle h => exact ⟨hdm, by simp⟩
  | @message _ msg queue r _ hq h =>
    have hhead : ∀ t block, msg = .writeBlock t block → W t := by
      intro t block heq
      refine hdm.queued t block ?_
      rw [hq, heq]
      exact List.mem_cons_self
    have htail : { dm with queuedEvents := queue }.Writes W := by
      refine ⟨?_, hdm.active, hdm.files⟩
      intro t block ht
      refine hdm.queued t block ?_
      rw [hq]
      exact List.mem_cons_of_mem _ ht
    exact htail.handled hhead h

/-- how a poll leaves the writes: `Writes W` is kept, and an answer to a write is for a torrent with one -/
def PollWrites (W : TorrentId → Prop) : DiskPoll (DiskManager File World) → Prop
  | .ready msg dm => dm.Writes W ∧ Answers W msg
  | .pending dm => dm.Writes W
  | .panic => True
  | .spinning dm => dm.Writes W

/-- **A poll keeps the writes.** -/
theorem poll_writes (fs : FileSystem File World Err) (sha1 : List UInt8 → ShaHash)
    (order : Arrangement FileEntry) {W : TorrentId → Prop} (rounds : Nat) {dm : DiskManager File World} (hdm : dm.Writes W) :
    PollWrites W (dm.poll fs sha1 order rounds) := by
  have hrun : ∀ out dm', DiskPoll.left (dm.poll fs sha1 order rounds) = some (out, dm') →
      dm'.Writes W ∧ ∀ msg ∈ out.toList, Answers W msg := by
    intro out dm' hleft
    obtain ⟨ops, hops⟩ := poll_run hleft
    exact hops.inv (fun _ _ _ _ hI hop hmoved => hI.moved hop hmoved) hdm
  unfold PollWrites
  split <;> rename_i hp <;> rw [hp] at hrun
  · obtain ⟨h1, h2⟩ := hrun _ _ rfl
    exact ⟨h1, h2 _ List.mem_cons_self⟩
  · exact (hrun _ _ rfl).1
  · trivial
  · exact (hrun _ _ rfl).1

end

end DiskManager

end Btt
