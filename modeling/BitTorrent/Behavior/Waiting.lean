import BitTorrent.Behavior.Agreement
import BitTorrent.Behavior.Seeding
import BitTorrent.Disk.Reading

/-!
# Peers wait for reads that are outstanding

A request for a block that the pool accepts goes to two places: an entry of `pending_seed_blocks` and a read for the
disk manager.  A read that succeeds takes its entry with it; a read that fails does not.

* `waiting pool t`   the blocks peers wait for in the torrent `t`;
* `Served`           the blocks waited for are among those being read;
* `Unawaited`        fewer peers wait for the block of a read that ends with an error than there are reads of it;
* `served_iff`       along a run every state is served exactly if all its steps are so;
* `Readable`         no read of a block that a peer waits for comes to what makes a read fail;
* `served_run`       a run whose steps are all like that serves every peer.
-/

namespace Btt
open Run

namespace TorrentPool

/-- the blocks peers wait for -/
def waiting (pool : TorrentPool) (t : TorrentId) : List BlockMetadata :=
  (pool.torrents.lookup t).elim [] fun T => T.pieceHandler.pendingSeedBlocks.map fun e => e.2.2

theorem waiting_of_lookup {pool : TorrentPool} {t : TorrentId} {T : Torrent} (h : pool.torrents.lookup t = some T) :
    pool.waiting t = T.pieceHandler.pendingSeedBlocks.map fun e => e.2.2 := by
  rw [waiting, h, Option.elim_some]

theorem count_waiting (pool : TorrentPool) (t : TorrentId) (m : BlockMetadata) :
    (pool.waiting t).count m = pool.pendingOf (fun e => e.2.2 = m) t := by
  unfold waiting pendingOf
  cases pool.torrents.lookup t with
  | none => rfl
  | some T =>
    rw [Option.elim_some, Option.elim_some, List.count, List.countP_map]
    exact List.countP_congr fun e _ => by simp

section
variable {pool : TorrentPool} (hg : ∀ id T, pool.torrents.lookup id = some T → pool.Grounded id T)
include hg

/-- operations other than requests leave no more waiting than before -/
theorem count_waiting_exec {ops : List PoolOp} (hops : ∀ op ∈ ops, ∀ pool : TorrentPool, pool.enters op = none)
    (t : TorrentId) (m : BlockMetadata) : ((exec step pool ops).waiting t).count m ≤ (pool.waiting t).count m := by
  induction ops generalizing pool with
  | nil => exact Nat.le_refl _
  | cons op ops ih =>
    have hstep := pendingOf_step hg op (fun e => e.2.2 = m) t
    rw [hops op List.mem_cons_self pool, ← count_waiting, ← count_waiting] at hstep
    exact (ih (grounded_step op hg) fun o ho => hops o (List.mem_cons_of_mem _ ho)).trans hstep

/-- a request that is accepted makes one more wait -/
theorem count_waiting_onPieceRequest {w : Walk} {p : PeerId} {m₀ : BlockMetadata} {r : RequestId} {id : TorrentId}
    (h : (pool.onPieceRequest w p m₀ r).1 = some id) (t : TorrentId) (m : BlockMetadata) :
    ((pool.onPieceRequest w p m₀ r).2.waiting t).count m
      ≤ (pool.waiting t).count m + if id = t ∧ m₀ = m then 1 else 0 := by
  have hstep := pendingOf_step hg (.onPieceRequest w p m₀ r) (fun e => e.2.2 = m) t
  have henters : pool.enters (.onPieceRequest w p m₀ r) = some (id, p, r, m₀) := by
    rw [enters, h, Option.map_some]
  rw [henters, ← count_waiting, ← count_waiting] at hstep
  simp only [Option.elim_some, decide_eq_true_eq] at hstep
  exact hstep

end

/-- a block that was read takes one of those that wait for it away -/
theorem count_waiting_onBlockRead (pool : TorrentPool) (t : TorrentId) (m₀ : BlockMetadata) (m : BlockMetadata) :
    ((pool.onBlockRead t m₀).2.waiting t).count m = (pool.waiting t).count m - if m₀ = m then 1 else 0 := by
  rw [count_waiting, count_waiting, pendingOf, pendingOf]
  show Option.elim ((pool.modify t _).2.torrents.lookup t) 0 _ = _
  rw [lookup_modify, if_pos rfl]
  cases pool.torrents.lookup t with
  | none => exact (Nat.zero_sub _).symm
  | some T =>
    rw [Option.map_some, Option.elim_some, Option.elim_some]
    show (T.pieceHandler.takePendingSeed _).2.pendingSeedBlocks.countP _ = _
    rw [TorrentPieceHandler.takePendingSeed_eq]
    cases hf : T.pieceHandler.pendingSeedBlocks.find? fun e => decide (e.2.2 = m₀) with
    | none =>
      rw [List.eraseP_of_forall_not (List.find?_eq_none.mp hf)]
      split
      · rename_i hm
        have hzero : T.pieceHandler.pendingSeedBlocks.countP (fun e => decide (e.2.2 = m)) = 0 := by
          rw [← hm]
          exact List.countP_eq_zero.mpr (List.find?_eq_none.mp hf)
        rw [hzero]
      · rfl
    | some e =>
      have hcount := countP_eraseP hf fun e => decide (e.2.2 = m)
      have he : e.2.2 = m₀ := by simpa using List.find?_some hf
      rw [he] at hcount
      simp only [decide_eq_true_eq] at hcount
      exact Nat.eq_sub_of_add_eq hcount

end TorrentPool

namespace BitTorrent
variable {File World Err : Type}

/-- nobody waits for a read that will never come -/
structure Served (b : BitTorrent File World) : Prop where
  /-- the blocks waited for are among those being read -/
  outstanding : ∀ t, (b.torrents.waiting t).Subperm (b.diskManager.reading t)
  /-- once no read of a block is left, a peer that waited for that block only can ask again -/
  ready : ∀ t T m p, b.torrents.torrents.lookup t = some T → m ∉ b.diskManager.reading t →
    (∀ e ∈ T.pieceHandler.pendingSeedBlocks, e.1 = p → e.2.2 = m) → T.pieceHandler.isReadyToSeedBlock p = true

/-- the second half follows from the first -/
theorem served_of_count {b : BitTorrent File World}
    (h : ∀ t m, (b.torrents.waiting t).count m ≤ (b.diskManager.reading t).count m) : b.Served := by
  have hsub : ∀ t, (b.torrents.waiting t).Subperm (b.diskManager.reading t) := by
    intro t
    exact List.subperm_ext_iff.mpr fun m _ => h t m
  refine ⟨hsub, ?_⟩
  intro t T m p hT hm hp
  rw [TorrentPieceHandler.isReadyToSeedBlock, Bool.not_eq_true', List.any_eq_false]
  intro e he heq
  refine hm ((hsub t).subset ?_)
  rw [TorrentPool.waiting_of_lookup hT, ← hp e he (of_decide_eq_true heq)]
  exact List.mem_map_of_mem he

section
variable (fs : FileSystem File World Err) (sha1 : List UInt8 → ShaHash)

/-- the turn of the disk loop ends the read of the block `m` of the torrent `t` with an error -/
def FailsRead (b : BitTorrent File World) (e : DiskEnv) (t : TorrentId) (m : BlockMetadata) : Prop :=
  ∃ err dm, b.diskManager.poll fs sha1 e.files e.rounds = .ready (.readBlockError t err) dm ∧
    (b.diskManager.reading t).Perm (m :: dm.reading t)

/-- if a read fails, fewer peers wait for its block than there are reads of it -/
def Unawaited (s : Option (BitTorrent File World)) (op : BehaviourOp) : Prop :=
  ∀ b e t m, s = some b → op = .pollDisk e → b.FailsRead fs sha1 e t m →
    (b.torrents.waiting t).count m < (b.diskManager.reading t).count m

/-- **The guard**: no read that the poll of a turn of the disk loop comes to fails, if some peer still waits for its
block -/
def Readable (s : Option (BitTorrent File World)) (op : BehaviourOp) : Prop :=
  ∀ b e t m, s = some b → op = .pollDisk e → m ∈ b.torrents.waiting t →
    ∀ visit ∈ b.diskManager.pollMoves fs sha1 e.files e.rounds, ¬ DiskManager.ReadFails fs visit.1 visit.2 t m

end

/-- the state of the pool and the disk manager, and what connects them -/
structure Serving (b : BitTorrent File World) : Prop where
  grounded : b.Grounded
  called : b.diskManager.Called
  count : ∀ t m, (b.torrents.waiting t).count m ≤ (b.diskManager.reading t).count m

section
variable {fs : FileSystem File World Err} {sha1 : List UInt8 → ShaHash} {b b' : BitTorrent File World}

/-- what is handed to the disk manager was called for, and no read is taken back -/
theorem Hands.called {new : Option (TorrentId × MetaInfo)} {dm : DiskManager File World} (h : Hands b new dm)
    (hb : b.diskManager.Called) :
    dm.Called ∧ ∀ t m, (b.diskManager.reading t).count m ≤ (dm.reading t).count m := by
  have hpush : ∀ msg t m, (b.diskManager.reading t).count m ≤ ((b.diskManager.push msg).reading t).count m := by
    intro msg t m
    rw [(b.diskManager.reading_push msg t).count_eq, List.count_append]
    exact Nat.le_add_left _ _
  cases h with
  | nothing => exact ⟨hb, fun t m => Nat.le_refl _⟩
  | @torrent info => exact ⟨hb.push (.addTorrent _ info) rfl, hpush _⟩
  | request msg hmsg hT =>
    refine ⟨?_, hpush _⟩
    cases msg with
    | readBlock id m => exact hb.push (.readBlock id m) rfl
    | writeBlock id block => exact hb.push (.writeBlock id block) rfl
    | _ => cases hmsg

/-- a request: the entry and the read are made together -/
theorem Serving.getPieceReq (h : b.Serving) (w : Walk) (now : Instant) (peer : PeerId) (request : PeerRequest)
    (requestId : RequestId) (t : TorrentId) (m : BlockMetadata) :
    ((b.injectNodeEvent w now peer (.getPieceReq request requestId)).torrents.waiting t).count m
      ≤ ((b.injectNodeEvent w now peer (.getPieceReq request requestId)).diskManager.reading t).count m := by
  have hbefore := h.count t m
  unfold injectNodeEvent
  simp only
  split
  · rename_i id pool hreq
    have hwait := TorrentPool.count_waiting_onPieceRequest h.grounded (congrArg Prod.fst hreq) t m
    rw [hreq] at hwait
    show (pool.waiting t).count m ≤ ((b.diskManager.push _).reading t).count m
    rw [(b.diskManager.reading_push _ t).count_eq, List.count_append, DiskMessageIn.readOf]
    by_cases hid : id = t
    · rw [if_pos hid, Option.toList_some, List.count_singleton]
      simp only [hid, true_and, beq_iff_eq] at hwait ⊢
      omega
    · rw [if_neg hid, Option.toList_none, List.count_nil]
      simp only [hid, false_and, if_false] at hwait
      omega
  · rename_i pool hreq
    have hsame : pool = exec TorrentPool.step b.torrents [.onPieceRequest w peer (.ofRequest request) requestId] :=
      (congrArg Prod.snd hreq).symm
    have hwait := TorrentPool.pendingOf_step h.grounded (.onPieceRequest w peer (.ofRequest request) requestId)
      (fun e => e.2.2 = m) t
    rw [TorrentPool.enters, congrArg Prod.fst hreq, ← TorrentPool.count_waiting, ← TorrentPool.count_waiting] at hwait
    show (pool.waiting t).count m ≤ _
    rw [hsame]
    exact Nat.le_trans hwait hbefore

/-- steps other than turns of the disk loop -/
theorem Serving.call {op : BehaviourOp} (h : b.Serving) (hop : ∀ e, op ≠ .pollDisk e)
    (hstep : b.step fs sha1 op = some b') : b'.Serving := by
  obtain ⟨hcalled, hreads⟩ := (hands_step h.grounded hop hstep).called h.called
  refine ⟨h.grounded.step hstep, hcalled, ?_⟩
  intro t m
  by_cases hreq : ∃ w now peer request requestId, op = .injectNodeEvent w now peer (.getPieceReq request requestId)
  · obtain ⟨w, now, peer, request, requestId, rfl⟩ := hreq
    cases hstep
    exact h.getPieceReq w now peer request requestId t m
  · have henters : ∀ o ∈ b.poolOps fs sha1 op, ∀ pool : TorrentPool, pool.enters o = none :=
      enters_poolOps fun w now peer request requestId he => hreq ⟨w, now, peer, request, requestId, he⟩
    rw [torrents_step hstep]
    exact ((TorrentPool.count_waiting_exec h.grounded henters t m).trans (h.count t m)).trans (hreads t m)

/-- a turn of the disk loop: the reads it ends -/
theorem Serving.ends {e : DiskEnv} (h : b.Serving) (hstep : b.step fs sha1 (.pollDisk e) = some b') :
    b'.diskManager.Called ∧ ∀ t, ∃ spent, DiskManager.Spent t (b.diskAnswer fs sha1 e) spent ∧
      (b.diskManager.reading t).Perm (b'.diskManager.reading t ++ spent) := by
  obtain ⟨r, hr, rfl⟩ := Option.map_eq_some_iff.mp hstep
  rcases pollDisk_cases hr with ⟨msg, dm, hp, hans, rfl⟩ | ⟨dm, hp, hans, rfl⟩
  · rw [hans, diskManager_onDiskMessage]
    exact DiskManager.poll_reading h.called (by rw [hp]; rfl)
  · rw [hans]
    exact DiskManager.poll_reading h.called (by rw [hp]; rfl)

/-- the read that an error answers -/
theorem failsRead_of_spent {e : DiskEnv} {t : TorrentId} {err : TorrentError} {m : BlockMetadata}
    (hstep : b.step fs sha1 (.pollDisk e) = some b') (hans : b.diskAnswer fs sha1 e = some (.readBlockError t err))
    (hperm : (b.diskManager.reading t).Perm (b'.diskManager.reading t ++ [m])) : b.FailsRead fs sha1 e t m := by
  obtain ⟨r, hr, rfl⟩ := Option.map_eq_some_iff.mp hstep
  rcases pollDisk_cases hr with ⟨msg, dm, hp, hans', rfl⟩ | ⟨dm, -, hans', -⟩
  · cases hans'.symm.trans hans
    rw [diskManager_onDiskMessage] at hperm
    exact ⟨err, dm, hp, hperm.trans (List.perm_append_singleton m _)⟩
  · cases hans'.symm.trans hans

/-- a turn of the disk loop: a block that was read takes its entry with it, and a read that failed had none -/
theorem Serving.pollDisk {e : DiskEnv} (h : b.Serving) (hfail : Unawaited fs sha1 (some b) (.pollDisk e))
    (hstep : b.step fs sha1 (.pollDisk e) = some b') : b'.Serving := by
  obtain ⟨hcalled, hends⟩ := h.ends hstep
  refine ⟨h.grounded.step hstep, hcalled, ?_⟩
  intro t m
  have hbefore := h.count t m
  have hpool := torrents_step hstep
  have hle : (b'.torrents.waiting t).count m ≤ (b.torrents.waiting t).count m := by
    rw [hpool]
    exact TorrentPool.count_waiting_exec h.grounded (enters_poolOps fun _ _ _ _ _ he => by cases he) t m
  obtain ⟨spent, hspent, hperm⟩ := hends t
  have hcount : (b.diskManager.reading t).count m = (b'.diskManager.reading t).count m + spent.count m := by
    rw [hperm.count_eq, List.count_append]
  generalize hans : b.diskAnswer fs sha1 e = out at hspent
  cases hspent with
  | nothing =>
    rw [List.count_nil] at hcount
    omega
  | other hother =>
    rw [List.count_nil] at hcount
    omega
  | @read block =>
    have hread := TorrentPool.count_waiting_onBlockRead b.torrents t block.metadata m
    have hafter : b'.torrents = (b.torrents.onBlockRead t block.metadata).2 := by
      rw [hpool, poolOps, hans]
      rfl
    rw [← hafter] at hread
    rw [List.count_singleton] at hcount
    simp only [beq_iff_eq] at hcount
    split at hread <;> rename_i hm
    · rw [if_pos hm] at hcount
      omega
    · rw [if_neg hm] at hcount
      omega
  | @failed err m₀ =>
    have hlt := hfail b e t m₀ rfl rfl (failsRead_of_spent hstep hans hperm)
    rw [List.count_singleton] at hcount
    simp only [beq_iff_eq] at hcount
    by_cases hm : m₀ = m
    · rw [if_pos hm] at hcount
      rw [hm] at hlt
      omega
    · rw [if_neg hm] at hcount
      omega

theorem Serving.step {op : BehaviourOp} (h : b.Serving) (hfail : Unawaited fs sha1 (some b) op)
    (hstep : b.step fs sha1 op = some b') : b'.Serving := by
  by_cases hop : ∃ e, op = .pollDisk e
  · obtain ⟨e, rfl⟩ := hop
    exact h.pollDisk hfail hstep
  · exact h.call (fun e he => hop ⟨e, he⟩) hstep

/-- a read that ends with an error came to what makes it fail, so nobody waits for it -/
theorem Serving.unawaited {op : BehaviourOp} (h : b.Serving) (hread : Readable fs sha1 (some b) op) :
    Unawaited fs sha1 (some b) op := by
  rintro b' e t m ⟨⟩ rfl ⟨err, dm, hpoll, hperm⟩
  obtain ⟨visit, hvisit, m', hfails, hperm'⟩ := DiskManager.readFails_of_poll h.called hpoll
  have hsame : m = m' := by
    have hcount : (m :: dm.reading t).count m = (m' :: dm.reading t).count m := (hperm.symm.trans hperm').count_eq m
    by_contra hne
    rw [List.count_cons_self, List.count_cons_of_ne (Ne.symm hne)] at hcount
    omega
  have hnobody : m ∉ b.torrents.waiting t := by
    intro hm
    rw [hsame] at hm
    exact hread b e t m' rfl rfl hm visit hvisit hfails
  rw [List.count_eq_zero_of_not_mem hnobody, hperm.count_eq, List.count_cons_self]
  exact Nat.succ_pos _

/-- a read that fails although it is waited for leaves an entry without a read -/
theorem not_served_of_awaited {op : BehaviourOp} (hfail : ¬ Unawaited fs sha1 (some b) op) :
    ∃ b', b.step fs sha1 op = some b' ∧ ¬ b'.Served := by
  unfold Unawaited at hfail
  push Not at hfail
  obtain ⟨b₁, e, t, m, hb, rfl, ⟨err, dm, hp, hperm⟩, hle⟩ := hfail
  cases hb
  refine ⟨{ b with diskManager := dm }, ?_, ?_⟩
  · show (b.pollDisk fs sha1 e).map Prod.snd = _
    rw [BitTorrent.pollDisk, hp]
    rfl
  · intro hserved
    have hcount : (b.torrents.waiting t).count m ≤ (dm.reading t).count m := (hserved.outstanding t).count_le m
    rw [hperm.count_eq, List.count_cons_self] at hle
    omega

end

theorem serving_withConfig (random : ShaHash) (world : World) (config : BitTorrentConfig) :
    (withConfig random world config : BitTorrent File World).Serving := by
  refine ⟨grounded_withConfig random world config, DiskManager.called_withCapacity _ _, ?_⟩
  intro t m
  have hnone : (withConfig random world config : BitTorrent File World).torrents.waiting t = [] := by
    rw [TorrentPool.waiting, show (withConfig random world config : BitTorrent File World).torrents.torrents = ∅ from rfl,
      AList.lookup_empty, Option.elim_none]
  rw [hnone]
  exact Nat.zero_le _

/-- Every state of a run is served exactly if of the block of every read that ends with an error there are fewer waiting
than reads: then the blocks waited for are among those being read, and a peer whose block is not being read any more can
ask again. -/
theorem served_iff (fs : FileSystem File World Err) (sha1 : List UInt8 → ShaHash) (random : ShaHash) (world : World)
    (config : BitTorrentConfig) (ops : List BehaviourOp) :
    (∀ pre, pre <+: ops → ∀ b, exec (next fs sha1) (some (withConfig random world config)) pre = some b → b.Served) ↔
      Along (next fs sha1) (Unawaited fs sha1) (some (withConfig random world config)) ops := by
  refine safe_iff_along_some (next fs sha1) (I := fun _ => Serving) (fun s op => rfl) ?_ ?_ ?_ ?_ ?_ ops
  · rintro op b e t m ⟨⟩
  · rintro b ⟨⟩
    exact serving_withConfig random world config
  · intro pre b hb h
    exact served_of_count h.count
  · intro pre op b b' hb h hfail hstep
    exact h.step hfail hstep
  · intro pre op b hb h hfail
    exact not_served_of_awaited hfail

/-- **No peer waits for a read that will never come** in a run in which no read of a block that is waited for fails. -/
theorem served_run (fs : FileSystem File World Err) (sha1 : List UInt8 → ShaHash) (random : ShaHash) (world : World)
    (config : BitTorrentConfig) (ops : List BehaviourOp)
    (h : Along (next fs sha1) (Readable fs sha1) (some (withConfig random world config)) ops) :
    ∀ pre, pre <+: ops → ∀ b, exec (next fs sha1) (some (withConfig random world config)) pre = some b → b.Served := by
  rintro pre ⟨post, rfl⟩ b hb
  have hserving : ∀ b, exec (next fs sha1) (some (withConfig random world config)) pre = some b → b.Serving := by
    refine exec_inv_along (I := fun s => ∀ b, s = some b → b.Serving) ?_ ?_ ((along_append _ _ _).mp h).1
    · intro s op hs hG b' hb'
      obtain ⟨b, rfl, hstep⟩ := Option.bind_eq_some_iff.mp hb'
      exact (hs b rfl).step ((hs b rfl).unawaited hG) hstep
    · rintro _ ⟨⟩
      exact serving_withConfig random world config
  exact served_of_count (hserving b hb).count

/-- a remote asks for a block of the only piece, which has one byte -/
def asksFor (length : UInt32) : List BehaviourOp :=
  .addSeed oneByte .active :: guest ⟨[7]⟩ ++ [.injectNodeEvent .same 0 ⟨[7]⟩ (.getPieceReq ⟨0, 0, length⟩ ⟨2⟩)]

/-- the byte is read for the remote that waits for it -/
theorem served_after_answer :
    ∃ b, exec (next instantDisk firstByte) (some (withConfig (.replicate 0) () .default))
        (asksFor 1 ++ [diskTurn, diskTurn]) = some b ∧ b.diskManager.reading ⟨0⟩ = [] ∧ b.Served := by
  refine ⟨_, rfl, rfl, ?_⟩
  refine served_run instantDisk firstByte (.replicate 0) () .default (asksFor 1 ++ [diskTurn, diskTurn]) ?_ _
    (List.prefix_refl _) _ rfl
  -- all but the last two steps are no turns of the disk loop
  refine ⟨?_, ?_, ?_, ?_, ?_, ?_, ?_, trivial⟩
  iterate 5 rintro b e t m - ⟨⟩
  · rintro b e t m ⟨⟩ ⟨⟩ - visit hvisit hfails
    -- the torrent is added
    obtain rfl := List.mem_singleton.mp hvisit
    cases hfails with
    | unknown hq => cases hq
    | refused hq => cases hq
    | unopened hq => cases hq
  · rintro b e t m ⟨⟩ ⟨⟩ - visit hvisit hfails
    -- the job of the read is started, and ends with the byte
    rcases List.mem_pair.mp hvisit with rfl | rfl
    · cases hfails with
      | unknown hq h =>
        cases hq
        cases h
      | refused hq hF h =>
        cases hq
        cases hF
        cases h
      | unopened hq ht h =>
        cases hq
        obtain ⟨F, hF, hfiles⟩ := ht.torrent
        cases hF
        cases hfiles
        cases h
    · cases hfails with
      | spoiled hjob hread hpoll h =>
        cases hjob
        cases hpoll
        exact h rfl

/-- a block of two bytes: the read fails, and the remote is waiting still -/
theorem waits_after_error :
    ∃ b, exec (next instantDisk firstByte) (some (withConfig (.replicate 0) () .default))
        (asksFor 2 ++ [diskTurn, diskTurn]) = some b ∧
      ((b.torrents.torrents.lookup ⟨0⟩).map fun T => T.pieceHandler.isReadyToSeedBlock ⟨[7]⟩) = some false ∧
      ¬ b.Served := by
  refine ⟨_, rfl, by decide, ?_⟩
  intro h
  have hcount := (h.outstanding ⟨0⟩).count_le ⟨0, 0, 2⟩
  revert hcount
  decide

end BitTorrent

end Btt
