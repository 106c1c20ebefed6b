import BitTorrent.Behavior.News
import BitTorrent.Behavior.OnDisk
import BitTorrent.Peer.Projection

/-!
# What a run does for one torrent

Seen from one torrent a run of the behaviour is a run of its piece handler: the behaviour asks for the blocks the handler
asks for, hands over the pieces it completes, and reports its end.  So what holds of every run of a handler holds of every
torrent in every run of the behaviour.

* `reports`, `reportedIn`   what a step and a run report of a torrent;
* `Life`                    the torrent was added in the run, and since then its handler has made certain steps;
* `life_step`, `life_run`   every torrent of the pool has such a life;
* `report_trace`            what is reported is what is sent to the swarm and to the disk;
* `run_of_torrent`          the same in terms of what a run hands out.
-/

namespace Btt
open Run

/-- the action is such a report of the torrent `id` -/
def NetworkBehaviourAction.report (id : TorrentId) : NetworkBehaviourAction → Option TorrentReport
  | .sendEvent peer (.getPieceReq request t) => if t = id then some (.request peer request) else none
  | .generateEvent (.torrentFinished t) => if t = id then some .finished else none
  | _ => none

/-- a piece of the torrent `id` is handed over -/
def DiskMessageIn.report (id : TorrentId) : DiskMessageIn → Option TorrentReport
  | .writeBlock t block => if t = id then some (.piece block) else none
  | _ => none

/-- the configuration of the torrent a call adds -/
def BehaviourOp.config (sha1 : List UInt8 → ShaHash) : BehaviourOp → Option TorrentConfig
  | .addLeech torrent state => TorrentConfig.newLeech sha1 torrent state
  | .addSeed torrent state => TorrentConfig.newSeed sha1 torrent state
  | _ => none

/-- the handler of a new torrent -/
def TorrentConfig.handler (config : TorrentConfig) (sel : PieceSelection) (id : TorrentId) : TorrentPieceHandler :=
  .new id sel config.bitfield config.pieceLength config.lastPieceLength

namespace TorrentPool

/-- operations that add no torrent -/
theorem project_exec {pool : TorrentPool} (hg : ∀ id T, pool.torrents.lookup id = some T → pool.Grounded id T)
    {ops : List PoolOp} (hops : ∀ op ∈ ops, ∀ config, op ≠ .addTorrent config) {id : TorrentId} {T' : Torrent}
    (h : (exec step pool ops).torrents.lookup id = some T') :
    ∃ T hops, pool.torrents.lookup id = some T ∧ T'.pieceHandler = exec TorrentPieceHandler.step T.pieceHandler hops ∧
      T.pieceHandler.reported hops = outputs step (fun pool op => pool.report id op) pool ops ∧
      ∀ i, .setPiece i ∈ hops → .setPiece id i ∈ ops := by
  induction ops generalizing pool with
  | nil => exact ⟨T', [], h, rfl, rfl, by rintro i ⟨⟩⟩
  | cons op ops ih =>
    obtain ⟨S, more, hS, hhandler, hreports, hset⟩ :=
      ih (grounded_step op hg) (fun o ho => hops o (List.mem_cons_of_mem _ ho)) h
    rcases project_step hg hS with ⟨T, hT, ⟨hsame, hnone⟩ | ⟨hop, hdoes, hstep, hreport⟩⟩ | ⟨config, hadd, -⟩
    · refine ⟨T, more, hT, hhandler.trans (by rw [hsame]), ?_, fun i hi => List.mem_cons_of_mem _ (hset i hi)⟩
      rw [← hsame, hreports, outputs, hnone]
      rfl
    · refine ⟨T, hop :: more, hT, hhandler.trans (by rw [hstep]; rfl), ?_, ?_⟩
      · rw [outputs, ← hreports, ← hreport, hstep]
        rfl
      · intro i hi
        rcases List.mem_cons.mp hi with rfl | hi
        · rw [does_setPiece hdoes]
          exact List.mem_cons_self
        · exact List.mem_cons_of_mem _ (hset i hi)
    · exact (hops op List.mem_cons_self config hadd).elim

theorem initialPieceSelectionStrategy_step (pool : TorrentPool) (op : PoolOp) :
    (pool.step op).initialPieceSelectionStrategy = pool.initialPieceSelectionStrategy := by
  rcases pool.step_eq op with ⟨ts, e⟩ | ⟨config, rfl⟩
  · rw [e]
  · show (pool.addTorrent config).2.initialPieceSelectionStrategy = _
    unfold addTorrent
    split <;> rfl

end TorrentPool

namespace BitTorrent
variable {File World Err : Type}

section
variable (fs : FileSystem File World Err) (sha1 : List UInt8 → ShaHash)

/-- what a step reports of the torrent `id` -/
def reports (b : BitTorrent File World) (id : TorrentId) : BehaviourOp → Option TorrentReport
  | .pollPool now e => (b.torrents.poll e.walk now e.clock e.env).1.report id
  | _ => none

/-- what a run reports -/
def reportedIn (id : TorrentId) (s : Option (BitTorrent File World)) (ops : List BehaviourOp) : List TorrentReport :=
  outputs (next fs sha1) (fun s op => s.bind fun b => b.reports id op) s ops

/-- the call `op` of the run adds the torrent `id` -/
def AddedBy (s : Option (BitTorrent File World)) (ops : List BehaviourOp) (id : TorrentId) (M : MetaInfo)
    (op : BehaviourOp) : Prop :=
  ∃ pre post c, ops = pre ++ op :: post ∧ exec (next fs sha1) s pre = some c ∧ c.newTorrent sha1 op = some (id, M)

/-- since the torrent `id` was added its handler made the steps `hops` and came to be `h` -/
structure Life (s : Option (BitTorrent File World)) (ops : List BehaviourOp) (id : TorrentId)
    (h₀ : TorrentPieceHandler) (hops : List HandlerOp) (h : TorrentPieceHandler) : Prop where
  handler : h = exec TorrentPieceHandler.step h₀ hops
  reports : h₀.reported hops = reportedIn fs sha1 id s ops
  /-- a bit is set from outside only for a piece that was written -/
  written : ∀ i, .setPiece i ∈ hops → ∃ block, .pieceWritten id block ∈ diskAnswers fs sha1 s ops ∧
    block.metadata.pieceIndex = i

end

section
variable {fs : FileSystem File World Err} {sha1 : List UInt8 → ShaHash} {b b' : BitTorrent File World} {id : TorrentId}

theorem reportedIn_snoc (s : Option (BitTorrent File World)) (ops : List BehaviourOp) (op : BehaviourOp) :
    reportedIn fs sha1 id s (ops ++ [op]) = reportedIn fs sha1 id s ops ++
      ((exec (next fs sha1) s ops).bind fun b => b.reports id op).toList := outputs_snoc s ops op

/-! ## one step -/

/-- a step other than an add moves the handler on -/
theorem project_step (hb : b.Grounded) {op : BehaviourOp} (hop : op.isAdd = false) (h : b.step fs sha1 op = some b')
    {T' : Torrent} (hT' : b'.torrents.torrents.lookup id = some T') :
    ∃ T hops, b.torrents.torrents.lookup id = some T ∧
      T'.pieceHandler = exec TorrentPieceHandler.step T.pieceHandler hops ∧
      T.pieceHandler.reported hops = (b.reports id op).toList ∧
      ∀ i, .setPiece i ∈ hops → ∃ block, b.processed fs sha1 op = some (.pieceWritten id block) ∧
        block.metadata.pieceIndex = i := by
  rw [torrents_step h] at hT'
  obtain ⟨T, hops, hT, hhandler, hreports, hset⟩ := TorrentPool.project_exec hb (poolOps_not_add hop) hT'
  refine ⟨T, hops, hT, hhandler, hreports.trans ?_, ?_⟩
  · by_cases hpoll : ∃ now e, op = .pollPool now e
    · obtain ⟨now, e, rfl⟩ := hpoll
      exact List.append_nil _
    · -- no other step polls the pool
      have hquiet : ∀ (ops : List PoolOp) (pool : TorrentPool), (∀ o ∈ ops, ∀ w now clock env, o ≠ .poll w now clock env) →
          outputs TorrentPool.step (fun pool op => pool.report id op) pool ops = [] := by
        intro ops
        induction ops with
        | nil => exact fun pool _ => rfl
        | cons o ops ih =>
          intro pool hne
          have hnone : pool.report id o = none := by
            cases o with
            | poll w now clock env => exact (hne _ List.mem_cons_self w now clock env rfl).elim
            | _ => rfl
          rw [outputs, hnone, ih _ fun o ho => hne o (List.mem_cons_of_mem _ ho)]
          rfl
      have hreports : b.reports id op = none := by
        cases op with
        | pollPool now e => exact (hpoll ⟨now, e, rfl⟩).elim
        | _ => rfl
      rw [hreports, hquiet]
      · rfl
      · rintro o ho w now clock env rfl
        obtain ⟨t, block, ht, -⟩ := (poolOps_setsBits ho rfl).resolve_left hpoll
        cases ht
  · intro i hi
    rcases poolOps_setsBits (hset i hi) rfl with ⟨now, e, rfl⟩ | ⟨t, block, ht, hw⟩
    · cases List.mem_singleton.mp (hset i hi)
    · cases ht
      exact ⟨block, hw, rfl⟩

/-- an add leaves the handlers alone, and brings at most one new one -/
theorem project_add (hb : b.Grounded) {op : BehaviourOp} (hop : op.isAdd = true) (h : b.step fs sha1 op = some b')
    {T' : Torrent} (hT' : b'.torrents.torrents.lookup id = some T') :
    (∃ T, b.torrents.torrents.lookup id = some T ∧ T'.pieceHandler = T.pieceHandler) ∨
    (b.torrents.torrents.lookup id = none ∧ ∃ M config, op.config sha1 = some config ∧ b.newTorrent sha1 op = some (id, M) ∧
      T'.pieceHandler = config.handler b.torrents.initialPieceSelectionStrategy id) := by
  obtain ⟨M, config, added, hconfig, hnew, rfl⟩ : ∃ M config added, op.config sha1 = some config ∧
      b.newTorrent sha1 op = b.takes M config ∧ b' = b.addTorrent M config added := by
    cases op with
    | addLeech M st =>
      obtain ⟨config, hc, rfl⟩ := Option.map_eq_some_iff.mp h
      exact ⟨M, config, .newLeech, hc, by rw [newTorrent, hc, Option.bind_some], rfl⟩
    | addSeed M st =>
      obtain ⟨config, hc, rfl⟩ := Option.map_eq_some_iff.mp h
      exact ⟨M, config, .newSeed, hc, by rw [newTorrent, hc, Option.bind_some], rfl⟩
    | _ => cases hop
  have hpool : (b.addTorrent M config added).torrents = b.torrents.step (.addTorrent config) := by
    unfold addTorrent
    split <;> rename_i e <;> rw [TorrentPool.step, e] <;> rfl
  rw [hpool] at hT'
  rcases TorrentPool.project_step hb hT' with ⟨T, hT, ⟨hsame, -⟩ | ⟨_, hdoes, -⟩⟩ | ⟨config', hadd, rfl, hhandler⟩
  · exact Or.inl ⟨T, hT, hsame⟩
  · exact False.elim hdoes
  · cases hadd
    have hfree : b.torrents.torrents.lookup ⟨b.torrents.nextUniqueTorrent⟩ = none := by
      cases hold : b.torrents.torrents.lookup ⟨b.torrents.nextUniqueTorrent⟩ with
      | none => rfl
      | some T => exact absurd (hb _ T hold).below (Nat.lt_irrefl _)
    refine Or.inr ⟨hfree, M, config, hconfig, hnew.trans ?_, hhandler⟩
    rcases b.takes_cases M config added with ⟨-, hsame, -⟩ | ⟨ht, -⟩
    · rw [← hpool, hsame, hfree] at hT'
      cases hT'
    · exact ht

/-- nothing is reported of a torrent that is not there -/
theorem reports_none (hb : b.Grounded) (h : b.torrents.torrents.lookup id = none) (op : BehaviourOp) :
    b.reports id op = none := by
  cases op with
  | pollPool now e => exact TorrentPool.report_none hb h (.poll e.walk now e.clock e.env)
  | _ => rfl

/-! ## whole runs -/

theorem initialPieceSelectionStrategy_step {op : BehaviourOp} (h : b.step fs sha1 op = some b') :
    b'.torrents.initialPieceSelectionStrategy = b.torrents.initialPieceSelectionStrategy := by
  rw [torrents_step h]
  exact exec_inv (I := fun pool : TorrentPool => pool.initialPieceSelectionStrategy = _)
    (fun pool op hI => (pool.initialPieceSelectionStrategy_step op).trans hI) rfl _

theorem mem_newTorrents_snoc {s : Option (BitTorrent File World)} {ops : List BehaviourOp} (op : BehaviourOp)
    {x : TorrentId × MetaInfo} (h : x ∈ newTorrents fs sha1 s ops) : x ∈ newTorrents fs sha1 s (ops ++ [op]) := by
  rw [newTorrents, outputs_append]
  exact List.mem_append_left _ h

theorem AddedBy.append {s : Option (BitTorrent File World)} {ops : List BehaviourOp} {M : MetaInfo} {op : BehaviourOp}
    (h : AddedBy fs sha1 s ops id M op) (more : List BehaviourOp) : AddedBy fs sha1 s (ops ++ more) id M op := by
  obtain ⟨pre, post, c, rfl, hc, hnew⟩ := h
  exact ⟨pre, post ++ more, c, by rw [List.append_assoc, List.cons_append], hc, hnew⟩

/-- **Every torrent of the pool has a life.** -/
theorem life_run {random : ShaHash} {world : World} {config : BitTorrentConfig} {ops : List BehaviourOp}
    (h : exec (next fs sha1) (some (withConfig random world config)) ops = some b) :
    (∀ T, b.torrents.torrents.lookup id = some T → ∃ M op cfg hops,
      AddedBy fs sha1 (some (withConfig random world config)) ops id M op ∧ op.config sha1 = some cfg ∧
      Life fs sha1 (some (withConfig random world config)) ops id
        (cfg.handler (TorrentPool.new random config).initialPieceSelectionStrategy id) hops T.pieceHandler) ∧
    ((∀ M, (id, M) ∉ newTorrents fs sha1 (some (withConfig random world config)) ops) →
      reportedIn fs sha1 id (some (withConfig random world config)) ops = []) ∧
    b.torrents.initialPieceSelectionStrategy = (TorrentPool.new random config).initialPieceSelectionStrategy := by
  induction ops using List.reverseRecOn generalizing b with
  | nil =>
    cases h
    refine ⟨?_, fun _ => rfl, rfl⟩
    intro T hT
    obtain ⟨M, hM⟩ := (agrees_withConfig random world config).pool id T hT
    cases hM
  | append_singleton ops op ih =>
    obtain ⟨c, hc, hstep⟩ := exec_snoc_some h
    obtain ⟨hlives, hnone, hsel⟩ := ih hc
    have ha := agrees_run hc
    have hg : c.Grounded := ha.grounded
    have hreports : reportedIn fs sha1 id (some (withConfig random world config)) (ops ++ [op])
        = reportedIn fs sha1 id (some (withConfig random world config)) ops ++ (c.reports id op).toList := by
      rw [reportedIn_snoc, hc, Option.bind_some]
    refine ⟨?_, ?_, (initialPieceSelectionStrategy_step hstep).trans hsel⟩
    · intro T' hT'
      -- an old torrent goes on with its life
      have hold : ∀ T hops, c.torrents.torrents.lookup id = some T →
          T'.pieceHandler = exec TorrentPieceHandler.step T.pieceHandler hops →
          T.pieceHandler.reported hops = (c.reports id op).toList →
          (∀ i, .setPiece i ∈ hops → ∃ block, c.processed fs sha1 op = some (.pieceWritten id block) ∧
            block.metadata.pieceIndex = i) → ∃ M call cfg hops,
            AddedBy fs sha1 (some (withConfig random world config)) (ops ++ [op]) id M call ∧ call.config sha1 = some cfg ∧
            Life fs sha1 (some (withConfig random world config)) (ops ++ [op]) id
              (cfg.handler (TorrentPool.new random config).initialPieceSelectionStrategy id) hops T'.pieceHandler := by
        intro T more hT hhandler hmore hset
        obtain ⟨M, call, cfg, hops, hadded, hcfg, hlife⟩ := hlives T hT
        refine ⟨M, call, cfg, hops ++ more, hadded.append [op], hcfg, ?_, ?_, ?_⟩
        · rw [hhandler, hlife.handler, exec_append]
        · rw [TorrentPieceHandler.reported_append, hlife.reports, ← hlife.handler, hmore, hreports]
        · intro i hi
          rcases List.mem_append.mp hi with hi | hi
          · obtain ⟨block, hblock, hidx⟩ := hlife.written i hi
            exact ⟨block, mem_diskAnswers_snoc.mpr (Or.inl hblock), hidx⟩
          · obtain ⟨block, hblock, hidx⟩ := hset i hi
            exact ⟨block, mem_diskAnswers_snoc.mpr (Or.inr ⟨c, hc, hblock⟩), hidx⟩
      cases hop : op.isAdd with
      | false =>
        obtain ⟨T, more, hT, hhandler, hmore, hset⟩ := project_step hg hop hstep hT'
        exact hold T more hT hhandler hmore hset
      | true =>
        have hquiet : c.reports id op = none := by
          cases op with
          | pollPool now e => cases hop
          | _ => rfl
        rcases project_add hg hop hstep hT' with ⟨T, hT, hsame⟩ | ⟨hfree, M, cfg, hcfg, hnew, hhandler⟩
        · exact hold T [] hT hsame (by rw [hquiet]; rfl) (by rintro i ⟨⟩)
        · refine ⟨M, op, cfg, [], ⟨ops, [], c, rfl, hc, hnew⟩, hcfg, ?_, ?_, by rintro i ⟨⟩⟩
          · rw [hhandler, hsel]
            rfl
          · have hfirst : ∀ M', (id, M') ∉ newTorrents fs sha1 (some (withConfig random world config)) ops := by
              intro M' hM'
              have hlt := ha.below _ hM'
              rw [(newTorrent_id hstep hnew).1] at hlt
              exact Nat.lt_irrefl _ hlt
            rw [hreports, hnone hfirst, hquiet]
            rfl
    · intro hnew
      have hbefore : ∀ M, (id, M) ∉ newTorrents fs sha1 (some (withConfig random world config)) ops :=
        fun M hM => hnew M (mem_newTorrents_snoc op hM)
      have hfree : c.torrents.torrents.lookup id = none := by
        cases hT : c.torrents.torrents.lookup id with
        | none => rfl
        | some T =>
          obtain ⟨M, hM⟩ := ha.pool id T hT
          exact (hbefore M hM).elim
      rw [hreports, hnone hbefore, reports_none hg hfree]
      rfl

/-! ## what is handed out -/

/-- an answer of the disk manager brings none of these reports -/
theorem report_messageNews {peers : Arrangement PeerId} {msg : DiskMessageOut} {a : NetworkBehaviourAction}
    (h : a ∈ b.messageNews peers msg) : a.report id = none := by
  cases msg with
  | torrentSynced t =>
    rw [List.mem_singleton.mp h]
    rfl
  | readBlockError t err =>
    rw [List.mem_singleton.mp h]
    rfl
  | blockRead t block =>
    obtain ⟨r, -, rfl⟩ := Option.map_eq_some_iff.mp (Option.mem_toList.mp h)
    rfl
  | pieceWritten t block =>
    rw [messageNews] at h
    cases hT : b.torrents.torrents.lookup t with
    | none =>
      rw [hT] at h
      cases h
    | some T =>
      rw [hT] at h
      obtain ⟨p, -, rfl⟩ := List.mem_map.mp h
      rfl
  | _ => cases h

/-- what waits in the queue is none of these reports -/
theorem queue_report {op : BehaviourOp} (hq : ∀ a ∈ b.queuedEvents, a.report id = none)
    (h : b.step fs sha1 op = some b') : ∀ a ∈ b'.queuedEvents, a.report id = none := by
  have hmore : ∀ {actions : List NetworkBehaviourAction}, b'.queuedEvents = b.queuedEvents ++ actions →
      (∀ a ∈ actions, a.report id = none) → ∀ a ∈ b'.queuedEvents, a.report id = none := by
    intro actions heq hactions a ha
    rw [heq] at ha
    rcases List.mem_append.mp ha with ha | ha
    · exact hq a ha
    · exact hactions a ha
  have hpoll : ∀ a : NetworkBehaviourAction, a.ofPoll = false → a.report id = none := by
    intro a ha
    unfold NetworkBehaviourAction.report
    split <;> first | rfl | cases ha
  cases op with
  | popEvent =>
    cases h
    exact fun a ha => hq a (List.mem_of_mem_tail ha)
  | pollPool now e =>
    cases h
    rw [queuedEvents_pollPool]
    exact hq
  | pollDisk e =>
    obtain ⟨r, hr, rfl⟩ := Option.map_eq_some_iff.mp h
    rcases pollDisk_cases hr with ⟨msg, dm, -, -, rfl⟩ | ⟨dm, -, -, rfl⟩
    · -- an answer queues blocks, news of pieces and its own text
      intro a ha
      have hsaid := said_onDiskMessage { b with diskManager := dm } e.peers msg
      have hmem : a ∈ b.queuedEvents ++ messageNews { b with diskManager := dm } e.peers msg := by
        rw [← hsaid]
        exact List.mem_append_left _ ha
      rcases List.mem_append.mp hmem with hmem | hmem
      · exact hq a hmem
      · exact report_messageNews hmem
    · exact hq
  | injectNodeEvent w now peer event =>
    cases h
    obtain ⟨actions, heq, hactions⟩ := queues_event b w now peer event
    exact hmore heq fun a ha => hpoll a (hactions a ha)
  | _ =>
    obtain ⟨actions, heq, hactions⟩ := queues_call rfl (by rintro _ _ _ _ ⟨⟩) h
    exact hmore heq fun a ha => hpoll a (NetworkBehaviourAction.ofPoll_of_ofCall (hactions a ha))

/-- a step sends to the swarm what it reports, unless it is a piece: that goes to the disk -/
theorem report_step (hq : ∀ a ∈ b.queuedEvents, a.report id = none) (op : BehaviourOp) :
    ((b.output fs sha1 op).bind (NetworkBehaviourAction.report id)).toList
        = (b.reports id op).toList.filter (fun r => !r.isPiece) ∧
      ((b.handed sha1 op).bind (DiskMessageIn.report id)).toList = (b.reports id op).toList.filter TorrentReport.isPiece := by
  cases op with
  | popEvent =>
    refine ⟨?_, rfl⟩
    show (b.queuedEvents.head?.bind _).toList = []
    cases hhead : b.queuedEvents.head? with
    | none => rfl
    | some a =>
      rw [Option.bind_some, hq a (List.mem_of_head? hhead)]
      rfl
  | pollPool now e =>
    rw [output, handed, reports]
    unfold pollPool
    split <;> rename_i hpoll <;> rw [hpoll]
    · exact ⟨rfl, rfl⟩
    · exact ⟨rfl, rfl⟩
    · rename_i t block pool
      simp only [TorrentPoolState.piece, TorrentPoolState.report, Option.map_some, Option.bind_some, DiskMessageIn.report]
      split <;> exact ⟨rfl, rfl⟩
    · exact ⟨rfl, rfl⟩
    · exact ⟨rfl, rfl⟩
    · exact ⟨rfl, rfl⟩
    · rename_i t pool
      simp only [Turn.action, TorrentPoolState.report, Option.bind_some, NetworkBehaviourAction.report]
      split <;> exact ⟨rfl, rfl⟩
    · rename_i next pool
      simp only [Turn.action, TorrentPoolState.report, Option.bind_some, NetworkBehaviourAction.report]
      split <;> exact ⟨rfl, rfl⟩
  | pollDisk e =>
    refine ⟨?_, rfl⟩
    show ((Option.bind (b.pollDisk fs sha1 e) _).bind _).toList = []
    cases hr : b.pollDisk fs sha1 e with
    | none => rfl
    | some r =>
      rw [Option.bind_some]
      rcases pollDisk_cases hr with ⟨msg, dm, -, -, rfl⟩ | ⟨dm, -, -, rfl⟩
      · cases haction : (onDiskMessage { b with diskManager := dm } e.peers msg).1.action with
        | none => rfl
        | some a =>
          have hmem : a ∈ messageNews { b with diskManager := dm } e.peers msg := mem_messageNews_of_action haction
          rw [Option.bind_some, report_messageNews hmem]
          rfl
      · rfl
  | injectNodeEvent w now peer event =>
    refine ⟨rfl, ?_⟩
    cases event with
    | getPieceReq request requestId =>
      show (Option.bind ((b.torrents.onPieceRequest w peer (.ofRequest request) requestId).1.map _) _).toList = []
      cases (b.torrents.onPieceRequest w peer (.ofRequest request) requestId).1 <;> rfl
    | _ => rfl
  | addLeech torrent state =>
    refine ⟨rfl, ?_⟩
    show (Option.bind ((b.newTorrent sha1 (.addLeech torrent state)).map _) _).toList = []
    cases b.newTorrent sha1 (.addLeech torrent state) <;> rfl
  | addSeed torrent state =>
    refine ⟨rfl, ?_⟩
    show (Option.bind ((b.newTorrent sha1 (.addSeed torrent state)).map _) _).toList = []
    cases b.newTorrent sha1 (.addSeed torrent state) <;> rfl
  | _ => exact ⟨rfl, rfl⟩

/-- **What a run sends to the swarm and to the disk for a torrent is what it reports of it.** -/
theorem report_trace (id : TorrentId) {random : ShaHash} {world : World} {config : BitTorrentConfig}
    {ops : List BehaviourOp}
    (h : exec (next fs sha1) (some (withConfig random world config)) ops = some b) :
    (trace fs sha1 (some (withConfig random world config)) ops).filterMap (NetworkBehaviourAction.report id)
        = (reportedIn fs sha1 id (some (withConfig random world config)) ops).filter (fun r => !r.isPiece) ∧
    (handedIn fs sha1 (some (withConfig random world config)) ops).filterMap (DiskMessageIn.report id)
        = (reportedIn fs sha1 id (some (withConfig random world config)) ops).filter TorrentReport.isPiece := by
  induction ops using List.reverseRecOn generalizing b with
  | nil => exact ⟨rfl, rfl⟩
  | append_singleton ops op ih =>
    obtain ⟨c, hc, hstep⟩ := exec_snoc_some h
    obtain ⟨htrace, hhanded⟩ := ih hc
    have hq : ∀ a ∈ c.queuedEvents, a.report id = none :=
      exec_some (I := fun b : BitTorrent File World => ∀ a ∈ b.queuedEvents, a.report id = none)
        (fun b b' op hI hstep => queue_report hI hstep) (List.forall_mem_nil _) hc
    obtain ⟨hout, hin⟩ := @report_step _ _ _ fs sha1 c id hq op
    have hlast : trace fs sha1 (some c) [op] = (c.output fs sha1 op).toList := List.append_nil _
    rw [trace_append, hc, hlast, handedIn_snoc, hc, reportedIn_snoc, hc, List.filterMap_append, List.filterMap_append,
      List.filter_append, List.filter_append, htrace, hhanded, Option.bind_some, Option.bind_some, ← hout, ← hin,
      Option.filterMap_toList, Option.filterMap_toList]
    exact ⟨rfl, rfl⟩

end

/-- **Each torrent of a run goes the way of a piece handler.**  A torrent the pool has was added by a call of the run, and
its handler is the one it was configured with after some steps.  What these steps report is, in order, what the run hands
to the swarm for the torrent (the requests for blocks and the end of the download) and to the disk (the pieces); and a bit
is set from outside only for a piece that was written. -/
theorem run_of_torrent (fs : FileSystem File World Err) (sha1 : List UInt8 → ShaHash) (random : ShaHash) (world : World)
    (config : BitTorrentConfig) (ops : List BehaviourOp) (b : BitTorrent File World)
    (hrun : exec (next fs sha1) (some (withConfig random world config)) ops = some b) (id : TorrentId) (T : Torrent)
    (hT : b.torrents.torrents.lookup id = some T) :
    ∃ M op cfg hops, AddedBy fs sha1 (some (withConfig random world config)) ops id M op ∧ op.config sha1 = some cfg ∧
      T.pieceHandler = exec TorrentPieceHandler.step
        (cfg.handler (config.initialPieceSelection.getD .random) id) hops ∧
      (trace fs sha1 (some (withConfig random world config)) ops).filterMap (NetworkBehaviourAction.report id)
        = ((cfg.handler (config.initialPieceSelection.getD .random) id).reported hops).filter (fun r => !r.isPiece) ∧
      (handedIn fs sha1 (some (withConfig random world config)) ops).filterMap (DiskMessageIn.report id)
        = ((cfg.handler (config.initialPieceSelection.getD .random) id).reported hops).filter TorrentReport.isPiece ∧
      ∀ i, .setPiece i ∈ hops → ∃ block,
        .pieceWritten id block ∈ diskAnswers fs sha1 (some (withConfig random world config)) ops ∧
        block.metadata.pieceIndex = i := by
  obtain ⟨M, op, cfg, hops, hadded, hcfg, hlife⟩ := (life_run hrun).1 T hT
  obtain ⟨htrace, hhanded⟩ := report_trace id hrun
  refine ⟨M, op, cfg, hops, hadded, hcfg, hlife.handler, ?_, ?_, hlife.written⟩
  · rw [htrace, ← hlife.reports]
    rfl
  · rw [hhanded, ← hlife.reports]
    rfl

/-- the torrent of one byte asks for its block, completes its piece, and is at its end -/
theorem run_of_torrent_one_byte :
    ∃ h₀ hops, (TorrentPieceHandler.reported h₀ hops).filter (fun r => !r.isPiece)
        = [.request ⟨[7]⟩ ⟨0, 0, 1⟩, .finished] ∧
      (TorrentPieceHandler.reported h₀ hops).filter TorrentReport.isPiece = [.piece ⟨⟨0, 0, 1⟩, [2]⟩] := by
  have htrace : (trace instantDisk firstByte (some (withConfig (.replicate 0) () .default))
      (.addLeech oneByte .active :: wrongByteWritten)).filterMap (NetworkBehaviourAction.report ⟨0⟩)
        = [.request ⟨[7]⟩ ⟨0, 0, 1⟩, .finished] := by decide
  have hhanded : (handedIn instantDisk firstByte (some (withConfig (.replicate 0) () .default))
      (.addLeech oneByte .active :: wrongByteWritten)).filterMap (DiskMessageIn.report ⟨0⟩)
        = [.piece ⟨⟨0, 0, 1⟩, [2]⟩] := by decide
  obtain ⟨M, op, cfg, hops, -, -, -, h1, h2, -⟩ := run_of_torrent instantDisk firstByte (.replicate 0) () .default
    (.addLeech oneByte .active :: wrongByteWritten) _ rfl ⟨0⟩ _ rfl
  exact ⟨_, hops, h1.symm.trans htrace, h2.symm.trans hhanded⟩

end BitTorrent

end Btt
