import BitTorrent.Lib.Ledger
import BitTorrent.Peer.Books
import BitTorrent.Peer.Work

/-!
# What a pool reports of one torrent

A torrent of a pool moves as its piece handler does, and what a poll of the pool reports of the torrent is what that
poll of the handler reports.

* `TorrentReport`  a block that is requested, a piece that is complete, the end of the download;
* `lookup_kept`    no operation takes a torrent out of the pool;
* `Projects`       the torrent stands still and nothing is reported of it, or its handler made a step with this report;
* `project_step`   every torrent follows every operation of the pool in this way.
-/

namespace Btt
open Run

inductive TorrentReport where
  | request (peer : PeerId) (request : PeerRequest)
  | piece (block : Block)
  | finished
deriving DecidableEq

def TorrentReport.isPiece : TorrentReport → Bool
  | .piece _ => true
  | _ => false

def TorrentReport.pieceIndex : TorrentReport → Option Nat
  | .piece block => some block.metadata.pieceIndex
  | _ => none

def HandlerState.report : HandlerState → Option TorrentReport
  | .leechBlock (some next) => some (.request next.peerId next.blockMetadata.toRequest)
  | .pieceFinished (.ok block) => some (.piece block)
  | .finished => some .finished
  | _ => none

/-- what a state of the pool reports of the torrent `id` -/
def TorrentPoolState.report (id : TorrentId) : TorrentPoolState → Option TorrentReport
  | .nextBlock next => if next.torrentId = id then some (.request next.peerId next.blockMetadata.toRequest) else none
  | .pieceReady (.ok (t, block)) => if t = id then some (.piece block) else none
  | .finished t => if t = id then some .finished else none
  | _ => none

namespace TorrentPieceHandler

/-- the reports of the polls of a run -/
def reported (h : TorrentPieceHandler) (ops : List HandlerOp) : List TorrentReport :=
  outputs step (fun h op => (h.result op).bind HandlerState.report) h ops

theorem reported_append (h : TorrentPieceHandler) (a c : List HandlerOp) :
    h.reported (a ++ c) = h.reported a ++ (exec step h a).reported c := outputs_append h a c

theorem reported_snoc (h : TorrentPieceHandler) (ops : List HandlerOp) (op : HandlerOp) :
    h.reported (ops ++ [op]) = h.reported ops ++ (((exec step h ops).result op).bind HandlerState.report).toList :=
  outputs_snoc h ops op

theorem finishedPieces_eq (h : TorrentPieceHandler) (ops : List HandlerOp) :
    h.finishedPieces ops = (h.reported ops).filterMap TorrentReport.pieceIndex := by
  induction ops using List.reverseRecOn with
  | nil => rfl
  | append_singleton ops op ih =>
    have hlast : ((exec step h ops).result op).bind HandlerState.piece
        = (((exec step h ops).result op).bind HandlerState.report).bind TorrentReport.pieceIndex := by
      cases (exec step h ops).result op with
      | none => rfl
      | some st =>
        cases st with
        | leechBlock next => cases next <;> rfl
        | pieceFinished res => cases res <;> rfl
        | _ => rfl
    rw [finishedPieces_snoc, reported_snoc, List.filterMap_append, ih, hlast, Option.filterMap_toList]

/-- a seed reports nothing -/
theorem Seeding.reported {h : TorrentPieceHandler} (hs : h.Seeding) (ops : List HandlerOp) : h.reported ops = [] := by
  induction ops generalizing h with
  | nil => rfl
  | cons op ops ih =>
    obtain ⟨hs', hseed⟩ := hs.step op
    have hnone : (h.result op).bind HandlerState.report = none := by
      cases hr : h.result op with
      | none => rfl
      | some st =>
        rw [hseed st hr]
        rfl
    show ((h.result op).bind HandlerState.report).toList ++ (h.step op).reported ops = []
    rw [hnone, ih hs']
    rfl

theorem get_of_all {f : BitField} (h : f.all = true) {i : Nat} (hi : i < f.len) : f.get i = some true := by
  have hi : i < f.inner.length := hi
  show f.inner[i]? = some true
  rw [List.getElem?_eq_getElem hi]
  exact congrArg some (List.all_eq_true.mp h _ (List.getElem_mem hi))

/-- nothing is reported after the end of the download, and at its end every bit is set -/
theorem reported_finished {h : TorrentPieceHandler} {ops : List HandlerOp} {before after : List TorrentReport}
    (hr : h.reported ops = before ++ .finished :: after) :
    after = [] ∧ ∀ i, i < h.bitfield.len → (exec step h ops).bitfield.get i = some true := by
  induction ops generalizing h before with
  | nil =>
    have hlen := congrArg List.length hr
    rw [List.length_append] at hlen
    cases hlen
  | cons op ops ih =>
    have hr : ((h.result op).bind HandlerState.report).toList ++ (h.step op).reported ops = before ++ .finished :: after := hr
    have hlen : (h.step op).bitfield.len = h.bitfield.len := congrArg (·.2.2.2.2) (h.step_static op)
    rw [exec_cons, ← hlen]
    cases hres : (h.result op).bind HandlerState.report with
    | none =>
      rw [hres] at hr
      exact ih hr
    | some r =>
      rw [hres] at hr
      cases before with
      | cons r' before =>
        rw [Option.toList_some, List.singleton_append, List.cons_append] at hr
        exact ih (List.cons.inj hr).2
      | nil =>
        obtain ⟨rfl, hafter⟩ := List.cons.inj hr
        cases op with
        | poll env =>
          have hst : (h.poll env).1 = .finished := by
            have hst : (h.poll env).1.report = some .finished := hres
            cases hst' : (h.poll env).1 with
            | finished => rfl
            | leechBlock next =>
              rw [hst'] at hst
              cases next <;> cases hst
            | pieceFinished res =>
              rw [hst'] at hst
              cases res <;> cases hst
            | _ =>
              rw [hst'] at hst
              cases hst
          obtain ⟨hall, -, hseed⟩ := seeding_of_finished hst
          refine ⟨hafter.symm.trans (hseed.reported ops), ?_⟩
          intro i hi
          refine exec_inv (I := fun h : TorrentPieceHandler => h.bitfield.get i = some true) (fun _ op h => bit_step h op) ?_ ops
          have hbit : h.bitfield.get i = some true := get_of_all hall (hlen ▸ hi)
          exact bit_step hbit (.poll env)
        | _ => cases hres

/-- where a set bit comes from -/
theorem bit_of_step {h : TorrentPieceHandler} {op : HandlerOp} {i : Nat} (hi : (h.step op).bitfield.get i = some true) :
    h.bitfield.get i = some true ∨ op = .setPiece i ∨ (h.result op).bind HandlerState.piece = some i := by
  have hset : ∀ j, (h.bitfield.set j true).get i = some true → h.bitfield.get i = some true ∨ j = i := by
    intro j hj
    rw [BitField.get_set] at hj
    split at hj
    · rename_i e
      exact Or.inr e
    · exact Or.inl hj
  rcases h.step_cases op with ⟨peers, buffer, e⟩ | ⟨p, m, r, rfl⟩ | ⟨test, e⟩ | ⟨j, rfl⟩ | ⟨env, rfl⟩
  · rw [e] at hi
    exact Or.inl hi
  · exact Or.inl hi
  · rw [e] at hi
    exact Or.inl hi
  · have hi : (h.setPiece j).bitfield.get i = some true := hi
    rw [setPiece_eq] at hi
    rcases hset j hi with hold | rfl
    · exact Or.inl hold
    · exact Or.inr (Or.inl rfl)
  · have hi : (h.poll env).2.bitfield.get i = some true := hi
    show _ ∨ _ ∨ (h.poll env).1.piece = some i
    rcases h.poll_cases env with ⟨_, block, -, -, -, e⟩ | ⟨_, _, -, -, -, e⟩ | ⟨_, -, -, e⟩ | ⟨_, -, -, e⟩ |
      ⟨-, _, -, e⟩ | ⟨-, e⟩ <;> rw [e] at hi ⊢
    · rcases hset _ hi with hold | heq
      · exact Or.inl hold
      · exact Or.inr (Or.inr (congrArg some heq))
    all_goals exact Or.inl hi

theorem bit_of_exec {h : TorrentPieceHandler} {ops : List HandlerOp} {i : Nat}
    (hi : (exec step h ops).bitfield.get i = some true) :
    h.bitfield.get i = some true ∨ .setPiece i ∈ ops ∨ i ∈ h.finishedPieces ops := by
  induction ops using List.reverseRecOn with
  | nil => exact Or.inl hi
  | append_singleton ops op ih =>
    rw [exec_snoc] at hi
    rw [finishedPieces_snoc]
    rcases bit_of_step hi with hold | rfl | hpiece
    · rcases ih hold with h1 | h1 | h1
      · exact Or.inl h1
      · exact Or.inr (Or.inl (List.mem_append_left _ h1))
      · exact Or.inr (Or.inr (List.mem_append_left _ h1))
    · exact Or.inr (Or.inl (List.mem_append_right _ List.mem_cons_self))
    · rw [hpiece]
      exact Or.inr (Or.inr (List.mem_append_right _ List.mem_cons_self))

/-- a block that is requested is of this torrent -/
theorem torrentId_of_leechBlock {h : TorrentPieceHandler} (hs : h.Solid) {env : PollEnv} {next : NextBlock}
    (hp : (h.poll env).1 = .leechBlock (some next)) : next.torrentId = h.id := by
  have hnext : ∀ b : PieceBuffer, b.next.1 = some next → next.torrentId = b.torrentId := by
    intro b hb
    rcases b.next_cases with ⟨peers, peer, missing, block, -, -, e⟩ | e <;> rw [e] at hb <;> cases hb
    rfl
  rcases h.poll_cases env with ⟨_, _, -, -, -, e⟩ | ⟨_, _, -, -, -, e⟩ | ⟨b, hb, -, e⟩ | ⟨b, -, hn, e⟩ |
    ⟨-, st, hst, e⟩ | ⟨-, e⟩ <;> rw [e] at hp
  · cases hp
  · cases hp
  · exact (hnext b (HandlerState.leechBlock.inj hp)).trans (hs b hb).2.2.1
  · obtain ⟨i, peers, -, -, rfl⟩ := nextPieceBuffer_spec hn
    exact hnext _ (HandlerState.leechBlock.inj hp)
  · rcases hst with rfl | rfl <;> cases hp
  · cases hp

end TorrentPieceHandler

namespace Torrent
variable {t : Torrent} {now clock : Instant} {env : PollEnv}

/-- the pool passes on what the handler reports, under the id of the torrent -/
theorem report_outcome (hs : t.pieceHandler.Solid) (hkey : t.pieceHandler.id = t.id) (id : TorrentId) :
    (outcome t.id (t.pieceHandler.poll env).1).report id
      = if t.id = id then (t.pieceHandler.poll env).1.report else none := by
  cases hp : (t.pieceHandler.poll env).1 with
  | leechBlock next =>
    cases next with
    | none =>
      exact (ite_self _).symm
    | some next =>
      rw [outcome, TorrentPoolState.report, TorrentPieceHandler.torrentId_of_leechBlock hs hp, hkey]
      rfl
  | pieceFinished res =>
    cases res with
    | ok block => rfl
    | error err =>
      exact (ite_self _).symm
  | finished => rfl
  | waitingPeers =>
    exact (ite_self _).symm
  | seed =>
    exact (ite_self _).symm

/-- a poll reports nothing of another torrent -/
theorem report_poll_other (hs : t.pieceHandler.Solid) (hkey : t.pieceHandler.id = t.id) {id : TorrentId}
    (hne : t.id ≠ id) : (t.poll now clock env).1.report id = none := by
  rcases t.poll_cases now clock env with ⟨p, e⟩ | ⟨p, e⟩ | ⟨sl, e⟩ <;> rw [e]
  · rfl
  · rfl
  · rw [report_outcome hs hkey, if_neg hne]

end Torrent

namespace TorrentPool
variable {pool : TorrentPool} {id : TorrentId}

/-! ## no torrent is lost -/

theorem walk_kept {α : Type} (pool : TorrentPool) (w : Walk) (f : Torrent → Option α × Torrent) {id : TorrentId}
    {T : Torrent} (hT : pool.torrents.lookup id = some T) : ∃ T', (pool.walk w f).2.torrents.lookup id = some T' := by
  rcases AList.lookup_walk _ (AList.lists_run w pool.torrents) id with e | ⟨pre, S, post, -, -, e⟩
  · exact ⟨T, e.trans hT⟩
  · exact ⟨_, e⟩

theorem modify_kept {α : Type} (pool : TorrentPool) (t : TorrentId) (f : Torrent → α × Torrent) {id : TorrentId}
    {T : Torrent} (hT : pool.torrents.lookup id = some T) : ∃ T', (pool.modify t f).2.torrents.lookup id = some T' := by
  rw [lookup_modify, hT]
  split <;> exact ⟨_, rfl⟩

theorem insert_kept {m : Torrents} {id t : TorrentId} {S T : Torrent} (hT : m.lookup id = some T) :
    ∃ T', (m.insert t S).lookup id = some T' := by
  rw [AList.lookup_insert_eq]
  split
  · exact ⟨S, rfl⟩
  · exact ⟨T, hT⟩

/-- no operation takes a torrent out of the pool -/
theorem lookup_kept {pool : TorrentPool} {id : TorrentId} {T : Torrent} (hT : pool.torrents.lookup id = some T)
    (op : PoolOp) : ∃ T', (pool.step op).torrents.lookup id = some T' := by
  cases op with
  | addTorrent config =>
    show ∃ T', (pool.addTorrent config).2.torrents.lookup id = some T'
    rcases pool.addTorrent_cases config with ⟨e, -⟩ | ⟨-, e⟩ <;> rw [e]
    · exact ⟨T, hT⟩
    · exact insert_kept hT
  | onHandshakeRequest w p hs now =>
    show ∃ T', (pool.onHandshakeRequest w p hs now).2.torrents.lookup id = some T'
    unfold onHandshakeRequest
    split
    · exact ⟨T, hT⟩
    · simp only
      split <;> exact walk_kept pool w _ hT
  | onHandshakeResponse p t hs now =>
    show ∃ T', (pool.onHandshakeResponse p t hs now).2.torrents.lookup id = some T'
    unfold onHandshakeResponse
    split
    · split
      · exact insert_kept hT
      · exact ⟨T, hT⟩
    · exact ⟨T, hT⟩
  | onKeepAliveByRemote w p t =>
    show ∃ T', (pool.onKeepAliveByRemote w p t).2.torrents.lookup id = some T'
    unfold onKeepAliveByRemote
    simp only
    split <;> exact walk_kept pool w _ hT
  | onInterestByRemote w p i =>
    show ∃ T', (pool.onInterestByRemote w p i).2.torrents.lookup id = some T'
    unfold onInterestByRemote
    simp only
    split
    · split <;> exact walk_kept pool w _ hT
    · exact walk_kept pool w _ hT
  | setClientInterest t p i => exact modify_kept pool t (·.setClientInterest p i) hT
  | onBlockResponse t p piece => exact modify_kept pool t (·.addBlock p (Block.ofPiece piece)) hT
  | onBlockRead t m => exact modify_kept pool t (fun t => t.handle (·.clearPendingSeedBlock m)) hT
  | setPeerBitfield p t f => exact modify_kept pool t (fun t => t.handle (·.setPeerBitfield p f)) hT
  | setPiece t i => exact modify_kept pool t (fun t => ((), t.setPiece i)) hT
  | unchokeRemote w p => exact walk_kept pool w _ hT
  | chokeRemote w p => exact walk_kept pool w _ hT
  | onChokeByRemote w p c => exact walk_kept pool w _ hT
  | onPieceRequest w p m r => exact walk_kept pool w _ hT
  | onCancelRequest w r => exact walk_kept pool w _ hT
  | onRemoteHave w p i => exact walk_kept pool w _ hT
  | onBitfieldRequest w p f => exact walk_kept pool w _ hT
  | removePeer w p => exact walk_kept pool w _ hT
  | poll w now clock env => exact walk_kept pool w _ hT

/-! ## one torrent -/

/-- what an operation of the pool reports of the torrent `id` -/
def report (pool : TorrentPool) (id : TorrentId) : PoolOp → Option TorrentReport
  | .poll w now clock env => (pool.poll w now clock env).1.report id
  | _ => none

/-- the torrent stands still, or its handler makes a step; and that is what is reported of it -/
def Projects (pool : TorrentPool) (id : TorrentId) (op : PoolOp) (T T' : Torrent) : Prop :=
  (T'.pieceHandler = T.pieceHandler ∧ pool.report id op = none) ∨
    ∃ hop, pool.Does id op hop ∧ T'.pieceHandler = T.pieceHandler.step hop ∧
      (T.pieceHandler.result hop).bind HandlerState.report = pool.report id op

section
variable (hg : ∀ id T, pool.torrents.lookup id = some T → pool.Grounded id T)
include hg

/-- a torrent that the poll visits moves with what it has to report -/
theorem project_visit {w : Walk} {now clock : Instant} {env : TorrentId → PollEnv} {T : Torrent}
    (hT : pool.torrents.lookup id = some T)
    (hreport : (T.poll now clock (env T.id)).1.report id = (pool.poll w now clock env).1.report id) :
    pool.Projects id (.poll w now clock env) T (T.poll now clock (env T.id)).2 := by
  obtain ⟨-, rfl, hhandler, hsolid⟩ := hg id T hT
  rw [Projects, report, ← hreport]
  rcases T.poll_cases now clock (env T.id) with ⟨p, e⟩ | ⟨p, e⟩ | ⟨sl, e⟩ <;> rw [e]
  · exact Or.inr ⟨.setClientHeartbeat p clock, Or.inr ⟨p, rfl⟩, rfl, rfl⟩
  · exact Or.inl ⟨rfl, rfl⟩
  · refine Or.inr ⟨.poll (env T.id), Or.inl ⟨T.id, rfl⟩, rfl, ?_⟩
    rw [Torrent.report_outcome hsolid hhandler, if_pos rfl]
    rfl

/-- what a poll reports of a torrent it reports when it reaches the torrent -/
theorem reached_of_report {w : Walk} {now clock : Instant} {env : TorrentId → PollEnv} {r : TorrentReport}
    (h : (pool.poll w now clock env).1.report id = some r) :
    ∃ pre T post, w.run pool.torrents.entries = pre ++ ⟨id, T⟩ :: post ∧
      (∀ e ∈ pre, (e.2.visit now clock env).1 = none) ∧ pool.torrents.lookup id = some T ∧ T.isActive = true ∧
      (T.poll now clock (env T.id)).1 = (pool.poll w now clock env).1 := by
  have hst : (pool.poll w now clock env).1 ≠ .idle := by
    intro hidle
    rw [hidle] at h
    cases h
  obtain ⟨pre, id', T, post, hrun, hpre, hT, hact, hpoll⟩ := poll_answer rfl hst
  obtain ⟨-, hkey, hhandler, hsolid⟩ := hg id' T hT
  have hid : T.id = id := by
    by_contra hne
    rw [← hpoll, Torrent.report_poll_other hsolid (hhandler.trans hkey.symm) hne] at h
    cases h
  obtain rfl : id' = id := hkey.symm.trans hid
  exact ⟨pre, T, post, hrun, hpre, hT, hact, hpoll⟩

theorem project_poll {w : Walk} {now clock : Instant} {env : TorrentId → PollEnv} {T' : Torrent}
    (h : (pool.poll w now clock env).2.torrents.lookup id = some T') :
    ∃ T, pool.torrents.lookup id = some T ∧ pool.Projects id (.poll w now clock env) T T' := by
  cases hr : (pool.poll w now clock env).1.report id with
  | some r =>
    obtain ⟨pre, T, post, hrun, hpre, hT, hact, hpoll⟩ := reached_of_report hg hr
    obtain rfl : (T.visit now clock env).2 = T' := Option.some.inj ((lookup_poll_reached hrun hpre).symm.trans h)
    refine ⟨T, hT, ?_⟩
    rcases T.visit_cases now clock env with ⟨hinact, -⟩ | ⟨-, hv, -⟩
    · cases hinact.symm.trans hact
    · rw [hv]
      exact project_visit hg hT (congrArg (TorrentPoolState.report id) hpoll)
  | none =>
    rcases lookup_poll h with hT | ⟨pre, T, post, hrun, hpre, hT, rfl⟩
    · exact ⟨T', hT, Or.inl ⟨rfl, hr⟩⟩
    · refine ⟨T, hT, ?_⟩
      rcases T.visit_cases now clock env with ⟨-, hv⟩ | ⟨-, hv, hans⟩ <;> rw [hv]
      · exact Or.inl ⟨rfl, hr⟩
      · refine project_visit hg hT ?_
        rcases hans with hans | ⟨-, hidle | ⟨t, hwait⟩⟩
        · rw [poll_eq hrun hpre hans]
        · rw [hidle, hr]
          rfl
        · rw [hwait, hr]
          rfl

/-- **Every torrent follows every operation**, and only a poll reports something of it. -/
theorem project_step {op : PoolOp} {T' : Torrent} (h : (pool.step op).torrents.lookup id = some T') :
    (∃ T, pool.torrents.lookup id = some T ∧ pool.Projects id op T T') ∨
      ∃ config, op = .addTorrent config ∧ id = ⟨pool.nextUniqueTorrent⟩ ∧
        T'.pieceHandler = .new id pool.initialPieceSelectionStrategy config.bitfield config.pieceLength
          config.lastPieceLength := by
  by_cases hop : ∃ w now clock env, op = .poll w now clock env
  · obtain ⟨w, now, clock, env, rfl⟩ := hop
    exact Or.inl (project_poll hg h)
  · have hquiet : pool.report id op = none := by
      cases op with
      | poll w now clock env => exact (hop ⟨w, now, clock, env, rfl⟩).elim
      | _ => rfl
    rcases lookup_step h with ⟨T, hT, hfol⟩ | ⟨config, rfl, hid, -, -, rfl⟩
    · refine Or.inl ⟨T, hT, ?_⟩
      rcases hfol.handler with e | ⟨hop', hdoes, e⟩
      · exact Or.inl ⟨e, hquiet⟩
      · refine Or.inr ⟨hop', hdoes, e, ?_⟩
        have hresult : T.pieceHandler.result hop' = none := by
          cases hop' with
          | poll env => exact (hop (does_poll hdoes)).elim
          | _ => rfl
        rw [hresult, hquiet]
        rfl
    · exact Or.inr ⟨config, rfl, hid, rfl⟩

/-- nothing is reported of a torrent that is not there -/
theorem report_none (h : pool.torrents.lookup id = none) (op : PoolOp) : pool.report id op = none := by
  cases op with
  | poll w now clock env =>
    cases hr : (pool.poll w now clock env).1.report id with
    | none => exact hr
    | some r =>
      obtain ⟨-, T, -, -, -, hT, -, -⟩ := reached_of_report hg hr
      rw [h] at hT
      cases hT
  | _ => rfl

end

end TorrentPool

end Btt
