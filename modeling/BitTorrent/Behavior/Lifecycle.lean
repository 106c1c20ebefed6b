import BitTorrent.Behavior.Projection
import BitTorrent.Disk.Accounting

/-!
# The life of a torrent

A torrent that is leeched hands each of its pieces to the disk once, reports its end once and then is silent.

* `AddedBy.unique`     a torrent is added by one call;
* `life_of_added`      so its handler started with the configuration of that call;
* `handedPieces`       the pieces of a torrent that a run hands over to be written, each once;
* `download_once`      the life of a leeched torrent.
-/

namespace Btt
open Run

/-- a piece of the torrent `id` that is handed over to be written -/
def DiskMessageIn.pieceOf (id : TorrentId) : DiskMessageIn → Option Nat
  | .writeBlock t block => if t = id then some block.metadata.pieceIndex else none
  | _ => none

/-- the report that the torrent `id` is complete -/
def NetworkBehaviourAction.finishes (id : TorrentId) : NetworkBehaviourAction → Bool
  | .generateEvent (.torrentFinished t) => t = id
  | _ => false

theorem DiskMessageIn.pieceOf_eq (id : TorrentId) (msg : DiskMessageIn) :
    msg.pieceOf id = (msg.report id).bind TorrentReport.pieceIndex := by
  cases msg with
  | writeBlock t block =>
    rw [pieceOf, report]
    split <;> rfl
  | _ => rfl

theorem NetworkBehaviourAction.finishes_iff {id : TorrentId} {a : NetworkBehaviourAction} :
    a.finishes id = true ↔ a = .generateEvent (.torrentFinished id) := by
  constructor
  · intro h
    unfold finishes at h
    split at h
    · rw [of_decide_eq_true h]
    · cases h
  · rintro rfl
    exact decide_eq_true rfl

theorem NetworkBehaviourAction.report_finished_iff {id : TorrentId} {a : NetworkBehaviourAction} :
    a.report id = some .finished ↔ a.finishes id = true := by
  rw [finishes_iff]
  constructor
  · intro h
    unfold report at h
    split at h
    · split at h <;> cases h
    · split at h
      · rename_i ht
        rw [ht]
      · cases h
    · cases h
  · rintro rfl
    exact if_pos rfl

namespace BitTorrent
variable {File World Err : Type}

/-- the pieces of the torrent `id` that a run hands over to be written -/
def handedPieces (fs : FileSystem File World Err) (sha1 : List UInt8 → ShaHash) (id : TorrentId)
    (s : Option (BitTorrent File World)) (ops : List BehaviourOp) : List Nat :=
  (handedIn fs sha1 s ops).filterMap (DiskMessageIn.pieceOf id)

section
variable {fs : FileSystem File World Err} {sha1 : List UInt8 → ShaHash} {b b' : BitTorrent File World} {id : TorrentId}

/-! ## the call that adds a torrent -/

/-- no step takes a torrent out of the pool -/
theorem lookup_kept {op : BehaviourOp} (h : b.step fs sha1 op = some b') {T : Torrent}
    (hT : b.torrents.torrents.lookup id = some T) : ∃ T', b'.torrents.torrents.lookup id = some T' := by
  rw [torrents_step h]
  exact exec_inv (I := fun pool : TorrentPool => ∃ T, pool.torrents.lookup id = some T)
    (fun pool op ⟨T, hT⟩ => TorrentPool.lookup_kept hT op) ⟨T, hT⟩ _

/-- a torrent that is added is in the pool from then on -/
theorem AddedBy.lookup {s : Option (BitTorrent File World)} {ops : List BehaviourOp} {M : MetaInfo} {op : BehaviourOp}
    (h : AddedBy fs sha1 s ops id M op) (hrun : exec (next fs sha1) s ops = some b) :
    ∃ T, b.torrents.torrents.lookup id = some T := by
  obtain ⟨pre, post, c, rfl, hc, hnew⟩ := h
  rw [exec_append, hc, exec_cons] at hrun
  have hstep : ∃ d, c.step fs sha1 op = some d := by
    cases hd : c.step fs sha1 op with
    | some d => exact ⟨d, rfl⟩
    | none =>
      rw [next_some, hd] at hrun
      have hstuck : exec (next fs sha1) (none : Option (BitTorrent File World)) post = none :=
        exec_inv (I := (· = none)) (fun s op hs => by rw [hs]; rfl) rfl post
      rw [hstuck] at hrun
      cases hrun
  obtain ⟨d, hd⟩ := hstep
  rw [next_some, hd] at hrun
  have hadded : ∃ T, d.torrents.torrents.lookup id = some T := by
    cases hop : op.isAdd with
    | false =>
      rw [newTorrent_of_not_add hop] at hnew
      cases hnew
    | true =>
      obtain ⟨torrent, config, added, hnew', rfl⟩ := step_add hop hd
      rw [hnew] at hnew'
      unfold takes at hnew'
      unfold addTorrent
      rcases c.torrents.addTorrent_cases config with ⟨e, -⟩ | ⟨-, e⟩ <;> rw [e] at hnew' ⊢
      · cases hnew'
      · cases hnew'
        exact ⟨_, AList.lookup_insert _⟩
  exact exec_some (I := fun b : BitTorrent File World => ∃ T, b.torrents.torrents.lookup id = some T)
    (fun b b' op ⟨T, hT⟩ hstep => lookup_kept hstep hT) hadded hrun

/-- the counter of the pool goes on after an add -/
theorem AddedBy.below {s : Option (BitTorrent File World)} {ops : List BehaviourOp} {M : MetaInfo} {op : BehaviourOp}
    (h : AddedBy fs sha1 s ops id M op) (hrun : exec (next fs sha1) s ops = some b)
    (hb : b.Grounded) : id.val < b.torrents.nextUniqueTorrent := by
  obtain ⟨T, hT⟩ := h.lookup hrun
  exact (hb id T hT).below

/-- a new torrent gets the next id -/
theorem newTorrent_fresh {op : BehaviourOp} {x : TorrentId × MetaInfo} (h : b.newTorrent sha1 op = some x) :
    x.1 = ⟨b.torrents.nextUniqueTorrent⟩ := by
  have htakes : ∀ M cfg, b.takes M cfg = some x → x.1 = ⟨b.torrents.nextUniqueTorrent⟩ := by
    intro M cfg ht
    rcases b.takes_cases M cfg .newLeech with ⟨e, -⟩ | ⟨e, -⟩ <;> rw [ht] at e <;> cases e
    rfl
  cases op with
  | addLeech torrent st =>
    obtain ⟨cfg, -, h⟩ := Option.bind_eq_some_iff.mp h
    exact htakes torrent cfg h
  | addSeed torrent st =>
    obtain ⟨cfg, -, h⟩ := Option.bind_eq_some_iff.mp h
    exact htakes torrent cfg h
  | _ => cases h

/-- **A torrent is added by one call.** -/
theorem AddedBy.unique {random : ShaHash} {world : World} {config : BitTorrentConfig} {ops : List BehaviourOp}
    {M M' : MetaInfo} {op op' : BehaviourOp} (h : AddedBy fs sha1 (some (withConfig random world config)) ops id M op)
    (h' : AddedBy fs sha1 (some (withConfig random world config)) ops id M' op') : op = op' := by
  -- an add that comes after another one gives away a later id
  have hlate : ∀ (pre post : List BehaviourOp) (c : BitTorrent File World) (M M' : MetaInfo) (op op' : BehaviourOp),
      AddedBy fs sha1 (some (withConfig random world config)) pre id M op →
      exec (next fs sha1) (some (withConfig random world config)) pre = some c →
      c.newTorrent sha1 op' = some (id, M') → False := by
    intro pre post c M M' op op' hadded hc hnew
    have hlt := hadded.below hc (agrees_run hc).grounded
    have hid : id = ⟨c.torrents.nextUniqueTorrent⟩ := newTorrent_fresh hnew
    rw [hid] at hlt
    exact Nat.lt_irrefl _ hlt
  obtain ⟨pre, post, c, rfl, hc, hnew⟩ := h
  obtain ⟨pre', post', c', heq, hc', hnew'⟩ := h'
  rcases List.append_eq_append_iff.mp heq with ⟨mid, rfl, hmid⟩ | ⟨mid, rfl, hmid⟩
  · cases mid with
    | nil => exact (List.cons.inj hmid).1
    | cons o mid =>
      obtain ⟨rfl, rfl⟩ := List.cons.inj hmid
      exact (hlate _ post' c' M M' op op' ⟨pre, mid, c, rfl, hc, hnew⟩ hc' hnew').elim
  · cases mid with
    | nil => exact (List.cons.inj hmid).1.symm
    | cons o mid =>
      obtain ⟨rfl, rfl⟩ := List.cons.inj hmid
      exact (hlate _ post c M' M op' op ⟨pre', mid, c', rfl, hc', hnew'⟩ hc hnew).elim

/-- the handler of a torrent started with the configuration of the call that added it -/
theorem life_of_added {random : ShaHash} {world : World} {config : BitTorrentConfig} {ops : List BehaviourOp}
    {M : MetaInfo} {op : BehaviourOp} (h : AddedBy fs sha1 (some (withConfig random world config)) ops id M op)
    (hrun : exec (next fs sha1) (some (withConfig random world config)) ops = some b) :
    ∃ T cfg hops, b.torrents.torrents.lookup id = some T ∧ op.config sha1 = some cfg ∧
      Life fs sha1 (some (withConfig random world config)) ops id
        (cfg.handler (TorrentPool.new random config).initialPieceSelectionStrategy id) hops T.pieceHandler := by
  obtain ⟨T, hT⟩ := h.lookup hrun
  obtain ⟨M', op', cfg, hops, hadded, hcfg, hlife⟩ := (life_run hrun).1 T hT
  obtain rfl := h.unique hadded
  exact ⟨T, cfg, hops, hT, hcfg, hlife⟩

/-! ## what is handed over -/

theorem handedPieces_eq {random : ShaHash} {world : World} {config : BitTorrentConfig} {ops : List BehaviourOp}
    (hrun : exec (next fs sha1) (some (withConfig random world config)) ops = some b) :
    handedPieces fs sha1 id (some (withConfig random world config)) ops
      = (reportedIn fs sha1 id (some (withConfig random world config)) ops).filterMap TorrentReport.pieceIndex := by
  have hpieces : ∀ l : List TorrentReport, (l.filter TorrentReport.isPiece).filterMap TorrentReport.pieceIndex
      = l.filterMap TorrentReport.pieceIndex := by
    intro l
    rw [List.filterMap_filter]
    congr 1
    funext r
    cases r <;> rfl
  rw [← hpieces, ← (report_trace id hrun).2, List.filterMap_filterMap, handedPieces]
  congr 1
  funext msg
  exact msg.pieceOf_eq id

/-- **No piece is handed over twice.** -/
theorem handedPieces_nodup {random : ShaHash} {world : World} {config : BitTorrentConfig} {ops : List BehaviourOp}
    {M : MetaInfo} {op : BehaviourOp} (h : AddedBy fs sha1 (some (withConfig random world config)) ops id M op)
    (hrun : exec (next fs sha1) (some (withConfig random world config)) ops = some b) :
    (handedPieces fs sha1 id (some (withConfig random world config)) ops).Nodup := by
  obtain ⟨T, cfg, hops, -, -, hlife⟩ := life_of_added h hrun
  rw [handedPieces_eq hrun, ← hlife.reports, ← TorrentPieceHandler.finishedPieces_eq]
  exact (TorrentPieceHandler.progress_exec id (TorrentPool.new random config).initialPieceSelectionStrategy
    cfg.bitfield cfg.pieceLength cfg.lastPieceLength hops).once

/-- a piece that was written was handed over -/
theorem handed_of_written {random : ShaHash} {world : World} {config : BitTorrentConfig} {ops : List BehaviourOp}
    (hrun : exec (next fs sha1) (some (withConfig random world config)) ops = some b) {block : Block}
    (h : .pieceWritten id block ∈ diskAnswers fs sha1 (some (withConfig random world config)) ops) :
    block.metadata.pieceIndex ∈ handedPieces fs sha1 id (some (withConfig random world config)) ops := by
  have ha := disk_inv (I := DiskManager.Accounted) (fun ins outs dm op out dm' hI hm => hI.moved hm)
    (DiskManager.accounted_withCapacity world 100) hrun
  obtain ⟨msg, hmsg, hanswers⟩ := ha.ledger.exists_call h
  cases msg with
  | writeBlock t written =>
    obtain ⟨rfl, hmeta⟩ := hanswers
    refine List.mem_filterMap.mpr ⟨_, hmsg, ?_⟩
    rw [hmeta, DiskMessageIn.pieceOf, if_pos rfl]
  | _ => cases hanswers

/-- the reports of a torrent end with its end -/
theorem silent_after_end {h₀ : TorrentPieceHandler} {hops : List HandlerOp} {reports more : List TorrentReport}
    (hreported : h₀.reported hops = reports ++ more) (hend : .finished ∈ reports) :
    more = [] ∧ ∀ i, i < h₀.bitfield.len → (exec TorrentPieceHandler.step h₀ hops).bitfield.get i = some true := by
  obtain ⟨before, after, rfl⟩ := List.append_of_mem hend
  rw [List.append_assoc, List.cons_append] at hreported
  obtain ⟨hnil, hall⟩ := TorrentPieceHandler.reported_finished hreported
  exact ⟨(List.append_eq_nil_iff.mp hnil).2, hall⟩

theorem count_finished_le (h₀ : TorrentPieceHandler) (hops : List HandlerOp) :
    (h₀.reported hops).count .finished ≤ 1 := by
  by_cases hend : .finished ∈ h₀.reported hops
  · obtain ⟨before, after, heq, hnot⟩ := List.eq_append_cons_of_mem hend
    obtain ⟨rfl, -⟩ := TorrentPieceHandler.reported_finished heq
    rw [heq, List.count_append, List.count_eq_zero_of_not_mem hnot, Nat.zero_add, List.count_singleton_self]
  · rw [List.count_eq_zero_of_not_mem hend]
    exact Nat.zero_le 1

theorem countP_finishes (actions : List NetworkBehaviourAction) :
    actions.countP (NetworkBehaviourAction.finishes id)
      = (actions.filterMap (NetworkBehaviourAction.report id)).count .finished := by
  induction actions with
  | nil => rfl
  | cons a actions ih =>
    rw [List.countP_cons, List.filterMap_cons, ih]
    cases hr : a.report id with
    | none =>
      have hnot : ¬ a.finishes id = true := by
        rw [← NetworkBehaviourAction.report_finished_iff, hr]
        rintro ⟨⟩
      rw [if_neg hnot, Nat.add_zero]
    | some r =>
      simp only [List.count_cons, ← NetworkBehaviourAction.report_finished_iff, hr, Option.some.injEq, beq_iff_eq]

/-- a torrent that is leeched has no piece at the start -/
theorem clear_of_newLeech {M : MetaInfo} {st : TorrentState} {cfg : TorrentConfig}
    (h : TorrentConfig.newLeech sha1 M st = some cfg) :
    cfg.bitfield.len = M.info.pieces.length ∧ ∀ i, cfg.bitfield.get i ≠ some true := by
  obtain ⟨last, -, rfl⟩ := Option.map_eq_some_iff.mp h
  refine ⟨List.length_replicate, ?_⟩
  intro i hi
  have hmem : true ∈ List.replicate M.info.pieces.length false := List.mem_of_getElem? hi
  cases (List.mem_replicate.mp hmem).2

/-- what a leeched torrent owns it has handed over -/
theorem owned_iff_handed {random : ShaHash} {world : World} {config : BitTorrentConfig} {ops : List BehaviourOp}
    (hrun : exec (next fs sha1) (some (withConfig random world config)) ops = some b) {cfg : TorrentConfig}
    (hclear : ∀ i, cfg.bitfield.get i ≠ some true) {hops : List HandlerOp} {T : Torrent}
    (hlife : Life fs sha1 (some (withConfig random world config)) ops id
      (cfg.handler (TorrentPool.new random config).initialPieceSelectionStrategy id) hops T.pieceHandler) (i : Nat) :
    T.bitfield.get i = some true ↔ i ∈ handedPieces fs sha1 id (some (withConfig random world config)) ops := by
  show T.pieceHandler.bitfield.get i = some true ↔ _
  rw [hlife.handler, handedPieces_eq hrun, ← hlife.reports, ← TorrentPieceHandler.finishedPieces_eq]
  constructor
  · intro hi
    rcases TorrentPieceHandler.bit_of_exec hi with hstart | hset | hdone
    · exact (hclear i hstart).elim
    · obtain ⟨block, hwritten, rfl⟩ := hlife.written i hset
      have hhanded := handed_of_written hrun hwritten
      rw [handedPieces_eq hrun, ← hlife.reports, ← TorrentPieceHandler.finishedPieces_eq] at hhanded
      exact hhanded
    · exact hdone
  · exact (TorrentPieceHandler.progress_exec id (TorrentPool.new random config).initialPieceSelectionStrategy
      cfg.bitfield cfg.pieceLength cfg.lastPieceLength hops).owned i

/-- after its end nothing is reported of a torrent -/
theorem reportedIn_after_end {random : ShaHash} {world : World} {config : BitTorrentConfig} {ops : List BehaviourOp}
    {M : MetaInfo} {op : BehaviourOp} (h : AddedBy fs sha1 (some (withConfig random world config)) ops id M op)
    (hrun : exec (next fs sha1) (some (withConfig random world config)) ops = some b)
    (hend : .finished ∈ reportedIn fs sha1 id (some (withConfig random world config)) ops) {more : List BehaviourOp}
    (hmore : exec (next fs sha1) (some b) more = some b') : reportedIn fs sha1 id (some b) more = [] := by
  have hlong : exec (next fs sha1) (some (withConfig random world config)) (ops ++ more) = some b' := by
    rw [exec_append, hrun, hmore]
  obtain ⟨T, cfg, hops, -, -, hlife⟩ := life_of_added (h.append more) hlong
  have hsplit : reportedIn fs sha1 id (some (withConfig random world config)) (ops ++ more)
      = reportedIn fs sha1 id (some (withConfig random world config)) ops ++ reportedIn fs sha1 id (some b) more := by
    rw [reportedIn, outputs_append, hrun]
    rfl
  exact (silent_after_end (hlife.reports.trans hsplit) hend).1

/-- what a later part of a run hands out for a torrent that reports nothing -/
theorem quiet_of_reportedIn {random : ShaHash} {world : World} {config : BitTorrentConfig} {ops more : List BehaviourOp}
    (hrun : exec (next fs sha1) (some (withConfig random world config)) ops = some b)
    (hmore : exec (next fs sha1) (some b) more = some b') (hquiet : reportedIn fs sha1 id (some b) more = []) :
    (∀ a ∈ trace fs sha1 (some b) more, a.report id = none) ∧
      ∀ msg ∈ handedIn fs sha1 (some b) more, msg.report id = none := by
  have hlong : exec (next fs sha1) (some (withConfig random world config)) (ops ++ more) = some b' := by
    rw [exec_append, hrun, hmore]
  have hsplit : reportedIn fs sha1 id (some (withConfig random world config)) (ops ++ more)
      = reportedIn fs sha1 id (some (withConfig random world config)) ops := by
    rw [reportedIn, outputs_append, hrun]
    exact (congrArg _ hquiet).trans (List.append_nil _)
  obtain ⟨htrace, hhanded⟩ := report_trace id hrun
  obtain ⟨htrace', hhanded'⟩ := report_trace id hlong
  rw [hsplit, ← htrace, trace_append, hrun, List.filterMap_append, List.append_right_eq_self] at htrace'
  rw [hsplit, ← hhanded, handedIn_append, hrun, List.filterMap_append, List.append_right_eq_self] at hhanded'
  exact ⟨fun a ha => List.filterMap_eq_nil_iff.mp htrace' a ha, fun msg hmsg => List.filterMap_eq_nil_iff.mp hhanded' msg hmsg⟩

end

/-- **A download is made once.**  The pieces a leeched torrent hands to the disk in a run are pairwise distinct, and they
are the pieces it owns.  Its end is reported at most once; by then it has handed over each piece of its metainfo exactly
once, and from then on it asks for no block and hands over no piece to the disk any more.  (The write of the last piece
may end after the report.) -/
theorem download_once (fs : FileSystem File World Err) (sha1 : List UInt8 → ShaHash) (random : ShaHash) (world : World)
    (config : BitTorrentConfig) (ops : List BehaviourOp) (b : BitTorrent File World)
    (hrun : exec (next fs sha1) (some (withConfig random world config)) ops = some b) (id : TorrentId) (M : MetaInfo)
    (st : TorrentState) (hadd : AddedBy fs sha1 (some (withConfig random world config)) ops id M (.addLeech M st)) :
    (handedPieces fs sha1 id (some (withConfig random world config)) ops).Nodup ∧
    (∀ T, b.torrents.torrents.lookup id = some T → ∀ i, T.bitfield.get i = some true ↔
      i ∈ handedPieces fs sha1 id (some (withConfig random world config)) ops) ∧
    (trace fs sha1 (some (withConfig random world config)) ops).countP (NetworkBehaviourAction.finishes id) ≤ 1 ∧
    (.generateEvent (.torrentFinished id) ∈ trace fs sha1 (some (withConfig random world config)) ops →
      (handedPieces fs sha1 id (some (withConfig random world config)) ops).Perm (List.range M.info.pieces.length) ∧
      ∀ more b', exec (next fs sha1) (some b) more = some b' →
        (∀ a ∈ trace fs sha1 (some b) more, a.report id = none) ∧
          ∀ msg ∈ handedIn fs sha1 (some b) more, msg.report id = none) := by
  obtain ⟨T, cfg, hops, hT, hcfg, hlife⟩ := life_of_added hadd hrun
  obtain ⟨hlen, hclear⟩ := clear_of_newLeech hcfg
  have howned := owned_iff_handed hrun hclear hlife
  have hprogress := TorrentPieceHandler.progress_exec id (TorrentPool.new random config).initialPieceSelectionStrategy
    cfg.bitfield cfg.pieceLength cfg.lastPieceLength hops
  have hpieces : handedPieces fs sha1 id (some (withConfig random world config)) ops
      = TorrentPieceHandler.finishedPieces (cfg.handler (TorrentPool.new random config).initialPieceSelectionStrategy id)
        hops := by
    rw [handedPieces_eq hrun, ← hlife.reports, TorrentPieceHandler.finishedPieces_eq]
  obtain ⟨htrace, -⟩ := report_trace id hrun
  refine ⟨handedPieces_nodup hadd hrun, ?_, ?_, ?_⟩
  · intro T' hT'
    obtain rfl := Option.some.inj (hT.symm.trans hT')
    exact howned
  · rw [countP_finishes, htrace, ← hlife.reports]
    exact (List.filter_sublist.count_le _).trans (count_finished_le _ _)
  · intro hmem
    have hend : .finished ∈ reportedIn fs sha1 id (some (withConfig random world config)) ops := by
      have hreport : .finished ∈ (trace fs sha1 (some (withConfig random world config)) ops).filterMap
          (NetworkBehaviourAction.report id) :=
        List.mem_filterMap.mpr ⟨_, hmem, if_pos rfl⟩
      rw [htrace] at hreport
      exact (List.mem_filter.mp hreport).1
    refine ⟨?_, fun more b' hmore => quiet_of_reportedIn hrun hmore (reportedIn_after_end hadd hrun hend hmore)⟩
    refine (List.perm_ext_iff_of_nodup (handedPieces_nodup hadd hrun) List.nodup_range).mpr ?_
    intro i
    rw [List.mem_range, ← hlen]
    constructor
    · intro hi
      rw [hpieces] at hi
      exact (List.getElem?_eq_some_iff.mp (hprogress.missing i hi)).1
    · intro hi
      have hreported : TorrentPieceHandler.reported _ hops
          = reportedIn fs sha1 id (some (withConfig random world config)) ops ++ [] :=
        hlife.reports.trans (List.append_nil _).symm
      refine (howned i).mp ?_
      show T.pieceHandler.bitfield.get i = some true
      rw [hlife.handler]
      exact (silent_after_end hreported hend).2 i hi

/-- the torrent of one byte is downloaded, and reported finished -/
theorem download_once_one_byte :
    (handedPieces instantDisk firstByte ⟨0⟩ (some (withConfig (.replicate 0) () .default))
      (.addLeech oneByte .active :: wrongByteWritten)).Perm (List.range 1) := by
  have hend : 0 < (trace instantDisk firstByte (some (withConfig (.replicate 0) () .default))
      (.addLeech oneByte .active :: wrongByteWritten)).countP (NetworkBehaviourAction.finishes ⟨0⟩) := by decide
  obtain ⟨a, ha, hfin⟩ := List.countP_pos_iff.mp hend
  rw [NetworkBehaviourAction.finishes_iff.mp hfin] at ha
  exact ((download_once instantDisk firstByte (.replicate 0) () .default (.addLeech oneByte .active :: wrongByteWritten) _
    rfl ⟨0⟩ oneByte .active ⟨[], wrongByteWritten, _, rfl, rfl, rfl⟩).2.2.2 ha).1

end BitTorrent

end Btt
