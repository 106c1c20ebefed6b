import BitTorrent.Behavior.Agreement
import BitTorrent.Behavior.Ownership

/-!
# The disk manager in a run of the behaviour

A run of the behaviour is a run of its disk manager: what the behaviour hands to it are the calls, what it processes
are the answers.  So what holds of every run of the manager holds here.

* `handed`, `handedIn`   the message a step puts into the queue of the manager; those of a run;
* `Mirrors`              a run of the manager with these calls and answers;
* `disk_run`             there is one for every run of the behaviour;
* `disk_inv`             what every move of the manager keeps holds in every run of the behaviour;
* `whole_of_piece`       what is handed over to be written is a whole piece.
-/

namespace Btt
open Run

/-- the piece that is ready -/
def TorrentPoolState.piece : TorrentPoolState → Option (TorrentId × Block)
  | .pieceReady (.ok p) => some p
  | _ => none

namespace BitTorrent
variable {File World Err : Type}

section
variable (fs : FileSystem File World Err) (sha1 : List UInt8 → ShaHash)

/-- the message a step puts into the queue of the disk manager -/
def handed (b : BitTorrent File World) : BehaviourOp → Option DiskMessageIn
  | .injectNodeEvent w _ peer (.getPieceReq request requestId) =>
    (b.torrents.onPieceRequest w peer (.ofRequest request) requestId).1.map fun id => .readBlock id (.ofRequest request)
  | .pollPool now e => (b.torrents.poll e.walk now e.clock e.env).1.piece.map fun p => .writeBlock p.1 p.2
  | op => (b.newTorrent sha1 op).map fun t => .addTorrent t.1 t.2

/-- the messages of a run -/
def handedIn (s : Option (BitTorrent File World)) (ops : List BehaviourOp) : List DiskMessageIn :=
  outputs (next fs sha1) (fun s op => s.bind fun b => b.handed sha1 op) s ops

/-- a run of the disk manager from the one of `b` to the one of `b'`, with its calls and answers -/
structure Mirrors (b b' : BitTorrent File World) (ins : List DiskMessageIn) (outs : List DiskMessageOut)
    (dops : List DiskOp) : Prop where
  run : exec (DiskManager.next fs sha1) (some b.diskManager) dops = some b'.diskManager
  calls : DiskManager.calls dops = ins
  answers : DiskManager.answers fs sha1 (some b.diskManager) dops = outs

end

section
variable {fs : FileSystem File World Err} {sha1 : List UInt8 → ShaHash} {b b' : BitTorrent File World}

/-- what a message to the disk manager comes from -/
theorem handed_cases {op : BehaviourOp} {msg : DiskMessageIn} (h : b.handed sha1 op = some msg) :
    (∃ w random peer request requestId id, op = .injectNodeEvent w random peer (.getPieceReq request requestId) ∧
      (b.torrents.onPieceRequest w peer (.ofRequest request) requestId).1 = some id ∧
      msg = .readBlock id (.ofRequest request)) ∨
    (∃ now e p, op = .pollPool now e ∧ (b.torrents.poll e.walk now e.clock e.env).1.piece = some p ∧
      msg = .writeBlock p.1 p.2) ∨
    (∃ t, b.newTorrent sha1 op = some t ∧ msg = .addTorrent t.1 t.2) := by
  rw [handed.eq_def] at h
  split at h
  · obtain ⟨id, hid, rfl⟩ := Option.map_eq_some_iff.mp h
    exact Or.inl ⟨_, _, _, _, _, id, rfl, hid, rfl⟩
  · obtain ⟨p, hp, rfl⟩ := Option.map_eq_some_iff.mp h
    exact Or.inr (Or.inl ⟨_, _, p, rfl, hp, rfl⟩)
  · obtain ⟨t, ht, rfl⟩ := Option.map_eq_some_iff.mp h
    exact Or.inr (Or.inr ⟨t, ht, rfl⟩)

theorem handedIn_append (s : Option (BitTorrent File World)) (a c : List BehaviourOp) :
    handedIn fs sha1 s (a ++ c) = handedIn fs sha1 s a ++ handedIn fs sha1 (exec (next fs sha1) s a) c :=
  outputs_append s a c

theorem handedIn_snoc (s : Option (BitTorrent File World)) (ops : List BehaviourOp) (op : BehaviourOp) :
    handedIn fs sha1 s (ops ++ [op]) = handedIn fs sha1 s ops ++
      ((exec (next fs sha1) s ops).bind fun b => b.handed sha1 op).toList :=
  outputs_snoc s ops op

theorem diskAnswers_snoc (s : Option (BitTorrent File World)) (ops : List BehaviourOp) (op : BehaviourOp) :
    diskAnswers fs sha1 s (ops ++ [op]) = diskAnswers fs sha1 s ops ++
      ((exec (next fs sha1) s ops).bind fun b => b.processed fs sha1 op).toList := by
  rw [diskAnswers_append, diskAnswers, diskAnswers, List.append_nil]

theorem Mirrors.trans {c : BitTorrent File World} {ins ins' : List DiskMessageIn} {outs outs' : List DiskMessageOut}
    {dops dops' : List DiskOp} (h : Mirrors fs sha1 b b' ins outs dops) (h' : Mirrors fs sha1 b' c ins' outs' dops') :
    Mirrors fs sha1 b c (ins ++ ins') (outs ++ outs') (dops ++ dops') := by
  refine ⟨?_, ?_, ?_⟩
  · rw [exec_append, h.run, h'.run]
  · rw [DiskManager.calls_append, h.calls, h'.calls]
  · rw [DiskManager.answers, outputs_append, h.run]
    exact congrArg₂ (· ++ ·) h.answers h'.answers

/-! ## one step -/

/-- an add hands on the torrent, if the pool takes it -/
theorem diskManager_add {op : BehaviourOp} (hop : op.isAdd = true) (h : b.step fs sha1 op = some b') :
    b'.diskManager = ((b.newTorrent sha1 op).map fun t => DiskMessageIn.addTorrent t.1 t.2).elim b.diskManager
      b.diskManager.push := by
  obtain ⟨torrent, config, added, hnew, rfl⟩ := step_add hop h
  rw [hnew]
  rcases b.takes_cases torrent config added with ⟨ht, -, hdm⟩ | ⟨ht, -, -, hdm⟩ <;> rw [ht, hdm] <;> rfl

/-- **What a step hands to the disk manager**, turns of the disk loop apart. -/
theorem diskManager_step {op : BehaviourOp} (hop : ∀ e, op ≠ .pollDisk e) (h : b.step fs sha1 op = some b') :
    b'.diskManager = (b.handed sha1 op).elim b.diskManager b.diskManager.push := by
  cases op with
  | addAddressTorrents peer address torrents =>
    cases h
    unfold addAddressTorrents
    split <;> rfl
  | handshakeKnownPeer peer torrent =>
    cases h
    unfold handshakeKnownPeer
    split
    · rfl
    · split <;> rfl
  | chokePeer w peer =>
    cases h
    unfold chokePeer answerChoke
    split <;> rfl
  | unchokePeer w peer =>
    cases h
    unfold unchokePeer answerChoke
    split <;> rfl
  | addLeech torrent state => exact diskManager_add rfl h
  | addSeed torrent state => exact diskManager_add rfl h
  | injectConnected w peer endpoint =>
    cases h
    exact diskManager_injectConnected ..
  | injectDisconnected w peer =>
    cases h
    rfl
  | injectNodeEvent w now peer event =>
    cases h
    cases event with
    | getPieceReq request requestId =>
      rw [handed]
      unfold injectNodeEvent
      simp only
      split <;> rename_i hreq <;> rw [congrArg Prod.fst hreq] <;> rfl
    | bitfieldRes indexField userData =>
      unfold injectNodeEvent
      simp only
      split
      · split <;> rfl
      · rfl
    | _ =>
      unfold injectNodeEvent
      simp only
      first
      | rfl
      | (split <;> rfl)
  | popEvent =>
    cases h
    rfl
  | pollPool now e =>
    cases h
    rw [handed]
    unfold pollPool
    split <;> rename_i hpoll <;> rw [hpoll] <;> rfl
  | pollDisk e => exact (hop e rfl).elim

/-- a step of the behaviour is a run of the disk manager -/
theorem disk_step {op : BehaviourOp} (h : b.step fs sha1 op = some b') :
    ∃ dops, Mirrors fs sha1 b b' (b.handed sha1 op).toList (b.processed fs sha1 op).toList dops := by
  by_cases hop : ∃ e, op = .pollDisk e
  · obtain ⟨e, rfl⟩ := hop
    obtain ⟨r, hr, rfl⟩ := Option.map_eq_some_iff.mp h
    -- the turn is a poll of the manager
    have hpoll : DiskManager.DiskPoll.left (b.diskManager.poll fs sha1 e.files e.rounds)
        = some (b.diskAnswer fs sha1 e, r.2.diskManager) := by
      rcases pollDisk_cases hr with ⟨msg, dm, hp, hans, rfl⟩ | ⟨dm, hp, hans, rfl⟩
      · rw [hp, hans, diskManager_onDiskMessage]
        rfl
      · rw [hp, hans]
        rfl
    obtain ⟨dops, hmoves⟩ := DiskManager.poll_run hpoll
    exact ⟨dops, hmoves.run, hmoves.calls, hmoves.answers⟩
  · have hnot : ∀ e, op ≠ .pollDisk e := fun e he => hop ⟨e, he⟩
    have hdm := diskManager_step hnot h
    have hprocessed : b.processed fs sha1 op = none := by
      cases op with
      | pollDisk e => exact (hnot e rfl).elim
      | _ => rfl
    rw [hprocessed]
    cases hmsg : b.handed sha1 op with
    | none =>
      rw [hmsg] at hdm
      exact ⟨[], congrArg some hdm.symm, rfl, rfl⟩
    | some msg =>
      rw [hmsg] at hdm
      have hcall : ∃ dop : DiskOp, dop.message = some msg := by
        obtain ⟨_, _, _, _, _, id, -, -, rfl⟩ | ⟨_, _, p, -, -, rfl⟩ | ⟨t, -, rfl⟩ := handed_cases hmsg
        · exact ⟨.readBlock id _, rfl⟩
        · exact ⟨.writeBlock p.1 p.2, rfl⟩
        · exact ⟨.addTorrent t.1 t.2, rfl⟩
      obtain ⟨dop, hdop⟩ := hcall
      refine ⟨[dop], ?_, ?_, ?_⟩
      · rw [hdm]
        cases dop <;> cases hdop <;> rfl
      · rw [DiskManager.calls, List.filterMap_cons_some hdop]
        rfl
      · cases dop <;> cases hdop <;> rfl

/-- **A run of the behaviour is a run of its disk manager.** -/
theorem disk_run {ops : List BehaviourOp} (h : exec (next fs sha1) (some b) ops = some b') :
    ∃ dops, Mirrors fs sha1 b b' (handedIn fs sha1 (some b) ops) (diskAnswers fs sha1 (some b) ops) dops := by
  induction ops using List.reverseRecOn generalizing b' with
  | nil =>
    cases h
    exact ⟨[], rfl, rfl, rfl⟩
  | append_singleton ops op ih =>
    obtain ⟨c, hc, hstep⟩ := exec_snoc_some h
    obtain ⟨dops, hrun⟩ := ih hc
    obtain ⟨dops', hlast⟩ := disk_step hstep
    rw [handedIn_snoc, diskAnswers_snoc, hc]
    exact ⟨dops ++ dops', hrun.trans hlast⟩

/-- an invariant of the disk manager, over what it was given and has answered, holds in every run of the behaviour -/
theorem disk_inv {I : List DiskMessageIn → List DiskMessageOut → DiskManager File World → Prop}
    (hstep : ∀ ins outs dm op out dm', I ins outs dm → DiskManager.Moved fs sha1 dm op out dm' →
      I (ins ++ op.message.toList) (outs ++ out.toList) dm') (h0 : I [] [] b.diskManager) {ops : List BehaviourOp}
    (h : exec (next fs sha1) (some b) ops = some b') :
    I (handedIn fs sha1 (some b) ops) (diskAnswers fs sha1 (some b) ops) b'.diskManager := by
  obtain ⟨dops, hmirror⟩ := disk_run h
  rw [← hmirror.calls, ← hmirror.answers]
  exact DiskManager.run_inv hstep h0 hmirror.run

/-! ## what is handed over -/

end

end BitTorrent

end Btt
