import BitTorrent.Behavior.Step
import BitTorrent.Peer.Completion

/-!
# Owned pieces and written pieces

The behaviour sets a bit of a torrent when the disk manager answers `PieceWritten`.  The piece handler sets
it too, and earlier: when the buffer of the piece is full, before the piece is hashed and written; and
nothing clears the bit again if the write fails.

* `Verified`            every owned piece of the torrent was written, and a failed write leaves its bit clear;
* `Settled`             the torrent has no piece and no write of it is under way;
* `verified_iff`        for a torrent that is leeched, `Verified` holds along a run exactly when the run
                        completes no piece of it;
* `owned_after_error`   a run in which the write fails and the piece stays owned.
-/

namespace Btt
open Run

namespace DiskManager
variable {File World : Type}

/-- the writes of piece `i` of a torrent that are queued or active -/
def outstanding (dm : DiskManager File World) (id : TorrentId) (i : Nat) : Nat :=
  dm.queuedEvents.countP (fun
    | .writeBlock t block => t = id ∧ block.metadata.pieceIndex = i
    | _ => false) +
  dm.activeBlocks.countP fun
    | .write r => r.torrent = id ∧ r.metadata.pieceIndex = i
    | .read _ => false

end DiskManager

/-- the operations that can set a bit of a torrent the pool has -/
def PoolOp.setsBits : PoolOp → Bool
  | .setPiece _ _ => true
  | .poll _ _ _ _ => true
  | _ => false

namespace BitTorrent
variable {File World Err : Type}

section
variable (fs : FileSystem File World Err) (sha1 : List UInt8 → ShaHash)

/-- the answer of the disk manager that a step processes -/
def processed (b : BitTorrent File World) : BehaviourOp → Option DiskMessageOut
  | .pollDisk e => b.diskAnswer fs sha1 e
  | _ => none

/-- the answers of the disk manager that a run processes -/
def diskAnswers : Option (BitTorrent File World) → List BehaviourOp → List DiskMessageOut
  | _, [] => []
  | s, op :: ops => (s.bind fun b => b.processed fs sha1 op).toList ++ diskAnswers (next fs sha1 s op) ops

/-- `add_leech` gives the torrent the id `id` -/
def AddsLeech (b : BitTorrent File World) (M : MetaInfo) (st : TorrentState) (id : TorrentId) : Prop :=
  ∃ config state, TorrentConfig.newLeech sha1 M st = some config ∧
    (b.torrents.addTorrent config).1 = .ok (id, state)

/-- at the end of `run` an owned piece of the torrent has been written, with the bytes its hash is of; and if
the last step answered a write with an error, the bit of that piece is clear -/
structure Verified (b₀ : BitTorrent File World) (M : MetaInfo) (id : TorrentId) (run : List BehaviourOp) :
    Prop where
  owned : ∀ b T i, exec (next fs sha1) (some b₀) run = some b → b.torrents.torrents.lookup id = some T →
    T.bitfield.get i = some true →
    ∃ block, .pieceWritten id block ∈ diskAnswers fs sha1 (some b₀) run ∧ block.metadata.pieceIndex = i ∧
      M.info.pieces[i]? = some (sha1 block.blockData)
  failed : ∀ run' e b b' T err i, run = run' ++ [.pollDisk e] →
    exec (next fs sha1) (some b₀) run' = some b → b.diskAnswer fs sha1 e = some (.writeBlockError id err) →
    exec (next fs sha1) (some b₀) run = some b' →
    b'.diskManager.outstanding id i < b.diskManager.outstanding id i →
    b'.torrents.torrents.lookup id = some T → T.bitfield.get i = some false

end

/-- the step completes no piece of the torrent -/
def Spares (id : TorrentId) (s : Option (BitTorrent File World)) (op : BehaviourOp) : Prop :=
  ∀ b now e, s = some b → op = .pollPool now e → ¬ b.torrents.Completes e.walk now e.clock e.env id

/-! ## the answers of the disk -/

section
variable {fs : FileSystem File World Err} {sha1 : List UInt8 → ShaHash}

theorem diskAnswers_append (s : Option (BitTorrent File World)) (a c : List BehaviourOp) :
    diskAnswers fs sha1 s (a ++ c)
      = diskAnswers fs sha1 s a ++ diskAnswers fs sha1 (exec (next fs sha1) s a) c := by
  induction a generalizing s with
  | nil => rfl
  | cons op ops ih =>
    rw [List.cons_append, diskAnswers, diskAnswers, ih, List.append_assoc]
    rfl

/-- the answer a last step adds -/
theorem mem_diskAnswers_snoc {s : Option (BitTorrent File World)} {run : List BehaviourOp} {op : BehaviourOp}
    {msg : DiskMessageOut} :
    msg ∈ diskAnswers fs sha1 s (run ++ [op]) ↔ msg ∈ diskAnswers fs sha1 s run ∨
      ∃ b, exec (next fs sha1) s run = some b ∧ b.processed fs sha1 op = some msg := by
  rw [diskAnswers_append, List.mem_append, diskAnswers, diskAnswers, List.append_nil, Option.mem_toList,
    Option.bind_eq_some_iff]

/-! ## the invariant -/

/-- the torrent exists, has no piece, and no write of it is under way -/
structure Settled (id : TorrentId) (b : BitTorrent File World) : Prop where
  grounded : b.Grounded
  below : id.val < b.torrents.nextUniqueTorrent
  writes : b.diskManager.Writes (· ≠ id)
  clear : ∀ T, b.torrents.torrents.lookup id = some T → ∀ i, T.bitfield.get i ≠ some true

/-- an operation that neither sets a bit of the torrent by name nor completes a piece of it sets none -/
theorem clear_step {pool : TorrentPool} {id : TorrentId} {op : PoolOp} (hbelow : id.val < pool.nextUniqueTorrent)
    (hclear : ∀ T, pool.torrents.lookup id = some T → ∀ i, T.bitfield.get i ≠ some true)
    (hset : ∀ i, op ≠ .setPiece id i)
    (hspare : ∀ w now clock env, op = .poll w now clock env → ¬ pool.Completes w now clock env id) :
    ∀ T, (pool.step op).torrents.lookup id = some T → ∀ i, T.bitfield.get i ≠ some true := by
  intro T hT i hbit
  rcases TorrentPool.bitfield_step hT hbit with ⟨T₀, hT₀, h⟩ | h | ⟨w, now, clock, env, h, hc⟩ | ⟨config, -, h⟩
  · exact hclear T₀ hT₀ i h
  · exact hset i h
  · exact hspare w now clock env h hc
  · rw [h] at hbelow
    exact Nat.lt_irrefl _ hbelow

theorem clear_exec {pool : TorrentPool} {id : TorrentId} {ops : List PoolOp}
    (hbelow : id.val < pool.nextUniqueTorrent)
    (hclear : ∀ T, pool.torrents.lookup id = some T → ∀ i, T.bitfield.get i ≠ some true)
    (hset : ∀ i, .setPiece id i ∉ ops) (hpoll : ∀ w now clock env, .poll w now clock env ∉ ops) :
    ∀ T, (exec TorrentPool.step pool ops).torrents.lookup id = some T → ∀ i, T.bitfield.get i ≠ some true := by
  induction ops generalizing pool with
  | nil => exact hclear
  | cons op ops ih =>
    simp only [List.mem_cons, not_or] at hset hpoll
    refine ih (Nat.lt_of_lt_of_le hbelow (pool.nextUniqueTorrent_step op)) ?_ (fun i => (hset i).2)
      fun w now clock env => (hpoll w now clock env).2
    exact clear_step hbelow hclear (fun i e => (hset i).1 e.symm)
      fun w now clock env e => ((hpoll w now clock env).1 e.symm).elim

/-- the bits of a torrent are set by a turn of the pool loop, or when a piece was written -/
theorem poolOps_setsBits {b : BitTorrent File World} {op : BehaviourOp} {o : PoolOp}
    (ho : o ∈ b.poolOps fs sha1 op) (hbits : o.setsBits = true) :
    (∃ now e, op = .pollPool now e) ∨
    ∃ id block, o = .setPiece id block.metadata.pieceIndex ∧
      b.processed fs sha1 op = some (.pieceWritten id block) := by
  cases op with
  | pollPool now e => exact Or.inl ⟨now, e, rfl⟩
  | pollDisk e =>
    right
    simp only [poolOps] at ho
    cases hans : b.diskAnswer fs sha1 e with
    | none =>
      rw [hans] at ho
      cases ho
    | some msg =>
      rw [hans] at ho
      cases msg with
      | pieceWritten id block => exact ⟨id, block, List.mem_singleton.mp ho, hans⟩
      | blockRead id block =>
        cases List.mem_singleton.mp ho
        cases hbits
      | _ => cases ho
  | injectNodeEvent w now peer event =>
    cases event with
    | bitfieldRes indexField userData =>
      simp only [poolOps, eventOps] at ho
      split at ho <;> simp at ho
      · rcases ho with rfl | rfl <;> cases hbits
      · rw [ho] at hbits
        cases hbits
    | torrentErr => cases ho
    | _ =>
      cases List.mem_singleton.mp ho
      cases hbits
  | addLeech torrent state =>
    obtain ⟨config, -, rfl⟩ : ∃ config, _ ∧ PoolOp.addTorrent config = o := by simpa [poolOps] using ho
    cases hbits
  | addSeed torrent state =>
    obtain ⟨config, -, rfl⟩ : ∃ config, _ ∧ PoolOp.addTorrent config = o := by simpa [poolOps] using ho
    cases hbits
  | chokePeer w peer =>
    cases List.mem_singleton.mp ho
    cases hbits
  | unchokePeer w peer =>
    cases List.mem_singleton.mp ho
    cases hbits
  | injectDisconnected w peer =>
    cases List.mem_singleton.mp ho
    cases hbits
  | _ => cases ho

theorem processed_writes {W : TorrentId → Prop} {b : BitTorrent File World} {op : BehaviourOp}
    (hW : b.diskManager.Writes W) {msg : DiskMessageOut} (h : b.processed fs sha1 op = some msg) :
    DiskManager.Answers W msg := by
  cases op with
  | pollDisk e => exact diskAnswer_writes hW h
  | _ => cases h

theorem Settled.step {id : TorrentId} {b b' : BitTorrent File World} {op : BehaviourOp} (hb : b.Settled id)
    (hspare : Spares id (some b) op) (h : b.step fs sha1 op = some b') : b'.Settled id := by
  refine ⟨hb.grounded.step h, Nat.lt_of_lt_of_le hb.below (nextUniqueTorrent_step h), ?_, ?_⟩
  · refine writes_step hb.writes ?_ h
    rintro now e t block rfl hready rfl
    exact hspare b now e rfl rfl
      (TorrentPool.completes_of_pieceReady (fun id T hT => (hb.grounded id T hT).key) hready)
  · rw [torrents_step h]
    by_cases hop : ∃ now e, op = .pollPool now e
    · obtain ⟨now, e, rfl⟩ := hop
      show ∀ T, (b.torrents.step (.poll e.walk now e.clock e.env)).torrents.lookup id = some T → _
      refine clear_step hb.below hb.clear (fun i => nofun) ?_
      rintro _ _ _ _ ⟨⟩
      exact hspare b now e rfl rfl
    · refine clear_exec hb.below hb.clear ?_ ?_
      · intro i hi
        obtain ⟨t, block, ht, hw⟩ := (poolOps_setsBits hi rfl).resolve_left hop
        cases ht
        exact processed_writes hb.writes hw rfl
      · intro w now clock env hmem
        obtain ⟨t, block, ht, -⟩ := (poolOps_setsBits hmem rfl).resolve_left hop
        cases ht

/-! ## before the torrent is there -/

/-- all writes are of torrents of the pool -/
structure Bounded (b : BitTorrent File World) : Prop where
  grounded : b.Grounded
  writes : b.diskManager.Writes fun t => t.val < b.torrents.nextUniqueTorrent

theorem Bounded.step {b b' : BitTorrent File World} {op : BehaviourOp} (hb : b.Bounded)
    (h : b.step fs sha1 op = some b') : b'.Bounded := by
  refine ⟨hb.grounded.step h, ?_⟩
  refine (writes_step hb.writes ?_ h).mono fun t ht => Nat.lt_of_lt_of_le ht (nextUniqueTorrent_step h)
  rintro now e t block rfl hready
  obtain ⟨pre, T, post, hrun, -, -⟩ :=
    TorrentPool.completes_of_pieceReady (fun id T hT => (hb.grounded id T hT).key) hready
  exact (hb.grounded t T ((AList.lists_run e.walk b.torrents.torrents).lookup hrun)).below

theorem bounded_exec (random : ShaHash) (world : World) (config : BitTorrentConfig) {run : List BehaviourOp}
    {b : BitTorrent File World} (h : exec (next fs sha1) (some (withConfig random world config)) run = some b) :
    b.Bounded :=
  exec_some (fun _ _ _ hb hstep => hb.step hstep)
    ⟨grounded_withConfig random world config, DiskManager.writes_withCapacity _ world 100⟩ h

theorem exec_snoc_some {s : Option (BitTorrent File World)} {run : List BehaviourOp} {op : BehaviourOp}
    {b : BitTorrent File World} (h : exec (next fs sha1) s (run ++ [op]) = some b) :
    ∃ a, exec (next fs sha1) s run = some a ∧ a.step fs sha1 op = some b := by
  rw [exec_snoc] at h
  exact Option.bind_eq_some_iff.mp h

/-- the answers so far were about torrents of the pool -/
theorem diskAnswers_bounded (random : ShaHash) (world : World) (config : BitTorrentConfig)
    {run : List BehaviourOp} {b : BitTorrent File World}
    (h : exec (next fs sha1) (some (withConfig random world config)) run = some b) :
    ∀ msg ∈ diskAnswers fs sha1 (some (withConfig random world config)) run,
      DiskManager.Answers (fun t => t.val < b.torrents.nextUniqueTorrent) msg := by
  induction run using List.reverseRecOn generalizing b with
  | nil =>
    intro msg hmsg
    cases hmsg
  | append_singleton run op ih =>
    intro msg hmsg
    obtain ⟨a, ha, hstep⟩ := exec_snoc_some h
    have hgrow := nextUniqueTorrent_step hstep
    have hans : DiskManager.Answers (fun t => t.val < a.torrents.nextUniqueTorrent) msg := by
      rcases mem_diskAnswers_snoc.mp hmsg with h1 | ⟨a', ha', h1⟩
      · exact ih ha msg h1
      · cases ha.symm.trans ha'
        exact processed_writes (bounded_exec random world config ha).writes h1
    exact hans.mono fun t ht => Nat.lt_of_lt_of_le ht hgrow

theorem AddsLeech.id_eq {b : BitTorrent File World} {M : MetaInfo} {st : TorrentState} {id : TorrentId}
    (hadd : b.AddsLeech sha1 M st id) : id = ⟨b.torrents.nextUniqueTorrent⟩ := by
  obtain ⟨config, state, -, hok⟩ := hadd
  unfold TorrentPool.addTorrent at hok
  split at hok <;> cases hok
  rfl

/-- the torrent that was added has no piece -/
theorem AddsLeech.settled {b b' : BitTorrent File World} {M : MetaInfo} {st : TorrentState} {id : TorrentId}
    (hadd : b.AddsLeech sha1 M st id) (hb : b.Bounded) (h : b.step fs sha1 (.addLeech M st) = some b') :
    b'.Settled id := by
  obtain ⟨config, state, hc, hok⟩ := hadd
  have htorrents : b'.torrents = (b.torrents.addTorrent config).2 := by
    rw [torrents_step h, poolOps, hc]
    rfl
  have hconfig : config.bitfield = .newAllClear M.info.pieces.length := by
    obtain ⟨n, -, rfl⟩ := Option.map_eq_some_iff.mp hc
    rfl
  unfold TorrentPool.addTorrent at htorrents hok
  split at hok
  · cases hok
  · rename_i hnew
    cases hok
    rw [if_neg hnew] at htorrents
    refine ⟨hb.grounded.step h, ?_, ?_, ?_⟩
    · rw [htorrents]
      exact Nat.lt_succ_self _
    · refine (writes_step hb.writes ?_ h).mono ?_
      · rintro now e t block ⟨⟩
      · rintro t ht rfl
        exact Nat.lt_irrefl _ ht
    · intro T hT i hbit
      rw [htorrents] at hT
      simp only [AList.lookup_insert] at hT
      cases hT
      have hbit : config.bitfield.get i = some true := hbit
      rw [hconfig] at hbit
      have hmem := List.mem_of_getElem? hbit
      exact Bool.noConfusion (List.eq_of_mem_replicate hmem)

/-! ## runs -/

/-- no piece of the torrent was ever written, and none is owned -/
structure Idle (fs : FileSystem File World Err) (sha1 : List UInt8 → ShaHash) (b₀ : BitTorrent File World)
    (id : TorrentId) (run : List BehaviourOp) : Prop where
  settled : ∀ b, exec (next fs sha1) (some b₀) run = some b → b.Settled id
  silent : ∀ msg ∈ diskAnswers fs sha1 (some b₀) run, DiskManager.Answers (· ≠ id) msg

section
variable {b₀ : BitTorrent File World} {M : MetaInfo} {id : TorrentId} {run : List BehaviourOp}

theorem Idle.verified (h : Idle fs sha1 b₀ id run) : Verified fs sha1 b₀ M id run := by
  refine ⟨?_, ?_⟩
  · intro b T i hb hT hbit
    exact ((h.settled b hb).clear T hT i hbit).elim
  · rintro run' e b b' T err i rfl hb hans - - -
    have hmem : .writeBlockError id err ∈ diskAnswers fs sha1 (some b₀) (run' ++ [.pollDisk e]) :=
      mem_diskAnswers_snoc.mpr (Or.inr ⟨b, hb, hans⟩)
    exact (h.silent _ hmem rfl).elim

/-- a step that completes no piece of the torrent -/
theorem Idle.snoc {op : BehaviourOp} (h : Idle fs sha1 b₀ id run)
    (hspare : Spares id (exec (next fs sha1) (some b₀) run) op) : Idle fs sha1 b₀ id (run ++ [op]) := by
  refine ⟨?_, ?_⟩
  · intro b' hb'
    obtain ⟨b, hb, hstep⟩ := exec_snoc_some hb'
    rw [hb] at hspare
    exact (h.settled b hb).step hspare hstep
  · intro msg hmsg
    rcases mem_diskAnswers_snoc.mp hmsg with h1 | ⟨b, hb, h1⟩
    · exact h.silent msg h1
    · exact processed_writes (h.settled b hb).writes h1

/-- a step that completes a piece: it is owned, and was not written -/
theorem Idle.broken {op : BehaviourOp} (h : Idle fs sha1 b₀ id run)
    (hspare : ¬ Spares id (exec (next fs sha1) (some b₀) run) op) : ¬ Verified fs sha1 b₀ M id (run ++ [op]) := by
  intro hv
  obtain ⟨b, now, e, hb, rfl, hc⟩ : ∃ b now e, exec (next fs sha1) (some b₀) run = some b ∧
      op = .pollPool now e ∧ b.torrents.Completes e.walk now e.clock e.env id := by
    simpa [Spares] using hspare
  obtain ⟨T, i, hT, hbit⟩ := hc.owned (h.settled b hb).grounded
  have hafter : exec (next fs sha1) (some b₀) (run ++ [.pollPool now e]) = some (b.pollPool now e).2 := by
    rw [exec_snoc, hb]
    rfl
  have hT' : (b.pollPool now e).2.torrents.torrents.lookup id = some T := by
    rw [torrents_pollPool]
    exact hT
  obtain ⟨block, hmem, -⟩ := hv.owned _ T i hafter hT' hbit
  rcases mem_diskAnswers_snoc.mp hmem with h1 | ⟨b', -, h1⟩
  · exact h.silent _ h1 rfl
  · cases h1

end

/-- **Owned pieces are written pieces exactly in runs that complete none.**  For a torrent added with
`add_leech`, in any run: every owned piece was written before and a failed write leaves the bit clear, in
every state of the run, if and only if no poll of the pool reaches the torrent, active and with no heartbeat
due, when the buffer of its piece is full. -/
theorem verified_iff (fs : FileSystem File World Err) (sha1 : List UInt8 → ShaHash) (random : ShaHash)
    (world : World) (config : BitTorrentConfig) (M : MetaInfo) (st : TorrentState) (id : TorrentId)
    (before after : List BehaviourOp) (b : BitTorrent File World)
    (hbefore : exec (next fs sha1) (some (withConfig random world config)) before = some b)
    (hadd : b.AddsLeech sha1 M st id) :
    (∀ run, run <+: after →
      Verified fs sha1 (withConfig random world config) M id (before ++ .addLeech M st :: run)) ↔
    Along (next fs sha1) (Spares id)
      (exec (next fs sha1) (some (withConfig random world config)) (before ++ [.addLeech M st])) after := by
  have hsplit : ∀ run, before ++ .addLeech M st :: run = (before ++ [.addLeech M st]) ++ run := by
    intro run
    rw [List.append_assoc]
    rfl
  have hsnoc : ∀ run op, before ++ .addLeech M st :: (run ++ [op]) = (before ++ .addLeech M st :: run) ++ [op] := by
    intro run op
    rw [List.append_assoc]
    rfl
  refine safe_iff_along (I := fun run => Idle fs sha1 (withConfig random world config) id
    (before ++ .addLeech M st :: run)) ?_ (fun run h => h.verified) ?_ ?_ after
  · refine ⟨?_, ?_⟩
    · intro b' hb'
      obtain ⟨a, ha, hstep⟩ := exec_snoc_some hb'
      cases hbefore.symm.trans ha
      exact hadd.settled (bounded_exec random world config hbefore) hstep
    · intro msg hmsg
      rcases mem_diskAnswers_snoc.mp hmsg with h1 | ⟨a, -, h1⟩
      · refine (diskAnswers_bounded random world config hbefore msg h1).mono ?_
        rintro t ht rfl
        rw [hadd.id_eq] at ht
        exact Nat.lt_irrefl _ ht
      · cases h1
  · intro run op h hspare
    rw [hsnoc]
    refine h.snoc ?_
    rw [hsplit, exec_append]
    exact hspare
  · intro run op h hspare
    rw [hsnoc]
    refine h.broken ?_
    rw [hsplit, exec_append]
    exact hspare

end

/-! ## a run that loses a piece -/

/-- a remote is dialled, unchokes us, and answers the request for the only block with a wrong byte -/
def wrongByte : List BehaviourOp :=
  [.popEvent, poolTurn, diskTurn, diskTurn,
    .addAddressTorrents ⟨[7]⟩ ⟨[]⟩ [], .handshakeKnownPeer ⟨[7]⟩ (firstByte []), .popEvent,
    .injectConnected .same ⟨[7]⟩ .dialer, .popEvent,
    .injectNodeEvent .same 0 ⟨[7]⟩ (.handshakeRes (.new (firstByte []) (.replicate 9)) ⟨0⟩), .popEvent, .popEvent,
    .injectNodeEvent .same 0 ⟨[7]⟩ (.bitfieldRes ⟨[true]⟩ ⟨0⟩), .popEvent, .popEvent,
    .injectNodeEvent .same 0 ⟨[7]⟩ (.choke .unChoked), .popEvent, poolTurn,
    .injectNodeEvent .same 0 ⟨[7]⟩ (.getPieceRes ⟨0, 0, [2]⟩ ⟨0⟩), .popEvent]

/-- the pool then takes the piece out of its buffer, and the disk manager finds it bad -/
def wrongByteWritten : List BehaviourOp := wrongByte ++ [poolTurn, poolTurn, poolTurn, diskTurn]

/-- as long as nothing is downloaded, nothing is owned -/
theorem verified_before_download :
    Verified instantDisk firstByte (withConfig (.replicate 0) () .default) oneByte ⟨0⟩
      ([] ++ .addLeech oneByte .active :: [.popEvent, diskTurn]) := by
  refine (verified_iff instantDisk firstByte (.replicate 0) () .default oneByte .active ⟨0⟩ []
    [.popEvent, diskTurn] (withConfig (.replicate 0) () .default) rfl ⟨_, _, rfl, rfl⟩).mpr ⟨?_, ?_, trivial⟩
    [.popEvent, diskTurn] (List.prefix_refl _)
  · rintro b now e - ⟨⟩
  · rintro b now e - ⟨⟩

/-- the disk manager answered the write of the piece with an error; the piece was never written, and is owned -/
theorem owned_after_error :
    ¬ Verified instantDisk firstByte (withConfig (.replicate 0) () .default) oneByte ⟨0⟩
      (.addLeech oneByte .active :: wrongByteWritten) := by
  intro h
  have hbit : ((exec (next instantDisk firstByte) (some (withConfig (.replicate 0) () .default))
      (.addLeech oneByte .active :: wrongByteWritten)).bind fun b =>
        (b.torrents.torrents.lookup ⟨0⟩).bind fun T => T.bitfield.get 0) = some true := by decide
  have hans : diskAnswers instantDisk firstByte (some (withConfig (.replicate 0) () .default))
      (.addLeech oneByte .active :: wrongByteWritten)
        = [.torrentAdded ⟨0⟩, .writeBlockError ⟨0⟩ (.badPiece 0)] := by decide
  obtain ⟨b, hb, hbit⟩ := Option.bind_eq_some_iff.mp hbit
  obtain ⟨T, hT, hbit⟩ := Option.bind_eq_some_iff.mp hbit
  obtain ⟨block, hmem, -⟩ := h.owned b T 0 hb hT hbit
  rw [hans] at hmem
  simp at hmem

end BitTorrent

end Btt
