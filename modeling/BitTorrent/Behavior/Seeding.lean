import BitTorrent.Lib.Matching
import BitTorrent.Behavior.Step
import BitTorrent.Peer.Seeds

/-!
# Seeding answers every accepted request at most once

A completed read carries the metadata of its block and nothing else; the requester is the first pending
entry with equal metadata.  What keeps the answers apart is a count, for each key (requester, request,
place of the block):

    answers sent + answers queued + requests pending  ≤  requests accepted

* `load k b`         queued answers and pending requests with the key `k`;
* `load_step`        a step that hands out an answer lowers the load, only an accepted request raises it;
* `tally_load`       the inequality, along every run;
* `answers_matched`  answers go to earlier accepted requests with their key, no two to the same one.
-/

namespace Btt
open Run

/-- the key of an answer -/
def NetworkBehaviourAction.seedKey : NetworkBehaviourAction → Option SeedKey
  | .sendEvent peer (.getPieceRes piece requestId) => some ⟨peer, requestId, piece.index, piece.begin_⟩
  | _ => none

/-- the answers with the key `k` in a queue -/
def queuedSeeds (k : SeedKey) (events : List NetworkBehaviourAction) : Nat :=
  events.countP fun a => a.seedKey = some k

theorem queuedSeeds_append (k : SeedKey) (a c : List NetworkBehaviourAction) :
    queuedSeeds k (a ++ c) = queuedSeeds k a + queuedSeeds k c := List.countP_append

theorem queuedSeeds_tail (k : SeedKey) (events : List NetworkBehaviourAction) :
    queuedSeeds k events.tail + (if events.head?.bind NetworkBehaviourAction.seedKey = some k then 1 else 0)
      = queuedSeeds k events := by
  cases events with
  | nil => rfl
  | cons a events =>
    show queuedSeeds k events + (if a.seedKey = some k then 1 else 0) = _
    simp only [queuedSeeds, List.countP_cons, decide_eq_true_eq]

/-- events that are no answers do not count -/
theorem queuedSeeds_append_of_none (k : SeedKey) (events : List NetworkBehaviourAction)
    {actions : List NetworkBehaviourAction} (h : ∀ a ∈ actions, a.seedKey = none) :
    queuedSeeds k (events ++ actions) = queuedSeeds k events := by
  have hzero : queuedSeeds k actions = 0 := by
    refine List.countP_eq_zero.mpr ?_
    intro a ha
    rw [h a ha]
    simp
  rw [queuedSeeds_append, hzero, Nat.add_zero]

theorem seedKey_eq_none {a : NetworkBehaviourAction} (h : a.isPieceRes = false) : a.seedKey = none := by
  cases a with
  | sendEvent peer event =>
    cases event with
    | getPieceRes piece requestId => cases h
    | _ => rfl
  | _ => rfl

theorem seedKey_toPiece (peer : PeerId) (requestId : RequestId) (block : Block) :
    (NetworkBehaviourAction.sendEvent peer (.getPieceRes block.toPiece requestId)).seedKey
      = some (.ofEntry (peer, requestId, block.metadata)) := rfl

theorem ofEntry_ofRequest (peer : PeerId) (requestId : RequestId) (request : PeerRequest) :
    SeedKey.ofEntry (peer, requestId, .ofRequest request) = ⟨peer, requestId, request.index, request.begin_⟩ := by
  simp [SeedKey.ofEntry, BlockMetadata.ofRequest]

namespace TorrentPool

/-- operations other than requests leave no more waiting than before -/
theorem seeds_exec {pool : TorrentPool} (hg : ∀ id T, pool.torrents.lookup id = some T → pool.Grounded id T)
    {ops : List PoolOp} (hops : ∀ op ∈ ops, ∀ pool : TorrentPool, pool.accepts op = none) (k : SeedKey) :
    (exec step pool ops).seeds k ≤ pool.seeds k := by
  induction ops generalizing pool with
  | nil => exact Nat.le_refl _
  | cons op ops ih =>
    have hstep := seeds_step hg op k
    rw [hops op List.mem_cons_self pool, Option.map_none, if_neg nofun] at hstep
    exact (ih (grounded_step op hg) fun o ho => hops o (List.mem_cons_of_mem _ ho)).trans hstep

end TorrentPool

namespace BitTorrent
variable {File World Err : Type}

/-- queued answers and pending requests -/
def load (k : SeedKey) (b : BitTorrent File World) : Nat := queuedSeeds k b.queuedEvents + b.torrents.seeds k

/-- the key of a request the step accepts -/
def accepts (b : BitTorrent File World) : BehaviourOp → Option SeedKey
  | .injectNodeEvent w _ peer (.getPieceReq request requestId) =>
    (b.torrents.onPieceRequest w peer (.ofRequest request) requestId).1.map fun _ =>
      ⟨peer, requestId, request.index, request.begin_⟩
  | _ => none

/-! ## the queue -/

theorem queuedSeeds_reacts {b b' : BitTorrent File World} {pool : TorrentPool} (h : Reacts b pool b')
    (k : SeedKey) : queuedSeeds k b'.queuedEvents = queuedSeeds k b.queuedEvents := by
  obtain ⟨actions, e, ha⟩ := h.events
  rw [e, queuedSeeds_append_of_none k _ fun a h => seedKey_eq_none (ha a h)]

/-- the pool loop queues nothing, and what it hands out is no answer -/
theorem seeds_pollPool (b : BitTorrent File World) (now : Instant) (e : PoolEnv) :
    (b.pollPool now e).2.queuedEvents = b.queuedEvents ∧
      (b.pollPool now e).1.action.bind NetworkBehaviourAction.seedKey = none := by
  unfold pollPool
  split <;> exact ⟨rfl, rfl⟩

/-! ## one step -/

section
variable {fs : FileSystem File World Err} {sha1 : List UInt8 → ShaHash} {b b' : BitTorrent File World}

/-- a request: the pool accepts what the step accepts -/
theorem load_getPieceReq (hb : b.Grounded) (w : Walk) (now : Instant) (peer : PeerId) (request : PeerRequest)
    (requestId : RequestId) (k : SeedKey) :
    load k (b.injectNodeEvent w now peer (.getPieceReq request requestId))
      ≤ load k b + if b.accepts (.injectNodeEvent w now peer (.getPieceReq request requestId)) = some k
          then 1 else 0 := by
  have hstep := TorrentPool.seeds_step hb (.onPieceRequest w peer (.ofRequest request) requestId) k
  have hacc : (b.torrents.accepts (.onPieceRequest w peer (.ofRequest request) requestId)).map Prod.snd
      = b.accepts (.injectNodeEvent w now peer (.getPieceReq request requestId)) := by
    show ((b.torrents.onPieceRequest w peer (.ofRequest request) requestId).1.map _).map _ = Option.map _ _
    rw [Option.map_map, ofEntry_ofRequest]
    rfl
  rw [hacc] at hstep
  have hreacts := reacts_injectNodeEvent b w now peer (.getPieceReq request requestId)
  rw [load, load, queuedSeeds_reacts hreacts k, hreacts.torrents, Nat.add_assoc]
  exact Nat.add_le_add_left hstep _

/-- an answer of the disk manager: a block that finds its requester becomes a queued answer -/
theorem load_onDiskMessage (hb : b.Grounded) (peers : Arrangement PeerId) (msg : DiskMessageOut) (k : SeedKey) :
    load k (b.onDiskMessage peers msg).2 ≤ load k b ∧
      (b.onDiskMessage peers msg).1.action.bind NetworkBehaviourAction.seedKey = none := by
  have hseeds := torrents_onDiskMessage b peers msg
  cases msg with
  | blockRead torrent block =>
    unfold onDiskMessage at hseeds ⊢
    simp only at hseeds ⊢
    split
    · rename_i peer requestId pool h
      refine ⟨?_, rfl⟩
      have hread := TorrentPool.seeds_onBlockRead hb (congrArg Prod.fst h) k
      rw [h] at hread
      show queuedSeeds k (b.queuedEvents ++ [_]) + pool.seeds k ≤ _
      rw [queuedSeeds_append, queuedSeeds, queuedSeeds, List.countP_singleton, seedKey_toPiece, load, queuedSeeds]
      simp only [Option.some.injEq, decide_eq_true_eq] at hread ⊢
      omega
    · rename_i pool h
      rw [h] at hseeds
      refine ⟨?_, rfl⟩
      show queuedSeeds k b.queuedEvents + pool.seeds k ≤ _
      rw [show pool = _ from hseeds]
      exact Nat.add_le_add_left (TorrentPool.seeds_exec hb (by simp [messageOps, TorrentPool.accepts]) k) _
  | pieceWritten torrentId block =>
    have hqueue : queuedSeeds k (b.onDiskMessage peers (.pieceWritten torrentId block)).2.queuedEvents
        = queuedSeeds k b.queuedEvents := by
      unfold onDiskMessage
      simp only
      split
      · refine queuedSeeds_append_of_none k _ ?_
        intro a ha
        obtain ⟨p, -, rfl⟩ := List.mem_map.mp ha
        rfl
      · rfl
    refine ⟨?_, ?_⟩
    · rw [load, load, hqueue, hseeds]
      exact Nat.add_le_add_left (TorrentPool.seeds_exec hb (by simp [messageOps, TorrentPool.accepts]) k) _
    · unfold onDiskMessage
      simp only
      split <;> rfl
  | torrentSynced id =>
    refine ⟨?_, rfl⟩
    show queuedSeeds k (b.queuedEvents ++ [_]) + b.torrents.seeds k ≤ _
    rw [queuedSeeds_append_of_none k _ (by simp [NetworkBehaviourAction.seedKey])]
    exact Nat.le_refl _
  | _ => exact ⟨Nat.le_refl _, rfl⟩

/-- only a request makes one more wait -/
theorem enters_poolOps {op : BehaviourOp} (hop : ∀ w now peer request requestId,
      op ≠ .injectNodeEvent w now peer (.getPieceReq request requestId)) :
    ∀ o ∈ b.poolOps fs sha1 op, ∀ pool : TorrentPool, pool.enters o = none := by
  cases op with
  | injectNodeEvent w now peer event =>
    cases event with
    | getPieceReq request requestId => exact (hop w now peer request requestId rfl).elim
    | bitfieldRes indexField userData =>
      simp only [poolOps, eventOps]
      split <;> simp [TorrentPool.enters]
    | _ => simp [poolOps, eventOps, TorrentPool.enters]
  | pollDisk e =>
    simp only [poolOps]
    cases b.diskAnswer fs sha1 e with
    | none => simp
    | some msg => cases msg <;> simp [messageOps, TorrentPool.enters]
  | _ => simp [poolOps, TorrentPool.enters]

/-- a reaction that accepts no request does not raise the load -/
theorem load_reacts (hb : b.Grounded) {ops : List PoolOp} (h : Reacts b (exec TorrentPool.step b.torrents ops) b')
    (hops : ∀ o ∈ ops, ∀ pool : TorrentPool, pool.enters o = none) (k : SeedKey) : load k b' ≤ load k b := by
  have haccepts : ∀ o ∈ ops, ∀ pool : TorrentPool, pool.accepts o = none := by
    intro o ho pool
    rw [TorrentPool.accepts_eq, hops o ho pool]
    rfl
  rw [load, load, queuedSeeds_reacts h k, h.torrents]
  exact Nat.add_le_add_left (TorrentPool.seeds_exec hb haccepts k) _

/-- calls and events: only a request can be accepted -/
theorem load_call {op : BehaviourOp} (hb : b.Grounded) (hop : op.isPoll = false)
    (h : b.step fs sha1 op = some b') (k : SeedKey) :
    load k b' ≤ load k b + if b.accepts op = some k then 1 else 0 := by
  by_cases hreq : ∃ w now peer request requestId, op = .injectNodeEvent w now peer (.getPieceReq request requestId)
  · obtain ⟨w, now, peer, request, requestId, rfl⟩ := hreq
    cases h
    exact load_getPieceReq hb w now peer request requestId k
  · have henters : ∀ o ∈ b.poolOps fs sha1 op, ∀ pool : TorrentPool, pool.enters o = none :=
      enters_poolOps fun w now peer request requestId he => hreq ⟨w, now, peer, request, requestId, he⟩
    exact Nat.le_add_right_of_le (load_reacts hb (step_reacts hop h) henters k)

/-- **One step.**  Handing out an answer lowers the load; only an accepted request raises it. -/
theorem load_step {op : BehaviourOp} (hb : b.Grounded) (h : b.step fs sha1 op = some b') (k : SeedKey) :
    load k b' + (if (b.output fs sha1 op).bind NetworkBehaviourAction.seedKey = some k then 1 else 0)
      ≤ load k b + if b.accepts op = some k then 1 else 0 := by
  cases op with
  | popEvent =>
    cases h
    refine Nat.le_add_right_of_le ?_
    have htail := queuedSeeds_tail k b.queuedEvents
    show queuedSeeds k b.queuedEvents.tail + b.torrents.seeds k
      + (if b.queuedEvents.head?.bind NetworkBehaviourAction.seedKey = some k then 1 else 0) ≤ _
    rw [load]
    omega
  | pollPool now e =>
    cases h
    refine Nat.le_add_right_of_le ?_
    obtain ⟨hq, hout⟩ := seeds_pollPool b now e
    rw [output, hout, if_neg nofun, load, load, hq, torrents_pollPool]
    exact Nat.add_le_add_left (TorrentPool.seeds_step hb (.poll e.walk now e.clock e.env) k) _
  | pollDisk e =>
    obtain ⟨r, hr, rfl⟩ := Option.map_eq_some_iff.mp h
    refine Nat.le_add_right_of_le ?_
    rw [output, hr, Option.bind_some]
    rcases pollDisk_cases hr with ⟨msg, dm, -, -, rfl⟩ | ⟨dm, -, -, rfl⟩
    · have hdisk := load_onDiskMessage (b := { b with diskManager := dm }) hb e.peers msg k
      rw [hdisk.2, if_neg nofun]
      exact hdisk.1
    · exact Nat.le_refl _
  | _ => exact load_call hb rfl h k

end

/-! ## whole runs -/

section
variable (fs : FileSystem File World Err) (sha1 : List UInt8 → ShaHash) (b₀ : BitTorrent File World)
  (ops : List BehaviourOp)

/-- step `n` of the run hands the answer `piece` for the request `requestId` to the handler of `peer` -/
def SendsAt (n : Nat) (peer : PeerId) (piece : Piece) (requestId : RequestId) : Prop :=
  ∃ b op, stateAt (next fs sha1) (some b₀) ops n = some b ∧ ops[n]? = some op ∧
    b.output fs sha1 op = some (.sendEvent peer (.getPieceRes piece requestId))

/-- step `n` of the run is a request of `peer`, and the torrent `id` accepts it: it tracks the peer, which
is interested, unchoked by the client and has no other request pending there, and it has the piece -/
def AcceptsAt (n : Nat) (peer : PeerId) (request : PeerRequest) (requestId : RequestId) : Prop :=
  ∃ b w now id T p, stateAt (next fs sha1) (some b₀) ops n = some b ∧
    ops[n]? = some (.injectNodeEvent w now peer (.getPieceReq request requestId)) ∧
    (b.torrents.onPieceRequest w peer (.ofRequest request) requestId).1 = some id ∧
    b.torrents.torrents.lookup id = some T ∧ T.pieceHandler.peers.lookup peer = some p ∧
    p.remoteInterest = .interested ∧ p.clientChoke = .unChoked ∧
    (∀ e ∈ T.pieceHandler.pendingSeedBlocks, e.1 ≠ peer) ∧
    T.bitfield.get request.index.toNat = some true

/-- the key of the answer step `n` hands out -/
def sentAt (n : Nat) : Option SeedKey :=
  (stateAt (next fs sha1) (some b₀) ops n).bind fun b =>
    ops[n]?.bind fun op => (b.output fs sha1 op).bind NetworkBehaviourAction.seedKey

/-- the key of the request step `n` accepts -/
def acceptedAt (n : Nat) : Option SeedKey :=
  (stateAt (next fs sha1) (some b₀) ops n).bind fun b => ops[n]?.bind b.accepts

end

section
variable {fs : FileSystem File World Err} {sha1 : List UInt8 → ShaHash} {b₀ : BitTorrent File World}
  {ops : List BehaviourOp}

theorem grounded_stateAt (h0 : b₀.Grounded) {n : Nat} {b : BitTorrent File World}
    (h : stateAt (next fs sha1) (some b₀) ops n = some b) : b.Grounded :=
  exec_some (fun _ _ _ hb hstep => hb.step hstep) h0 h

/-- **The count.**  Answers sent, answers queued and requests pending, together, never outnumber the
accepted requests. -/
theorem tally_load (h0 : b₀.Grounded) {k : SeedKey} (hload : load k b₀ = 0) (n : Nat) :
    Matching.tally (sentAt fs sha1 b₀ ops) k n + (stateAt (next fs sha1) (some b₀) ops n).elim 0 (load k)
      ≤ Matching.tally (acceptedAt fs sha1 b₀ ops) k n := by
  induction n with
  | zero =>
    rw [Matching.tally_zero, Matching.tally_zero, stateAt_zero, Option.elim_some, hload]
  | succ n ih =>
    rw [Matching.tally_succ, Matching.tally_succ, sentAt, acceptedAt]
    cases hop : ops[n]? with
    | none =>
      rw [stateAt_succ_of_none hop]
      cases hs : stateAt (next fs sha1) (some b₀) ops n <;> rw [hs] at ih <;> exact ih
    | some op =>
      rw [stateAt_succ hop]
      cases hs : stateAt (next fs sha1) (some b₀) ops n with
      | none =>
        rw [hs] at ih
        exact ih
      | some b =>
        rw [hs, Option.elim_some] at ih
        rw [next_some, Option.bind_some, Option.bind_some, Option.bind_some, Option.bind_some]
        cases hstep : b.step fs sha1 op with
        | none =>
          -- a step that panics hands out nothing
          rw [output_of_step_none hstep, Option.bind_none, if_neg nofun, Option.elim_none]
          omega
        | some b' =>
          have := load_step (grounded_stateAt h0 hs) hstep k
          rw [Option.elim_some]
          omega

theorem sentAt_of_sends {n : Nat} {peer : PeerId} {piece : Piece} {requestId : RequestId}
    (h : SendsAt fs sha1 b₀ ops n peer piece requestId) :
    sentAt fs sha1 b₀ ops n = some ⟨peer, requestId, piece.index, piece.begin_⟩ := by
  obtain ⟨b, op, hs, hop, hout⟩ := h
  rw [sentAt, hs, Option.bind_some, hop, Option.bind_some, hout]
  rfl

theorem accepts_of_acceptedAt (h0 : b₀.Grounded) {n : Nat} {k : SeedKey}
    (h : acceptedAt fs sha1 b₀ ops n = some k) :
    ∃ request, AcceptsAt fs sha1 b₀ ops n k.peer request k.requestId ∧ request.index = k.index ∧
      request.begin_ = k.begin_ := by
  obtain ⟨b, hs, h⟩ := Option.bind_eq_some_iff.mp h
  obtain ⟨op, hop, h⟩ := Option.bind_eq_some_iff.mp h
  unfold accepts at h
  split at h
  · rename_i w now peer request requestId
    obtain ⟨id, hid, rfl⟩ := Option.map_eq_some_iff.mp h
    obtain ⟨T, p, hrest⟩ := TorrentPool.onPieceRequest_some (grounded_stateAt h0 hs) hid
    exact ⟨request, ⟨b, w, now, id, T, p, hs, hop, hid, hrest⟩, rfl, rfl⟩
  · cases h

/-- no step both hands out an answer and accepts a request -/
theorem acceptedAt_of_sentAt {n : Nat} {k : SeedKey} (h : sentAt fs sha1 b₀ ops n = some k) :
    acceptedAt fs sha1 b₀ ops n = none := by
  obtain ⟨b, hs, h⟩ := Option.bind_eq_some_iff.mp h
  obtain ⟨op, hop, h⟩ := Option.bind_eq_some_iff.mp h
  obtain ⟨a, hout, -⟩ := Option.bind_eq_some_iff.mp h
  rw [acceptedAt, hs, Option.bind_some, hop, Option.bind_some]
  cases op with
  | injectNodeEvent w now peer event => cases hout
  | _ => rfl

/-- **Seeding never answers the wrong request.**  In every run, with the disk completing reads in any
order, the answers handed out are matched to earlier requests of the same peer with the same id that were
accepted, for the same place of the same piece, and no two answers to the same request. -/
theorem answers_matched (fs : FileSystem File World Err) (sha1 : List UInt8 → ShaHash) (random : ShaHash)
    (world : World) (config : BitTorrentConfig) (ops : List BehaviourOp) :
    ∃ f : Nat → Nat,
      (∀ n peer piece requestId, SendsAt fs sha1 (withConfig random world config) ops n peer piece requestId →
        f n < n ∧ ∃ request, AcceptsAt fs sha1 (withConfig random world config) ops (f n) peer request requestId ∧
          piece.index = request.index ∧ piece.begin_ = request.begin_) ∧
      (∀ n n' peer peer' piece piece' requestId requestId',
        SendsAt fs sha1 (withConfig random world config) ops n peer piece requestId →
        SendsAt fs sha1 (withConfig random world config) ops n' peer' piece' requestId' →
        f n = f n' → n = n') := by
  have h0 : (withConfig random world config : BitTorrent File World).Grounded :=
    grounded_withConfig random world config
  have hle : ∀ k n, Matching.tally (sentAt fs sha1 (withConfig random world config) ops) k n
      ≤ Matching.tally (acceptedAt fs sha1 (withConfig random world config) ops) k n := by
    intro k n
    exact Nat.le_of_add_right_le (tally_load h0 (k := k) rfl n)
  obtain ⟨f, hf, hinj⟩ := Matching.exists_matching hle fun n k => acceptedAt_of_sentAt
  refine ⟨f, ?_, ?_⟩
  · intro n peer piece requestId h
    obtain ⟨hlt, hacc⟩ := hf n _ (sentAt_of_sends h)
    obtain ⟨request, haccepts, hindex, hbegin⟩ := accepts_of_acceptedAt h0 hacc
    exact ⟨hlt, request, haccepts, hindex.symm, hbegin.symm⟩
  · intro n n' peer peer' piece piece' requestId requestId' h h'
    exact hinj n n' _ _ (sentAt_of_sends h) (sentAt_of_sends h')

-- a remote that is interested and unchoked asks for the only block of a seed and gets it
example : sentAt instantDisk firstByte (withConfig (.replicate 0) () .default)
    [.addSeed oneByte .active, .injectNodeEvent .same 0 ⟨[7]⟩ (.handshakeReq (.new (firstByte []) (.replicate 9)) ⟨0⟩),
      .injectNodeEvent .same 0 ⟨[7]⟩ (.interest .interested), .unchokePeer .same ⟨[7]⟩,
      .injectNodeEvent .same 0 ⟨[7]⟩ (.getPieceReq ⟨0, 0, 1⟩ ⟨3⟩), diskTurn, diskTurn,
      .popEvent, .popEvent, .popEvent, .popEvent, .popEvent] 11 = some ⟨⟨[7]⟩, ⟨3⟩, 0, 0⟩ := by decide

end

end BitTorrent

end Btt
