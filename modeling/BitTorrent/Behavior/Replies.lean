import BitTorrent.Behavior.News
import BitTorrent.Behavior.Seeding

/-!
# Replies the behaviour owes

An event that hands on a request of a remote makes the behaviour owe a reply: it answers at once, refuses, or keeps
the request until its block is read.

* `Ticket`        a reply owed or given: to whom, under which number, of what kind;
* `held q b`      the replies `b` owes or has queued that pass the test `q`;
* `held_step`     a reply that is handed out leaves, a request that comes in brings one ticket: its own, or a refusal.
-/

namespace Btt
open Run

/-- what answers a request: a message of the same kind, for a block the block at the place asked for -/
inductive Reply where
  | handshake
  | bitfield
  | block (index begin_ : UInt32)
deriving DecidableEq

/-- `none` is a refusal -/
structure Ticket where
  peer : PeerId
  requestId : RequestId
  reply : Option Reply
deriving DecidableEq

/-- the request an event hands on, and the reply it asks for -/
def BitTorrentHandlerEvent.owes : BitTorrentHandlerEvent → Option (RequestId × Reply)
  | .handshakeReq _ requestId => some (requestId, .handshake)
  | .bitfieldReq _ requestId => some (requestId, .bitfield)
  | .getPieceReq request requestId => some (requestId, .block request.index request.begin_)
  | _ => none

/-- the request an event for the handler answers or refuses -/
def BitTorrentHandlerIn.gives : BitTorrentHandlerIn → Option (RequestId × Option Reply)
  | .handshakeRes _ requestId => some (requestId, some .handshake)
  | .bitfieldRes _ requestId => some (requestId, some .bitfield)
  | .getPieceRes piece requestId => some (requestId, some (.block piece.index piece.begin_))
  | .reset requestId => some (requestId, none)
  | _ => none

def NetworkBehaviourAction.ticket : NetworkBehaviourAction → Option Ticket
  | .sendEvent peer event => event.gives.map fun g => ⟨peer, g.1, g.2⟩
  | _ => none

theorem NetworkBehaviourAction.ticket_of_ofCall {a : NetworkBehaviourAction} (h : a.ofCall = true) : a.ticket = none := by
  cases a with
  | sendEvent peer event => cases event <;> first | rfl | cases h
  | _ => rfl

/-- the ticket of a request that waits for its block -/
def Ticket.ofEntry (e : PeerId × RequestId × BlockMetadata) : Ticket :=
  ⟨e.1, e.2.1, some (.block (UInt32.ofNat e.2.2.pieceIndex) (UInt32.ofNat e.2.2.blockOffset))⟩

/-- the request an event brings, to be replied to -/
def BehaviourOp.owes : BehaviourOp → Option Ticket
  | .injectNodeEvent _ _ peer event => event.owes.map fun g => ⟨peer, g.1, some g.2⟩
  | _ => none

/-- one if there is something that passes the test -/
def weight {α : Type} (q : α → Bool) (o : Option α) : Nat := o.elim 0 fun a => if q a = true then 1 else 0

@[simp]
theorem weight_none {α : Type} (q : α → Bool) : weight q none = 0 := rfl

@[simp]
theorem weight_some {α : Type} (q : α → Bool) (a : α) : weight q (some a) = if q a = true then 1 else 0 := rfl

/-! ## the pool -/

theorem TorrentPieceHandler.countP_clearPendingSeedBlock {h : TorrentPieceHandler} {m : BlockMetadata} {p : PeerId}
    {r : RequestId} (hc : (h.clearPendingSeedBlock m).1 = some (p, r))
    (q : PeerId × RequestId × BlockMetadata → Bool) :
    (h.clearPendingSeedBlock m).2.pendingSeedBlocks.countP q + (if q (p, r, m) = true then 1 else 0)
      = h.pendingSeedBlocks.countP q := by
  unfold clearPendingSeedBlock at hc ⊢
  obtain ⟨e, he, hpr⟩ := Option.map_eq_some_iff.mp hc
  have hfind : h.pendingSeedBlocks.find? (fun e => e.2.2 = m) = some e := by
    unfold takePendingSeed at he
    split at he
    · rename_i e' hf
      cases he
      exact hf
    · cases he
  have hm : e = (p, r, m) := by
    obtain ⟨p', r', m'⟩ := e
    cases hpr
    have heq : m' = m := by simpa using List.find?_some hfind
    rw [heq]
  rw [takePendingSeed_eq, ← hm]
  exact countP_eraseP hfind q

namespace TorrentPool
variable {pool : TorrentPool}

/-- the requests of all torrents that wait and pass the test -/
def pending (pool : TorrentPool) (q : PeerId × RequestId × BlockMetadata → Bool) : Nat :=
  ∑ i ∈ Finset.range pool.nextUniqueTorrent, pool.pendingOf q ⟨i⟩

section
variable (hg : ∀ id T, pool.torrents.lookup id = some T → pool.Grounded id T)
include hg

theorem pendingOf_of_le (q : PeerId × RequestId × BlockMetadata → Bool) {i : Nat} (hi : pool.nextUniqueTorrent ≤ i) :
    pool.pendingOf q ⟨i⟩ = 0 := by
  unfold pendingOf
  cases hT : pool.torrents.lookup ⟨i⟩ with
  | none => rfl
  | some T => exact absurd (hg _ T hT).below (Nat.not_lt.mpr hi)

/-- only a request that is taken waits -/
theorem pending_step (op : PoolOp) (q : PeerId × RequestId × BlockMetadata → Bool) :
    (pool.step op).pending q ≤ pool.pending q + weight q ((pool.enters op).map Prod.snd) := by
  have hnext := pool.nextUniqueTorrent_step op
  have hgrow : ∑ i ∈ Finset.range (pool.step op).nextUniqueTorrent, pool.pendingOf q ⟨i⟩ = pool.pending q := by
    refine (Finset.sum_subset (Finset.range_mono hnext) ?_).symm
    intro i _ hi
    exact pendingOf_of_le hg q (Nat.not_lt.mp fun hlt => hi (Finset.mem_range.mpr hlt))
  have hone : ∑ i ∈ Finset.range (pool.step op).nextUniqueTorrent,
      ((pool.enters op).elim 0 fun x => if x.1 = ⟨i⟩ ∧ q x.2 = true then 1 else 0)
        ≤ weight q ((pool.enters op).map Prod.snd) := by
    cases henters : pool.enters op with
    | none => simp
    | some x =>
      obtain ⟨⟨j⟩, e⟩ := x
      rw [Option.map_some, weight_some]
      by_cases hq : q e = true
      · rw [if_pos hq]
        calc ∑ i ∈ Finset.range (pool.step op).nextUniqueTorrent, (if TorrentId.mk j = ⟨i⟩ ∧ q e = true then 1 else 0)
            = ∑ i ∈ Finset.range (pool.step op).nextUniqueTorrent, (if j = i then 1 else 0) := by simp [hq]
          _ ≤ 1 := by
            rw [Finset.sum_ite_eq]
            split <;> omega
      · simp [hq]
  calc (pool.step op).pending q
      ≤ ∑ i ∈ Finset.range (pool.step op).nextUniqueTorrent, (pool.pendingOf q ⟨i⟩ +
          (pool.enters op).elim 0 fun x => if x.1 = ⟨i⟩ ∧ q x.2 = true then 1 else 0) :=
        Finset.sum_le_sum fun i _ => pendingOf_step hg op q ⟨i⟩
    _ = pool.pending q + ∑ i ∈ Finset.range (pool.step op).nextUniqueTorrent,
          ((pool.enters op).elim 0 fun x => if x.1 = ⟨i⟩ ∧ q x.2 = true then 1 else 0) := by
        rw [Finset.sum_add_distrib, hgrow]
    _ ≤ _ := Nat.add_le_add_left hone _

theorem pending_exec {ops : List PoolOp} (hops : ∀ op ∈ ops, ∀ pool : TorrentPool, pool.enters op = none)
    (q : PeerId × RequestId × BlockMetadata → Bool) : (exec step pool ops).pending q ≤ pool.pending q := by
  induction ops generalizing pool with
  | nil => exact Nat.le_refl _
  | cons op ops ih =>
    have hstep := pending_step hg op q
    rw [hops op List.mem_cons_self pool] at hstep
    exact (ih (grounded_step op hg) fun o ho => hops o (List.mem_cons_of_mem _ ho)).trans hstep

/-- a block that finds its request takes it away -/
theorem pending_onBlockRead {t : TorrentId} {m : BlockMetadata} {p : PeerId} {r : RequestId}
    (h : (pool.onBlockRead t m).1 = some (p, r)) (q : PeerId × RequestId × BlockMetadata → Bool) :
    (pool.onBlockRead t m).2.pending q + (if q (p, r, m) = true then 1 else 0) = pool.pending q := by
  cases hT : pool.torrents.lookup t with
  | none =>
    unfold onBlockRead modify at h
    rw [hT] at h
    cases h
  | some T =>
    have hc : (T.pieceHandler.clearPendingSeedBlock m).1 = some (p, r) := by
      unfold onBlockRead modify at h
      rw [hT] at h
      exact h
    have hnext : (pool.onBlockRead t m).2.nextUniqueTorrent = pool.nextUniqueTorrent := nextUniqueTorrent_modify ..
    have hof : ∀ i, (pool.onBlockRead t m).2.pendingOf q ⟨i⟩
        + (if t.val = i then if q (p, r, m) = true then 1 else 0 else 0) = pool.pendingOf q ⟨i⟩ := by
      intro i
      show Option.elim ((pool.modify t _).2.torrents.lookup ⟨i⟩) 0 _ + _ = Option.elim _ 0 _
      rw [lookup_modify]
      by_cases e : t.val = i
      · obtain rfl : t = ⟨i⟩ := by cases e; rfl
        rw [if_pos rfl, if_pos rfl, hT]
        exact TorrentPieceHandler.countP_clearPendingSeedBlock hc q
      · rw [if_neg e, if_neg (fun h => e (congrArg TorrentId.val h).symm), Nat.add_zero]
    have hbelow : t.val ∈ Finset.range pool.nextUniqueTorrent := Finset.mem_range.mpr (hg t T hT).below
    calc (pool.onBlockRead t m).2.pending q + (if q (p, r, m) = true then 1 else 0)
        = ∑ i ∈ Finset.range pool.nextUniqueTorrent, ((pool.onBlockRead t m).2.pendingOf q ⟨i⟩
            + if t.val = i then if q (p, r, m) = true then 1 else 0 else 0) := by
          rw [Finset.sum_add_distrib, Finset.sum_ite_eq, if_pos hbelow, pending, hnext]
      _ = pool.pending q := Finset.sum_congr rfl fun i _ => hof i

end

end TorrentPool

/-! ## the behaviour -/

namespace BitTorrent
variable {File World Err : Type}

/-- the replies in a list of actions that pass the test -/
def queuedReplies (q : Ticket → Bool) (events : List NetworkBehaviourAction) : Nat :=
  events.countP fun a => a.ticket.any q

/-- replies queued and requests that wait -/
def held (q : Ticket → Bool) (b : BitTorrent File World) : Nat :=
  queuedReplies q b.queuedEvents + b.torrents.pending fun e => q (.ofEntry e)

/-- a request is replied to or refused, so its tickets are these two -/
def due (q : Ticket → Bool) (t : Option Ticket) : Nat :=
  weight (fun t => q t || q { t with reply := none }) t

/-- the requests the operations let wait -/
def entering (q : Ticket → Bool) (pool : TorrentPool) (ops : List PoolOp) : Nat :=
  (ops.map fun o => weight (fun e => q (.ofEntry e)) ((pool.enters o).map Prod.snd)).sum

/-- a weaker test is passed by more -/
theorem held_mono {q q' : Ticket → Bool} (h : ∀ t, q t = true → q' t = true) (b : BitTorrent File World) :
    held q b ≤ held q' b := by
  refine Nat.add_le_add ?_ (Finset.sum_le_sum fun i _ => ?_)
  · refine List.countP_mono_left ?_
    intro a _ ha
    cases ht : a.ticket with
    | none =>
      rw [ht] at ha
      cases ha
    | some t =>
      rw [ht] at ha
      exact h t ha
  · unfold TorrentPool.pendingOf
    cases b.torrents.torrents.lookup ⟨i⟩ with
    | none => exact Nat.le_refl _
    | some T => exact List.countP_mono_left fun e _ he => h _ he

theorem weight_le_due (q : Ticket → Bool) (t : Ticket) : weight q (some t) ≤ due q (some t) := by
  rw [due, weight_some, weight_some]
  by_cases hq : q t = true
  · rw [if_pos hq, if_pos (by rw [hq]; rfl)]
  · rw [if_neg hq]
    exact Nat.zero_le _

theorem refusal_le_due (q : Ticket → Bool) (t : Ticket) : weight q (some { t with reply := none }) ≤ due q (some t) := by
  rw [due, weight_some, weight_some]
  by_cases hq : q { t with reply := none } = true
  · rw [if_pos hq, if_pos (by rw [hq, Bool.or_true])]
  · rw [if_neg hq]
    exact Nat.zero_le _

theorem queuedReplies_append (q : Ticket → Bool) (events actions : List NetworkBehaviourAction) :
    queuedReplies q (events ++ actions) = queuedReplies q events + queuedReplies q actions := List.countP_append

theorem queuedReplies_cons (q : Ticket → Bool) (a : NetworkBehaviourAction) (actions : List NetworkBehaviourAction) :
    queuedReplies q (a :: actions) = queuedReplies q actions + weight q a.ticket := by
  rw [queuedReplies, List.countP_cons]
  cases a.ticket <;> rfl

theorem queuedReplies_silent (q : Ticket → Bool) {actions : List NetworkBehaviourAction}
    (h : ∀ a ∈ actions, a.ticket = none) : queuedReplies q actions = 0 := by
  refine List.countP_eq_zero.mpr ?_
  intro a ha
  rw [h a ha]
  exact Bool.false_ne_true

theorem entering_none (q : Ticket → Bool) {pool : TorrentPool} {ops : List PoolOp}
    (h : ∀ o ∈ ops, pool.enters o = none) : entering q pool ops = 0 := by
  refine List.sum_eq_zero ?_
  intro x hx
  obtain ⟨o, ho, rfl⟩ := List.mem_map.mp hx
  rw [h o ho]
  rfl

/-- the entry of a request has the ticket of the request -/
theorem ofEntry_ticket (peer : PeerId) (requestId : RequestId) (request : PeerRequest) :
    Ticket.ofEntry (peer, requestId, .ofRequest request)
      = ⟨peer, requestId, some (.block request.index request.begin_)⟩ := by
  simp [Ticket.ofEntry, BlockMetadata.ofRequest]

section
variable {fs : FileSystem File World Err} {sha1 : List UInt8 → ShaHash} {b b' : BitTorrent File World}

/-- **What an event brings**: a reply or a refusal is queued, or the request waits; nothing, if it is no request. -/
theorem replies_injectNodeEvent (b : BitTorrent File World) (w : Walk) (now : Instant) (peer : PeerId)
    (event : BitTorrentHandlerEvent) : ∃ actions,
      (b.injectNodeEvent w now peer event).queuedEvents = b.queuedEvents ++ actions ∧
      ∀ q, queuedReplies q actions + entering q b.torrents (b.eventOps w now peer event)
        ≤ due q (event.owes.map fun g => ⟨peer, g.1, some g.2⟩) := by
  -- an event that queues no reply and lets no request wait
  have hsilent : ∀ {actions : List NetworkBehaviourAction} {ops : List PoolOp}, (∀ a ∈ actions, a.ticket = none) →
      (∀ o ∈ ops, b.torrents.enters o = none) → ∀ (q : Ticket → Bool) (n : Nat),
        queuedReplies q actions + entering q b.torrents ops ≤ n := by
    intro actions ops ha ho q n
    rw [queuedReplies_silent q ha, entering_none q ho]
    exact Nat.zero_le _
  cases event with
  | handshakeReq handshake requestId =>
    unfold injectNodeEvent
    simp only
    split
    · refine ⟨_, rfl, fun q => ?_⟩
      rw [queuedReplies_cons, queuedReplies_silent q (List.forall_mem_nil _),
        entering_none q (by simp [eventOps, TorrentPool.enters]),
        Nat.zero_add, Nat.add_zero]
      exact weight_le_due q _
    · exact ⟨_, rfl, fun q => hsilent (by simp [NetworkBehaviourAction.ticket, BitTorrentHandlerIn.gives])
        (by simp [eventOps, TorrentPool.enters]) q _⟩
  | bitfieldReq indexField requestId =>
    unfold injectNodeEvent
    simp only
    split
    · refine ⟨_, rfl, fun q => ?_⟩
      rw [queuedReplies_cons, queuedReplies_silent q (List.forall_mem_nil _),
        entering_none q (by simp [eventOps, TorrentPool.enters]),
        Nat.zero_add, Nat.add_zero]
      exact weight_le_due q _
    · exact ⟨_, rfl, fun q => hsilent (by simp [NetworkBehaviourAction.ticket, BitTorrentHandlerIn.gives])
        (by simp [eventOps, TorrentPool.enters]) q _⟩
  | getPieceReq request requestId =>
    unfold injectNodeEvent
    simp only
    split
    · -- taken: the request waits
      rename_i id pool hreq
      refine ⟨[], (List.append_nil _).symm, fun q => ?_⟩
      have henters : b.torrents.enters (.onPieceRequest w peer (.ofRequest request) requestId)
          = some (id, peer, requestId, .ofRequest request) := by
        rw [TorrentPool.enters, hreq]
        rfl
      rw [queuedReplies_silent q (List.forall_mem_nil _), Nat.zero_add, eventOps, entering,
        List.map_singleton, List.sum_singleton, henters,
        Option.map_some, weight_some, ofEntry_ticket]
      exact weight_le_due q _
    · rename_i pool hreq
      refine ⟨_, rfl, fun q => ?_⟩
      have henters : b.torrents.enters (.onPieceRequest w peer (.ofRequest request) requestId) = none := by
        rw [TorrentPool.enters, hreq]
        rfl
      rw [queuedReplies_cons, queuedReplies_silent q (by simp [NetworkBehaviourAction.ticket]),
        entering_none q (by simpa [eventOps] using henters), Nat.zero_add, Nat.add_zero]
      exact refusal_le_due q ⟨peer, requestId, some (.block request.index request.begin_)⟩
  | bitfieldRes indexField userData =>
    have hops : ∀ o ∈ b.eventOps w now peer (.bitfieldRes indexField userData), b.torrents.enters o = none := by
      rw [eventOps]
      split <;> simp [TorrentPool.enters]
    unfold injectNodeEvent
    simp only
    split
    · split
      · exact ⟨_, rfl, fun q => hsilent (by simp [NetworkBehaviourAction.ticket, BitTorrentHandlerIn.gives]) hops q _⟩
      · exact ⟨[], (List.append_nil _).symm, fun q => hsilent (List.forall_mem_nil _) hops q _⟩
    · exact ⟨_, rfl, fun q => hsilent (by simp [NetworkBehaviourAction.ticket]) hops q _⟩
  | handshakeRes handshake userData =>
    unfold injectNodeEvent
    simp only
    split <;> exact ⟨_, rfl, fun q => hsilent (by simp [NetworkBehaviourAction.ticket, BitTorrentHandlerIn.gives])
      (by simp [eventOps, TorrentPool.enters]) q _⟩
  | torrentErr => exact ⟨[], (List.append_nil _).symm, fun q => hsilent (List.forall_mem_nil _) (List.forall_mem_nil _) q _⟩
  | interest inner =>
    exact ⟨_, rfl, fun q => hsilent (by simp [NetworkBehaviourAction.ticket]) (by simp [eventOps, TorrentPool.enters]) q _⟩
  | keepAlive timestamp =>
    exact ⟨_, rfl, fun q => hsilent (by simp [NetworkBehaviourAction.ticket]) (by simp [eventOps, TorrentPool.enters]) q _⟩
  | _ =>
    unfold injectNodeEvent
    simp only
    split <;> exact ⟨_, rfl, fun q => hsilent (by simp [NetworkBehaviourAction.ticket])
      (by simp [eventOps, TorrentPool.enters]) q _⟩

/-- calls of the user and the swarm's news of connections queue no replies -/
theorem replies_call {op : BehaviourOp} (hop : op.isPoll = false)
    (hevent : ∀ w now peer event, op ≠ .injectNodeEvent w now peer event) (h : b.step fs sha1 op = some b') :
    ∃ actions, b'.queuedEvents = b.queuedEvents ++ actions ∧ ∀ a ∈ actions, a.ticket = none := by
  obtain ⟨actions, heq, hactions⟩ := queues_call hop hevent h
  exact ⟨actions, heq, fun a ha => NetworkBehaviourAction.ticket_of_ofCall (hactions a ha)⟩

/-! ## one step -/

/-- operations of the pool let no more requests wait than enter -/
theorem pending_ops (hb : b.Grounded) {ops : List PoolOp} (q : Ticket → Bool)
    (hops : (∃ o, ops = [o]) ∨ ∀ o ∈ ops, ∀ pool : TorrentPool, pool.enters o = none) :
    (exec TorrentPool.step b.torrents ops).pending (fun e => q (.ofEntry e))
      ≤ b.torrents.pending (fun e => q (.ofEntry e)) + entering q b.torrents ops := by
  rcases hops with ⟨o, rfl⟩ | hnone
  · rw [entering, List.map_singleton, List.sum_singleton]
    exact TorrentPool.pending_step hb o _
  · exact Nat.le_add_right_of_le (TorrentPool.pending_exec hb hnone _)

/-- an answer of the disk manager: a block that finds its request becomes a queued reply -/
theorem held_onDiskMessage (hb : b.Grounded) (peers : Arrangement PeerId) (msg : DiskMessageOut) (q : Ticket → Bool) :
    held q (b.onDiskMessage peers msg).2 ≤ held q b ∧
      (b.onDiskMessage peers msg).1.action.bind NetworkBehaviourAction.ticket = none := by
  have hpool := torrents_onDiskMessage b peers msg
  -- an answer that queues no reply
  have hquiet : (∃ actions, (b.onDiskMessage peers msg).2.queuedEvents = b.queuedEvents ++ actions ∧
      ∀ a ∈ actions, a.ticket = none) → held q (b.onDiskMessage peers msg).2 ≤ held q b := by
    rintro ⟨actions, heq, hactions⟩
    rw [held, held, heq, queuedReplies_append, queuedReplies_silent q hactions, hpool]
    refine Nat.add_le_add_left (TorrentPool.pending_exec hb ?_ _) _
    cases msg <;> simp [messageOps, TorrentPool.enters]
  cases msg with
  | blockRead torrent block =>
    unfold onDiskMessage at hquiet ⊢
    simp only at hquiet ⊢
    split
    · rename_i peer requestId pool h
      refine ⟨?_, rfl⟩
      have hread := TorrentPool.pending_onBlockRead hb (congrArg Prod.fst h) fun e => q (.ofEntry e)
      rw [h] at hread
      simp only at hread
      show queuedReplies q (b.queuedEvents ++ [_]) + pool.pending _ ≤ _
      rw [queuedReplies_append, queuedReplies_cons, queuedReplies_silent q (List.forall_mem_nil _), held, Nat.zero_add]
      have hticket : (NetworkBehaviourAction.sendEvent peer (.getPieceRes block.toPiece requestId)).ticket
          = some (.ofEntry (peer, requestId, block.metadata)) := rfl
      rw [hticket, weight_some]
      omega
    · rename_i pool h
      rw [h] at hquiet
      exact ⟨hquiet ⟨[], (List.append_nil _).symm, List.forall_mem_nil _⟩, rfl⟩
  | pieceWritten torrentId block =>
    unfold onDiskMessage at hquiet ⊢
    simp only at hquiet ⊢
    split
    · rename_i T hT
      rw [hT] at hquiet
      refine ⟨hquiet ⟨_, rfl, ?_⟩, rfl⟩
      intro a ha
      obtain ⟨p, -, rfl⟩ := List.mem_map.mp ha
      rfl
    · exact ⟨Nat.le_refl _, rfl⟩
  | torrentSynced id => exact ⟨hquiet ⟨[_], rfl, by simp [NetworkBehaviourAction.ticket]⟩, rfl⟩
  | _ => exact ⟨Nat.le_refl _, rfl⟩

/-- **One step.**  A reply that is handed out is not held any more; only a request that comes in adds to what is held,
itself or its refusal. -/
theorem held_step {op : BehaviourOp} (hb : b.Grounded) (h : b.step fs sha1 op = some b') (q : Ticket → Bool) :
    held q b' + weight q ((b.output fs sha1 op).bind NetworkBehaviourAction.ticket) ≤ held q b + due q op.owes := by
  -- a call or an event: the pool does its operations, and what is queued are no replies
  have hcall : op.isPoll = false → (∀ w now peer event, op ≠ .injectNodeEvent w now peer event) →
      (∀ o ∈ b.poolOps fs sha1 op, ∀ pool : TorrentPool, pool.enters o = none) → held q b' ≤ held q b := by
    intro hop hevent hops
    obtain ⟨actions, heq, hactions⟩ := replies_call hop hevent h
    rw [held, held, heq, queuedReplies_append, queuedReplies_silent q hactions, torrents_step h]
    exact Nat.add_le_add_left (TorrentPool.pending_exec hb hops _) _
  cases op with
  | popEvent =>
    cases h
    show queuedReplies q b.queuedEvents.tail + b.torrents.pending _
      + weight q (b.queuedEvents.head?.bind NetworkBehaviourAction.ticket) ≤ held q b + 0
    rw [held]
    cases b.queuedEvents with
    | nil => exact Nat.le_refl _
    | cons a events =>
      rw [queuedReplies_cons, List.tail_cons, List.head?_cons, Option.bind_some]
      omega
  | pollPool now e =>
    have htorrents := torrents_step h
    cases h
    have hquiet : (b.pollPool now e).2.queuedEvents = b.queuedEvents ∧
        (b.pollPool now e).1.action.bind NetworkBehaviourAction.ticket = none := by
      unfold pollPool
      split <;> exact ⟨rfl, rfl⟩
    rw [output, hquiet.2, held, held, hquiet.1, htorrents]
    exact Nat.add_le_add_left (TorrentPool.pending_exec hb (by simp [poolOps, TorrentPool.enters]) _) _
  | pollDisk e =>
    obtain ⟨r, hr, rfl⟩ := Option.map_eq_some_iff.mp h
    rw [output, hr, Option.bind_some]
    rcases pollDisk_cases hr with ⟨msg, dm, -, -, rfl⟩ | ⟨dm, -, -, rfl⟩
    · have hdisk := held_onDiskMessage (b := { b with diskManager := dm }) hb e.peers msg q
      rw [hdisk.2]
      exact hdisk.1
    · exact Nat.le_refl _
  | injectNodeEvent w now peer event =>
    have htorrents := torrents_step h
    cases h
    obtain ⟨actions, heq, hdue⟩ := replies_injectNodeEvent b w now peer event
    have hops : (∃ o, b.eventOps w now peer event = [o]) ∨
        ∀ o ∈ b.eventOps w now peer event, ∀ pool : TorrentPool, pool.enters o = none := by
      cases event with
      | bitfieldRes indexField userData =>
        rw [eventOps]
        split <;> simp [TorrentPool.enters]
      | torrentErr => exact Or.inr (List.forall_mem_nil _)
      | _ => exact Or.inl ⟨_, rfl⟩
    have hpending := pending_ops hb q hops
    have hdue := hdue q
    rw [held, held, heq, queuedReplies_append, htorrents]
    show _ + (exec TorrentPool.step b.torrents (b.eventOps w now peer event)).pending _ + 0 ≤ _ + due q (event.owes.map _)
    omega
  | addLeech torrent state =>
    refine hcall rfl (by rintro _ _ _ _ ⟨⟩) ?_
    rw [poolOps]
    cases TorrentConfig.newLeech sha1 torrent state <;> simp [TorrentPool.enters]
  | addSeed torrent state =>
    refine hcall rfl (by rintro _ _ _ _ ⟨⟩) ?_
    rw [poolOps]
    cases TorrentConfig.newSeed sha1 torrent state <;> simp [TorrentPool.enters]
  | _ => exact hcall rfl (by rintro _ _ _ _ ⟨⟩) (by simp [poolOps, TorrentPool.enters])

end

end BitTorrent

end Btt
