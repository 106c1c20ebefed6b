import BitTorrent.Handler.Step

/-!
# The handler and the swarm

A request of the behaviour leaves the handler when the swarm is asked to open its substream, and comes back when the
substream is negotiated or the dial has failed.  `Link` is the handler with what the swarm is still opening; every
such request is resolved once.

User data is only passed through: `map` replaces it, and a call does the same to the replaced data (`call_map`).  So
the data of a run can be marked with the calls they came with (`marked`) without changing what happens (`exec_marked`).
-/

namespace Btt
open Run

variable {S U W E V : Type}

/-! ## other user data -/

namespace BitTorrentHandler

def In.map (f : U → W) : In U → In W
  | .handshakeReq handshake userData => .handshakeReq handshake (f userData)
  | .bitfieldReq indexField userData => .bitfieldReq indexField (f userData)
  | .getPieceReq request userData => .getPieceReq request (f userData)
  | .disconnect timeout => .disconnect timeout
  | .reset requestId => .reset requestId
  | .handshakeRes handshake requestId => .handshakeRes handshake requestId
  | .bitfieldRes indexField requestId => .bitfieldRes indexField requestId
  | .choke inner => .choke inner
  | .interest inner => .interest inner
  | .getPieceRes piece requestId => .getPieceRes piece requestId
  | .cancelPiece request requestId => .cancelPiece request requestId
  | .have_ index => .have_ index
  | .keepAlive => .keepAlive

def Event.map (f : U → W) : Event U E V → Event W E V
  | .handshakeRes handshake userData => .handshakeRes handshake (f userData)
  | .bitfieldRes indexField userData => .bitfieldRes indexField (f userData)
  | .getPieceRes piece userData => .getPieceRes piece (f userData)
  | .torrentErr error userData => .torrentErr error (userData.map f)
  | .handshakeReq handshake requestId => .handshakeReq handshake requestId
  | .bitfieldReq indexField requestId => .bitfieldReq indexField requestId
  | .getPieceReq request requestId => .getPieceReq request requestId
  | .cancelPiece request requestId => .cancelPiece request requestId
  | .choke inner => .choke inner
  | .interest inner => .interest inner
  | .have_ index => .have_ index
  | .keepAlive timestamp => .keepAlive timestamp

end BitTorrentHandler

def ProtocolsHandlerEvent.map (f : U → W) : ProtocolsHandlerEvent U E V → ProtocolsHandlerEvent W E V
  | .outboundSubstreamRequest info => .outboundSubstreamRequest (info.1, info.2.map f)
  | .custom event => .custom (event.map f)

def SubstreamState.map (f : U → W) : SubstreamState S U E V → SubstreamState S W E V
  | .outPendingOpen msg userData => .outPendingOpen msg (userData.map f)
  | .outPendingSend stream msg userData => .outPendingSend stream msg (userData.map f)
  | .outPendingFlush stream userData => .outPendingFlush stream (userData.map f)
  | .outWaitingAnswer stream userData since => .outWaitingAnswer stream (f userData) since
  | .outReportError error userData => .outReportError error (f userData)
  | .outClosing stream => .outClosing stream
  | .inWaitingMessage id stream => .inWaitingMessage id stream
  | .inWaitingUser id stream => .inWaitingUser id stream
  | .inPendingSend id stream msg => .inPendingSend id stream msg
  | .inPendingFlush id stream => .inPendingFlush id stream
  | .inClosing stream => .inClosing stream

def BitTorrentHandler.map (f : U → W) (h : BitTorrentHandler S U E V) : BitTorrentHandler S W E V :=
  ⟨h.substreams.map (SubstreamState.map f), h.keepAlive, h.nextConnecUniqueId⟩

open BitTorrentHandler

section
variable (f : U → W) (io : BttStream S E) (now : Instant)

theorem processBttIn_map (msg : PeerMessage) (id : Nat) :
    (processBttIn now msg id : Option (Event W E V)) = (processBttIn now msg id).map (Event.map f) := by
  cases msg <;> rfl

theorem processBttOut_map (msg : PeerMessage) (u : U) :
    (processBttOut msg (f u) : Option (Event W E V)) = (processBttOut msg u).map (Event.map f) := by
  cases msg <;> rfl

theorem reportIo_map (err : E) (userData : Option U) :
    (reportIo err (userData.map f) : Option (ProtocolsHandlerEvent W E V))
      = (reportIo err userData).map (ProtocolsHandlerEvent.map f) := by
  cases userData <;> rfl

theorem advanceSubstream_map (s : SubstreamState S U E V) :
    advanceSubstream io now (s.map f) = (advanceSubstream io now s).map fun r =>
      (r.1.map (SubstreamState.map f), r.2.1.map (ProtocolsHandlerEvent.map f), r.2.2) := by
  cases s with
  | outPendingSend stream msg userData =>
    simp only [SubstreamState.map, advanceSubstream]
    split
    · split
      · rfl
      · rw [reportIo_map]
        rfl
    · rfl
    · rw [reportIo_map]
      rfl
  | outPendingFlush stream userData =>
    simp only [SubstreamState.map, advanceSubstream]
    split
    · cases userData <;> rfl
    · rfl
    · rw [reportIo_map]
      rfl
  | outWaitingAnswer stream userData since =>
    simp only [SubstreamState.map, advanceSubstream]
    split
    · rw [processBttOut_map, Option.map_map, Option.map_map]
      rfl
    all_goals rfl
  | inWaitingMessage id stream =>
    simp only [SubstreamState.map, advanceSubstream]
    split
    · rw [processBttIn_map f, Option.map_map, Option.map_map]
      rfl
    all_goals rfl
  | inPendingSend id stream msg =>
    simp only [SubstreamState.map, advanceSubstream]
    split
    · split <;> rfl
    all_goals rfl
  | outClosing stream =>
    simp only [SubstreamState.map, advanceSubstream]
    split <;> rfl
  | inPendingFlush id stream =>
    simp only [SubstreamState.map, advanceSubstream]
    split <;> rfl
  | inClosing stream =>
    simp only [SubstreamState.map, advanceSubstream]
    split <;> rfl
  | _ => rfl

theorem moves_map (s : SubstreamState S U E V) : (s.map f).moves = s.moves := by
  cases s <;> rfl

theorem advanceWhile_map (n : Nat) (s : SubstreamState S U E V) :
    advanceWhile io now n (s.map f) = (advanceWhile io now n s).map fun r =>
      (r.1.map (SubstreamState.map f), r.2.map (ProtocolsHandlerEvent.map f)) := by
  induction n generalizing s with
  | zero => rfl
  | succ n ih =>
    rw [advanceWhile, advanceWhile, advanceSubstream_map]
    cases advanceSubstream io now s with
    | none => rfl
    | some r =>
      obtain ⟨_ | t, _ | event, _ | _⟩ := r <;> first | rfl | exact ih t

theorem settle_map (s : SubstreamState S U E V) :
    settle io now (s.map f) = (settle io now s).map fun r =>
      (r.1.map (SubstreamState.map f), r.2.map (ProtocolsHandlerEvent.map f)) := by
  rw [settle, moves_map, advanceWhile_map]
  rfl

theorem swapRemove_map {α β : Type} (g : α → β) (l : List α) (i : Nat) :
    DiskManager.swapRemove (l.map g) i = (DiskManager.swapRemove l i).map fun r => (g r.1, r.2.map g) := by
  unfold DiskManager.swapRemove
  rw [List.getElem?_map, List.getLast?_map]
  cases l[i]? with
  | none => rfl
  | some a =>
    cases l.getLast? with
    | none => rfl
    | some last =>
      simp only [Option.map_some, Option.some.injEq, Prod.mk.injEq, true_and]
      rw [← List.map_set, List.map_dropLast]

theorem pollSubstreams_map (clock : Nat → Instant) (n : Nat) (h : BitTorrentHandler S U E V) :
    pollSubstreams io clock n (h.map f) = (pollSubstreams io clock n h).map fun r =>
      (r.1.map (ProtocolsHandlerEvent.map f), r.2.map f) := by
  induction n generalizing h with
  | zero => rfl
  | succ n ih =>
    have hmap := swapRemove_map (SubstreamState.map f) h.substreams n
    cases hswap : DiskManager.swapRemove h.substreams n with
    | none =>
      rw [hswap, Option.map_none] at hmap
      rw [pollSubstreams, pollSubstreams, hswap, show (h.map f).substreams = h.substreams.map _ from rfl, hmap]
      rfl
    | some x =>
      obtain ⟨s, rest⟩ := x
      rw [hswap, Option.map_some] at hmap
      rw [pollSubstreams_succ (h := h.map f) hmap, pollSubstreams_succ hswap, settle_map]
      -- the handler with the substream put back is mapped as a whole
      have hback : ∀ s' : Option (SubstreamState S U E V),
          ({ h.map f with substreams := rest.map (SubstreamState.map f) ++ (s'.map (SubstreamState.map f)).toList } :
            BitTorrentHandler S W E V) = BitTorrentHandler.map f { h with substreams := rest ++ s'.toList } := by
        intro s'
        cases s' <;> simp [BitTorrentHandler.map]
      cases settle io (clock (n + 1)) s with
      | none => rfl
      | some r =>
        obtain ⟨s', _ | event⟩ := r
        · simp only [Option.map_some, Option.map_none, Option.bind_some, Option.elim_none, hback]
          exact ih _
        · simp only [Option.map_some, Option.bind_some, Option.elim_some, hback]

theorem poll_map (clock : Nat → Instant) (h : BitTorrentHandler S U E V) :
    (h.map f).poll io clock = (h.poll io clock).map fun r => (r.1.map (ProtocolsHandlerEvent.map f), r.2.map f) := by
  have hlen : (h.map f).substreams.length = h.substreams.length := List.length_map _
  rw [poll, poll, hlen, pollSubstreams_map]
  cases pollSubstreams io clock h.substreams.length h with
  | none => rfl
  | some r =>
    obtain ⟨_ | event, h1⟩ := r
    · have hempty : (h1.map f).substreams.isEmpty = h1.substreams.isEmpty := List.isEmpty_map
      simp only [Option.map_some, Option.map_none, hempty]
      split <;> rfl
    · rfl

theorem findIdx?_map_waitsFor (h : BitTorrentHandler S U E V) (requestId : RequestId) :
    (h.map f).substreams.findIdx? (waitsFor requestId) = h.substreams.findIdx? (waitsFor requestId) := by
  show (h.substreams.map _).findIdx? _ = _
  rw [List.findIdx?_map]
  congr 1
  funext s
  cases s <;> rfl

theorem answer_map (h : BitTorrentHandler S U E V) (requestId : RequestId) (msg : PeerMessage) :
    (h.map f).answer requestId msg = (h.answer requestId msg).map (BitTorrentHandler.map f) := by
  unfold answer
  rw [findIdx?_map_waitsFor]
  cases h.substreams.findIdx? (waitsFor requestId) with
  | none => rfl
  | some pos =>
    have hget : (h.map f).substreams[pos]? = h.substreams[pos]?.map (SubstreamState.map f) := List.getElem?_map ..
    simp only [hget]
    cases h.substreams[pos]? with
    | none => rfl
    | some s =>
      cases s with
      | inWaitingUser id stream => simp [BitTorrentHandler.map, SubstreamState.map, List.eraseIdx_map]
      | _ => rfl

theorem injectEvent_map (h : BitTorrentHandler S U E V) (event : In U) :
    (h.map f).injectEvent (event.map f) = (h.injectEvent event).map (BitTorrentHandler.map f) := by
  -- a substream is pushed, or taken out
  have hpush : ∀ s : SubstreamState S U E V, (h.map f).push (s.map f) = (h.push s).map f := by
    intro s
    simp [BitTorrentHandler.map, push]
  have herase : ∀ pos, ({ h.map f with substreams := (h.map f).substreams.eraseIdx pos } : BitTorrentHandler S W E V)
      = BitTorrentHandler.map f { h with substreams := h.substreams.eraseIdx pos } := by
    intro pos
    simp [BitTorrentHandler.map, List.eraseIdx_map]
  cases event with
  | disconnect timeout => cases timeout <;> rfl
  | reset requestId =>
    simp only [In.map, injectEvent, findIdx?_map_waitsFor, herase]
    split <;> rfl
  | cancelPiece request requestId =>
    simp only [In.map, injectEvent, findIdx?_map_waitsFor, herase]
    split
    · rfl
    · exact congrArg some (hpush (.outPendingOpen (.cancel request) none))
  | handshakeRes handshake requestId => exact answer_map f h requestId _
  | bitfieldRes indexField requestId => exact answer_map f h requestId _
  | getPieceRes piece requestId => exact answer_map f h requestId _
  | handshakeReq handshake userData => exact congrArg some (hpush (.outPendingOpen (.handshake handshake) (some userData)))
  | bitfieldReq indexField userData => exact congrArg some (hpush (.outPendingOpen (.bitfield indexField) (some userData)))
  | getPieceReq request userData => exact congrArg some (hpush (.outPendingOpen (.request request) (some userData)))
  | choke inner =>
    cases inner with
    | choked => exact congrArg some (hpush (.outPendingOpen .choke none))
    | unChoked => exact congrArg some (hpush (.outPendingOpen .unChoke none))
  | interest inner =>
    cases inner with
    | interested => exact congrArg some (hpush (.outPendingOpen .interested none))
    | notInterested => exact congrArg some (hpush (.outPendingOpen .notInterested none))
  | have_ index => exact congrArg some (hpush (.outPendingOpen (.have_ index) none))
  | keepAlive => exact congrArg some (hpush (.outPendingOpen .keepAlive none))

end

/-! ## the link -/

/-- a handler, and the requests the swarm is opening substreams for -/
structure Link (S U E V : Type) where
  handler : BitTorrentHandler S U E V
  opening : List (PeerMessage × Option U)

/-- the calls; request number `i` of the swarm is negotiated, or its dial fails -/
inductive LinkOp (S U V : Type) where
  | inbound (stream : S)
  | negotiated (i : Nat) (stream : S)
  | dialError (i : Nat) (error : V)
  | injectEvent (event : In U)
  | poll (clock : Nat → Instant)

def ProtocolsHandlerEvent.opened : ProtocolsHandlerEvent U E V → Option (PeerMessage × Option U)
  | .outboundSubstreamRequest info => some info
  | .custom _ => none

namespace Link

def new : Link S U E V := ⟨withSeedLeechConfig, []⟩

/-- the swarm hands request number `i` back, if there is one -/
def resolve (l : Link S U E V) (i : Nat) (back : BitTorrentHandler S U E V → PeerMessage × Option U → BitTorrentHandler S U E V) :
    Link S U E V := l.opening[i]?.elim l fun info => ⟨back l.handler info, l.opening.eraseIdx i⟩

def call (io : BttStream S E) (l : Link S U E V) :
    LinkOp S U V → Option (Option (ProtocolsHandlerEvent U E V) × Link S U E V)
  | .inbound stream => some (none, { l with handler := l.handler.injectFullyNegotiatedInbound stream })
  | .negotiated i stream => some (none, l.resolve i fun h info => h.injectFullyNegotiatedOutbound stream info)
  | .dialError i error => some (none, l.resolve i fun h info => h.injectDialUpgradeError info error)
  | .injectEvent event => (l.handler.injectEvent event).map fun h => (none, { l with handler := h })
  | .poll clock => (l.handler.poll io clock).map fun r => (r.1, ⟨r.2, l.opening ++ (r.1.bind ProtocolsHandlerEvent.opened).toList⟩)

/-- the machine: after a panic nothing happens any more -/
def next (io : BttStream S E) (s : Option (Link S U E V)) (op : LinkOp S U V) : Option (Link S U E V) :=
  s.bind fun l => (l.call io op).map Prod.snd

/-- what the call reports -/
def report (io : BttStream S E) (s : Option (Link S U E V)) (op : LinkOp S U V) : Option (ProtocolsHandlerEvent U E V) :=
  s.bind fun l => (l.call io op).bind Prod.fst

/-- everything a run reports -/
def reports (io : BttStream S E) (s : Option (Link S U E V)) (ops : List (LinkOp S U V)) :
    List (ProtocolsHandlerEvent U E V) := outputs (next io) (report io) s ops

def map (f : U → W) (l : Link S U E V) : Link S W E V :=
  ⟨l.handler.map f, l.opening.map fun info => (info.1, info.2.map f)⟩

end Link

def LinkOp.map (f : U → W) : LinkOp S U V → LinkOp S W V
  | .injectEvent event => .injectEvent (event.map f)
  | .inbound stream => .inbound stream
  | .negotiated i stream => .negotiated i stream
  | .dialError i error => .dialError i error
  | .poll clock => .poll clock

namespace Link

section
variable (f : U → W) (io : BttStream S E)

theorem resolve_map (l : Link S U E V) (i : Nat)
    {back : BitTorrentHandler S U E V → PeerMessage × Option U → BitTorrentHandler S U E V}
    {back' : BitTorrentHandler S W E V → PeerMessage × Option W → BitTorrentHandler S W E V}
    (hback : ∀ h info, back' (h.map f) (info.1, info.2.map f) = (back h info).map f) :
    (l.map f).resolve i back' = (l.resolve i back).map f := by
  have hget : (l.map f).opening[i]? = l.opening[i]?.map fun info => (info.1, info.2.map f) := List.getElem?_map ..
  rw [resolve, resolve, hget]
  cases l.opening[i]? with
  | none => rfl
  | some info =>
    rw [Option.map_some, Option.elim_some, Option.elim_some]
    show (⟨back' (l.handler.map f) _, (l.opening.map _).eraseIdx i⟩ : Link S W E V) = _
    rw [hback, List.eraseIdx_map]
    rfl

/-- **A call passes user data through.** -/
theorem call_map (l : Link S U E V) (op : LinkOp S U V) :
    (l.map f).call io (op.map f) = (l.call io op).map fun r => (r.1.map (ProtocolsHandlerEvent.map f), r.2.map f) := by
  cases op with
  | inbound stream =>
    show some _ = some _
    simp [map, BitTorrentHandler.map, injectFullyNegotiatedInbound, push, SubstreamState.map]
  | negotiated i stream =>
    refine congrArg (fun l => some (none, l)) (resolve_map f l i ?_)
    intro h info
    simp [BitTorrentHandler.map, injectFullyNegotiatedOutbound, push, SubstreamState.map]
  | dialError i error =>
    refine congrArg (fun l => some (none, l)) (resolve_map f l i ?_)
    rintro h ⟨msg, _ | u⟩
    · rfl
    · simp [BitTorrentHandler.map, injectDialUpgradeError, push, SubstreamState.map]
  | injectEvent event =>
    show ((l.handler.map f).injectEvent (event.map f)).map _ = _
    rw [injectEvent_map, Option.map_map]
    show _ = ((l.handler.injectEvent event).map _).map _
    rw [Option.map_map]
    rfl
  | poll clock =>
    show ((l.handler.map f).poll io clock).map _ = _
    rw [poll_map, Option.map_map]
    show _ = ((l.handler.poll io clock).map _).map _
    rw [Option.map_map]
    congr 1
    funext r
    obtain ⟨_ | _ | event, h⟩ := r <;> simp [map, ProtocolsHandlerEvent.opened, ProtocolsHandlerEvent.map]

theorem exec_map (s : Option (Link S U E V)) (ops : List (LinkOp S U V)) :
    exec (next io) (s.map (Link.map f)) (ops.map (LinkOp.map f)) = (exec (next io) s ops).map (Link.map f) ∧
    reports io (s.map (Link.map f)) (ops.map (LinkOp.map f)) = (reports io s ops).map (ProtocolsHandlerEvent.map f) := by
  induction ops generalizing s with
  | nil => exact ⟨rfl, rfl⟩
  | cons op ops ih =>
    have hnext : next io (s.map (Link.map f)) (op.map f) = (next io s op).map (Link.map f) := by
      cases s with
      | none => rfl
      | some l =>
        show ((l.map f).call io (op.map f)).map _ = ((l.call io op).map _).map _
        rw [call_map, Option.map_map, Option.map_map]
        rfl
    have hreport : report io (s.map (Link.map f)) (op.map f) = (report io s op).map (ProtocolsHandlerEvent.map f) := by
      cases s with
      | none => rfl
      | some l =>
        show ((l.map f).call io (op.map f)).bind _ = ((l.call io op).bind _).map _
        rw [call_map]
        cases l.call io op <;> rfl
    rw [List.map_cons, exec_cons, exec_cons, hnext]
    refine ⟨(ih _).1, ?_⟩
    rw [reports, outputs, hnext, hreport, reports, outputs, List.map_append]
    refine congrArg₂ (· ++ ·) ?_ (ih _).2
    cases report io s op <;> rfl

end

/-! ## marked data -/

/-- the data of every call bears the number of the call -/
def marked (ops : List (LinkOp S U V)) : List (LinkOp S (U × Nat) V) := ops.mapIdx fun n op => op.map fun u => (u, n)

theorem map_fst_mark (op : LinkOp S U V) (n : Nat) : (op.map fun u => (u, n)).map Prod.fst = op := by
  cases op with
  | injectEvent event => cases event <;> rfl
  | _ => rfl

theorem marked_snoc (ops : List (LinkOp S U V)) (op : LinkOp S U V) :
    marked (ops ++ [op]) = marked ops ++ [op.map fun u => (u, ops.length)] := by
  rw [marked, List.mapIdx_concat]
  rfl

theorem map_fst_marked (ops : List (LinkOp S U V)) : (marked ops).map (LinkOp.map Prod.fst) = ops := by
  induction ops using List.reverseRecOn with
  | nil => rfl
  | append_singleton ops op ih => rw [marked_snoc, List.map_append, ih, List.map_singleton, map_fst_mark]

/-- **Marking changes nothing**: the run of the marked calls is the run of the calls, with marked data. -/
theorem exec_marked (io : BttStream S E) (ops : List (LinkOp S U V)) :
    (exec (next io) (some (new : Link S (U × Nat) E V)) (marked ops)).map (Link.map Prod.fst) = exec (next io) (some new) ops ∧
    (reports io (some (new : Link S (U × Nat) E V)) (marked ops)).map (ProtocolsHandlerEvent.map Prod.fst)
      = reports io (some new) ops := by
  obtain ⟨h1, h2⟩ := exec_map Prod.fst io (some (new : Link S (U × Nat) E V)) (marked ops)
  rw [map_fst_marked] at h1 h2
  exact ⟨h1.symm, h2.symm⟩

end Link

end Btt
