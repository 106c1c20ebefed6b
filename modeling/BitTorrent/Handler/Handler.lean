import BitTorrent.Disk.Manager
import BitTorrent.Peer.Torrent
import BitTorrent.Proto.Message

/-!
# The protocol handler of a connection

`BitTorrentHandler` of `src/handler.rs`: one substream for every request we make and for every one the remote makes,
each in one of the states of `SubstreamState`.  Events of the behaviour and new substreams are injected, `poll`
advances the substreams and reports what happens on them.

* `BttStream`            what a substream answers when it is polled; its state is of any type;
* `advanceSubstream`     one move of a substream;
* `settle`               the moves of a substream within one poll (`settle_eq` is the loop's equation);
* `poll`                 the reverse loop over the substreams;
* `BitTorrentHandlerOp`, `call`   the calls, and what they answer.

The user data `U`, the errors of streams `E` and of upgrades `V` are of any type.  `none` is a panic: the messages
`Port` are not implemented.
-/

namespace Btt

inductive KeepAlive where
  | until_ (t : Instant)
  | yes
  | no
deriving DecidableEq

/-- `BttStreamSink`: messages are sent and received on a stream that is in a state of type `S` -/
structure BttStream (S E : Type) where
  pollReady : S → Poll (Except E Unit) × S
  startSend : S → PeerMessage → Except E Unit × S
  pollFlush : S → Poll (Except E Unit) × S
  pollNext : S → Poll (Option (Except E PeerMessage)) × S
  pollClose : S → Poll (Except E Unit) × S
  /-- `io::ErrorKind::UnexpectedEof.into()` -/
  unexpectedEof : E

namespace BitTorrentHandler

/-! ## events -/

/-- `BitTorrentHandlerTorrentErr` -/
inductive TorrentErr (E V : Type) where
  | upgrade (err : V)
  | unexpectedMessage (msg : PeerMessage)
  | io (err : E)

/-- `BitTorrentHandlerIn`, for any user data -/
inductive In (U : Type) where
  | disconnect (timeout : Option Instant)
  | reset (requestId : RequestId)
  | handshakeReq (handshake : Handshake) (userData : U)
  | handshakeRes (handshake : Handshake) (requestId : RequestId)
  | bitfieldReq (indexField : BitField) (userData : U)
  | bitfieldRes (indexField : BitField) (requestId : RequestId)
  | choke (inner : ChokeType)
  | interest (inner : InterestType)
  | getPieceReq (request : PeerRequest) (userData : U)
  | getPieceRes (piece : Piece) (requestId : RequestId)
  | cancelPiece (request : PeerRequest) (requestId : RequestId)
  | have_ (index : UInt32)
  | keepAlive

/-- `BitTorrentHandlerEvent`, for any user data -/
inductive Event (U E V : Type) where
  | handshakeReq (handshake : Handshake) (requestId : RequestId)
  | handshakeRes (handshake : Handshake) (userData : U)
  | bitfieldReq (indexField : BitField) (requestId : RequestId)
  | bitfieldRes (indexField : BitField) (userData : U)
  | getPieceReq (request : PeerRequest) (requestId : RequestId)
  | getPieceRes (piece : Piece) (userData : U)
  | cancelPiece (request : PeerRequest) (requestId : RequestId)
  | choke (inner : ChokeType)
  | interest (inner : InterestType)
  | have_ (index : UInt32)
  | torrentErr (error : TorrentErr E V) (userData : Option U)
  | keepAlive (timestamp : Instant)

end BitTorrentHandler

/-- what a poll reports: the swarm is to open a substream, or an event for the behaviour -/
inductive ProtocolsHandlerEvent (U E V : Type) where
  | outboundSubstreamRequest (info : PeerMessage × Option U)
  | custom (event : BitTorrentHandler.Event U E V)

/-! ## substreams -/

inductive SubstreamState (S U E V : Type) where
  | outPendingOpen (msg : PeerMessage) (userData : Option U)
  | outPendingSend (stream : S) (msg : PeerMessage) (userData : Option U)
  | outPendingFlush (stream : S) (userData : Option U)
  | outWaitingAnswer (stream : S) (userData : U) (since : Instant)
  | outReportError (error : BitTorrentHandler.TorrentErr E V) (userData : U)
  | outClosing (stream : S)
  | inWaitingMessage (id : Nat) (stream : S)
  | inWaitingUser (id : Nat) (stream : S)
  | inPendingSend (id : Nat) (stream : S) (msg : PeerMessage)
  | inPendingFlush (id : Nat) (stream : S)
  | inClosing (stream : S)

section
variable {S U E V : Type}

open BitTorrentHandler

/-- a message that is expected to be a request of the remote -/
def processBttIn (now : Instant) : PeerMessage → Nat → Option (Event U E V)
  | .handshake handshake, id => some (.handshakeReq handshake ⟨id⟩)
  | .bitfield indexField, id => some (.bitfieldReq indexField ⟨id⟩)
  | .keepAlive, _ => some (.keepAlive now)
  | .choke, _ => some (.choke .choked)
  | .unChoke, _ => some (.choke .unChoked)
  | .interested, _ => some (.interest .interested)
  | .notInterested, _ => some (.interest .notInterested)
  | .have_ index, _ => some (.have_ index)
  | .request request, id => some (.getPieceReq request ⟨id⟩)
  | .cancel request, id => some (.cancelPiece request ⟨id⟩)
  | .piece piece, _ => some (.torrentErr (.unexpectedMessage (.piece piece)) none)
  | .port _, _ => none

/-- a message that is expected to be the answer to one of our requests -/
def processBttOut : PeerMessage → U → Option (Event U E V)
  | .bitfield indexField, userData => some (.bitfieldRes indexField userData)
  | .piece piece, userData => some (.getPieceRes piece userData)
  | .handshake handshake, userData => some (.handshakeRes handshake userData)
  | .port _, _ => none
  | msg, userData => some (.torrentErr (.unexpectedMessage msg) (some userData))

/-- an error of the stream is reported if there is user data to report it with -/
def reportIo (err : E) (userData : Option U) : Option (ProtocolsHandlerEvent U E V) :=
  userData.map fun u => .custom (.torrentErr (.io err) (some u))

/-- one move of a substream: its new state, an event, and whether it is to be moved again -/
def advanceSubstream (io : BttStream S E) (now : Instant) :
    SubstreamState S U E V → Option (Option (SubstreamState S U E V) × Option (ProtocolsHandlerEvent U E V) × Bool)
  | .outPendingOpen msg userData => some (none, some (.outboundSubstreamRequest (msg, userData)), false)
  | .outPendingSend stream msg userData =>
    match io.pollReady stream with
    | (.ready (.ok ()), stream) =>
      match io.startSend stream msg with
      | (.ok (), stream) => some (some (.outPendingFlush stream userData), none, true)
      | (.error err, _) => some (none, reportIo err userData, false)
    | (.pending, stream) => some (some (.outPendingSend stream msg userData), none, false)
    | (.ready (.error err), _) => some (none, reportIo err userData, false)
  | .outPendingFlush stream userData =>
    match io.pollFlush stream with
    | (.ready (.ok ()), stream) =>
      match userData with
      | some u => some (some (.outWaitingAnswer stream u now), none, true)
      | none => some (some (.outClosing stream), none, true)
    | (.pending, stream) => some (some (.outPendingFlush stream userData), none, false)
    | (.ready (.error err), _) => some (none, reportIo err userData, false)
  | .outWaitingAnswer stream userData since =>
    match io.pollNext stream with
    | (.ready (some (.ok msg)), stream) =>
      (processBttOut msg userData).map fun event => (some (.outClosing stream), some (.custom event), true)
    | (.pending, stream) => some (some (.outWaitingAnswer stream userData since), none, false)
    | (.ready (some (.error err)), _) => some (none, some (.custom (.torrentErr (.io err) (some userData))), false)
    | (.ready none, _) => some (none, some (.custom (.torrentErr (.io io.unexpectedEof) (some userData))), false)
  | .outReportError error userData => some (none, some (.custom (.torrentErr error (some userData))), false)
  | .outClosing stream =>
    match io.pollClose stream with
    | (.ready _, _) => some (none, none, false)
    | (.pending, stream) => some (some (.outClosing stream), none, false)
  | .inWaitingMessage id stream =>
    match io.pollNext stream with
    | (.ready (some (.ok msg)), stream) =>
      (processBttIn now msg id).map fun event => (some (.inWaitingUser id stream), some (.custom event), false)
    | (.pending, stream) => some (some (.inWaitingMessage id stream), none, false)
    | (.ready none, _) => some (none, none, false)
    | (.ready (some (.error _)), _) => some (none, none, false)
  | .inWaitingUser id stream => some (some (.inWaitingUser id stream), none, false)
  | .inPendingSend id stream msg =>
    match io.pollReady stream with
    | (.ready (.ok ()), stream) =>
      match io.startSend stream msg with
      | (.ok (), stream) => some (some (.inPendingFlush id stream), none, true)
      | (.error _, _) => some (none, none, false)
    | (.pending, stream) => some (some (.inPendingSend id stream msg), none, false)
    | (.ready (.error _), _) => some (none, none, false)
  | .inPendingFlush id stream =>
    match io.pollFlush stream with
    | (.ready (.ok ()), stream) => some (some (.inWaitingMessage id stream), none, true)
    | (.pending, stream) => some (some (.inPendingFlush id stream), none, false)
    | (.ready (.error _), _) => some (none, none, false)
  | .inClosing stream =>
    match io.pollClose stream with
    | (.ready _, _) => some (none, none, false)
    | (.pending, stream) => some (some (.inClosing stream), none, false)

/-- how many moves a substream makes in one poll, at most -/
def SubstreamState.moves : SubstreamState S U E V → Nat
  | .outPendingSend _ _ _ => 3
  | .outPendingFlush _ _ => 2
  | .inPendingSend _ _ _ => 3
  | .inPendingFlush _ _ => 2
  | _ => 1

/-- the inner loop of `poll`: the substream is moved until it reports something or does not move on -/
def advanceWhile (io : BttStream S E) (now : Instant) :
    Nat → SubstreamState S U E V → Option (Option (SubstreamState S U E V) × Option (ProtocolsHandlerEvent U E V))
  | 0, s => some (some s, none)
  | n + 1, s =>
    match advanceSubstream io now s with
    | none => none
    | some (some s, none, true) => advanceWhile io now n s
    | some (s, event, _) => some (s, event)

/-- what becomes of a substream in one poll, and what it reports -/
def settle (io : BttStream S E) (now : Instant) (s : SubstreamState S U E V) :
    Option (Option (SubstreamState S U E V) × Option (ProtocolsHandlerEvent U E V)) :=
  advanceWhile io now s.moves s

end

/-! ## the handler -/

structure BitTorrentHandler (S U E V : Type) where
  substreams : List (SubstreamState S U E V)
  keepAlive : KeepAlive
  nextConnecUniqueId : Nat

namespace BitTorrentHandler
variable {S U E V : Type}

def withSeedLeechConfig : BitTorrentHandler S U E V := ⟨[], .yes, 0⟩

def push (h : BitTorrentHandler S U E V) (s : SubstreamState S U E V) : BitTorrentHandler S U E V :=
  { h with substreams := h.substreams ++ [s] }

/-- the counter is a `u64` -/
def injectFullyNegotiatedInbound (h : BitTorrentHandler S U E V) (stream : S) : BitTorrentHandler S U E V :=
  { h with nextConnecUniqueId := (h.nextConnecUniqueId + 1) % 2 ^ 64 }.push (.inWaitingMessage h.nextConnecUniqueId stream)

def injectFullyNegotiatedOutbound (h : BitTorrentHandler S U E V) (stream : S) (info : PeerMessage × Option U) :
    BitTorrentHandler S U E V := h.push (.outPendingSend stream info.1 info.2)

def injectDialUpgradeError (h : BitTorrentHandler S U E V) (info : PeerMessage × Option U) (error : V) :
    BitTorrentHandler S U E V :=
  match info.2 with
  | some userData => h.push (.outReportError (.upgrade error) userData)
  | none => h

/-- the substream of a request that was handed to the behaviour -/
def waitsFor (requestId : RequestId) : SubstreamState S U E V → Bool
  | .inWaitingUser id _ => id = requestId.connecUniqueId
  | _ => false

/-- `GetPieceRes`, `HandshakeRes` and `BitfieldRes`: the substream of the request is taken out and put back to send
the answer; `none` is `unreachable!()` -/
def answer (h : BitTorrentHandler S U E V) (requestId : RequestId) (msg : PeerMessage) :
    Option (BitTorrentHandler S U E V) :=
  match h.substreams.findIdx? (waitsFor requestId) with
  | some pos =>
    match h.substreams[pos]? with
    | some (.inWaitingUser id stream) =>
      some { h with substreams := h.substreams.eraseIdx pos ++ [.inPendingSend id stream msg] }
    | _ => none
  | none => some h

def injectEvent (h : BitTorrentHandler S U E V) : In U → Option (BitTorrentHandler S U E V)
  | .disconnect (some timeout) => some { h with keepAlive := .until_ timeout }
  | .disconnect none => some { h with keepAlive := .no }
  | .reset requestId =>
    -- what closing the substream answers is dropped with it
    match h.substreams.findIdx? (waitsFor requestId) with
    | some pos => some { h with substreams := h.substreams.eraseIdx pos }
    | none => some h
  | .handshakeReq handshake userData => some (h.push (.outPendingOpen (.handshake handshake) (some userData)))
  | .bitfieldReq indexField userData => some (h.push (.outPendingOpen (.bitfield indexField) (some userData)))
  | .choke .choked => some (h.push (.outPendingOpen .choke none))
  | .choke .unChoked => some (h.push (.outPendingOpen .unChoke none))
  | .interest .interested => some (h.push (.outPendingOpen .interested none))
  | .interest .notInterested => some (h.push (.outPendingOpen .notInterested none))
  | .getPieceReq request userData => some (h.push (.outPendingOpen (.request request) (some userData)))
  | .getPieceRes piece requestId => h.answer requestId (.piece piece)
  | .cancelPiece request requestId =>
    match h.substreams.findIdx? (waitsFor requestId) with
    | some pos => some { h with substreams := h.substreams.eraseIdx pos }
    | none => some (h.push (.outPendingOpen (.cancel request) none))
  | .have_ index => some (h.push (.outPendingOpen (.have_ index) none))
  | .keepAlive => some (h.push (.outPendingOpen .keepAlive none))
  | .handshakeRes handshake requestId => h.answer requestId (.handshake handshake)
  | .bitfieldRes indexField requestId => h.answer requestId (.bitfield indexField)

/-- 20 seconds -/
def idleTimeout : Nat := 20 * 1000000000

section
variable (io : BttStream S E)

/-- the reverse loop over the substreams: take out number `n - 1`, then the ones below; the first that has something
to report ends it.  Number `n - 1` reads the clock as `clock n`. -/
def pollSubstreams (clock : Nat → Instant) :
    Nat → BitTorrentHandler S U E V → Option (Option (ProtocolsHandlerEvent U E V) × BitTorrentHandler S U E V)
  | 0, h => some (none, h)
  | n + 1, h =>
    match DiskManager.swapRemove h.substreams n with
    | none => none
    | some (s, rest) =>
      match settle io (clock (n + 1)) s with
      | none => none
      | some (some s, some event) => some (some event, { h with substreams := rest ++ [s] })
      | some (none, some event) => some (some event, { h with substreams := rest })
      | some (some s, none) => pollSubstreams clock n { h with substreams := rest ++ [s] }
      | some (none, none) => pollSubstreams clock n { h with substreams := rest }

/-- a poll that has nothing to report sets how long the connection is kept; it reads the clock as `clock 0` -/
def poll (h : BitTorrentHandler S U E V) (clock : Nat → Instant) :
    Option (Option (ProtocolsHandlerEvent U E V) × BitTorrentHandler S U E V) :=
  match pollSubstreams io clock h.substreams.length h with
  | none => none
  | some (some event, h) => some (some event, h)
  | some (none, h) =>
    if h.substreams.isEmpty then some (none, { h with keepAlive := .until_ (clock 0 + idleTimeout) })
    else some (none, { h with keepAlive := .yes })

end

end BitTorrentHandler

/-! ## the machine -/

inductive BitTorrentHandlerOp (S U V : Type) where
  | injectFullyNegotiatedInbound (stream : S)
  | injectFullyNegotiatedOutbound (stream : S) (info : PeerMessage × Option U)
  | injectDialUpgradeError (info : PeerMessage × Option U) (error : V)
  | injectEvent (event : BitTorrentHandler.In U)
  | poll (clock : Nat → Instant)

namespace BitTorrentHandler
variable {S U E V : Type} (io : BttStream S E)

/-- the state after a call, and what a poll reports -/
def call (h : BitTorrentHandler S U E V) :
    BitTorrentHandlerOp S U V → Option (Option (ProtocolsHandlerEvent U E V) × BitTorrentHandler S U E V)
  | .injectFullyNegotiatedInbound stream => some (none, h.injectFullyNegotiatedInbound stream)
  | .injectFullyNegotiatedOutbound stream info => some (none, h.injectFullyNegotiatedOutbound stream info)
  | .injectDialUpgradeError info error => some (none, h.injectDialUpgradeError info error)
  | .injectEvent event => (h.injectEvent event).map fun h => (none, h)
  | .poll clock => h.poll io clock

/-- the machine: after a panic nothing happens any more -/
def next (s : Option (BitTorrentHandler S U E V)) (op : BitTorrentHandlerOp S U V) : Option (BitTorrentHandler S U E V) :=
  s.bind fun h => (h.call io op).map Prod.snd

end BitTorrentHandler

end Btt
