import BitTorrent.Behavior.Replies
import BitTorrent.Handler.Link

/-!
# A node

The behaviour, the handlers of its connections, and the events on their way between them.  The swarm hands the events
of the behaviour to the handler of the peer they name, those of a handler to the behaviour, each in order; an event for
a peer that is not connected is lost, and so is everything on its way when the connection closes.

* `Connection`   a link, its two queues of events, and the replies its requests asked for;
* `NodeOp`       calls of the user and moves of `BitTorrent::poll`, connections that open and close, an event that
                 arrives, a move of a link;
* `step`         one of them; `none` is a panic of the behaviour or of a handler.
-/

namespace Btt
open Run

/-! ## events -/

/-- an event of the behaviour, as the handler gets it -/
def BitTorrentHandlerIn.toIn : BitTorrentHandlerIn → BitTorrentHandler.In TorrentId
  | .disconnect => .disconnect none
  | .reset requestId => .reset requestId
  | .handshakeReq handshake userData => .handshakeReq handshake userData
  | .handshakeRes handshake requestId => .handshakeRes handshake requestId
  | .bitfieldReq indexField userData => .bitfieldReq indexField userData
  | .bitfieldRes indexField requestId => .bitfieldRes indexField requestId
  | .choke inner => .choke inner
  | .interest inner => .interest inner
  | .getPieceReq request userData => .getPieceReq request userData
  | .getPieceRes piece requestId => .getPieceRes piece requestId
  | .have_ index => .have_ index
  | .keepAlive => .keepAlive

/-- an event of a handler, as the behaviour gets it -/
def BitTorrentHandler.Event.toBehaviour {E V : Type} : BitTorrentHandler.Event TorrentId E V → BitTorrentHandlerEvent
  | .handshakeReq handshake requestId => .handshakeReq handshake requestId
  | .handshakeRes handshake userData => .handshakeRes handshake userData
  | .bitfieldReq indexField requestId => .bitfieldReq indexField requestId
  | .bitfieldRes indexField userData => .bitfieldRes indexField userData
  | .getPieceReq request requestId => .getPieceReq request requestId
  | .getPieceRes piece userData => .getPieceRes piece userData
  | .cancelPiece request requestId => .cancelPiece request requestId
  | .choke inner => .choke inner
  | .interest inner => .interest inner
  | .have_ index => .have_ index
  | .torrentErr _ _ => .torrentErr
  | .keepAlive timestamp => .keepAlive timestamp

/-- the operations that are news of the swarm -/
def BehaviourOp.isNews : BehaviourOp → Bool
  | .injectConnected _ _ _ => true
  | .injectDisconnected _ _ => true
  | .injectNodeEvent _ _ _ _ => true
  | _ => false

def LinkOp.isEvent {S U V : Type} : LinkOp S U V → Bool
  | .injectEvent _ => true
  | _ => false

/-! ## connections -/

structure Connection (S E V : Type) where
  link : Link S TorrentId E V
  /-- events of the behaviour on their way to the handler -/
  notices : List BitTorrentHandlerIn
  /-- events of the handler on their way to the behaviour -/
  events : List BitTorrentHandlerEvent
  /-- history: the reply that the last request under a number asked for -/
  asked : Nat → Option Reply

namespace Connection
variable {S E V : Type}

def new : Connection S E V := ⟨.new, [], [], fun _ => none⟩

/-- the history after an event of the handler; a request to cancel asks for no reply -/
def note (asked : Nat → Option Reply) (event : BitTorrentHandler.Event TorrentId E V) : Nat → Option Reply :=
  match event.requestId with
  | some r => Function.update asked r.connecUniqueId (event.toBehaviour.owes.map Prod.snd)
  | none => asked

/-- what the handler reports is on its way to the behaviour then; the swarm keeps the rest -/
def report (c : Connection S E V) : Option (ProtocolsHandlerEvent TorrentId E V) → Connection S E V
  | some (.custom event) => { c with events := c.events ++ [event.toBehaviour], asked := note c.asked event }
  | some (.outboundSubstreamRequest _) => c
  | none => c

def call (io : BttStream S E) (c : Connection S E V) (op : LinkOp S TorrentId V) : Option (Connection S E V) :=
  (c.link.call io op).map fun r => { c with link := r.2 }.report r.1

end Connection

/-! ## the node -/

structure Node (File World S E V : Type) where
  behaviour : BitTorrent File World
  connections : AList fun _ : PeerId => Connection S E V

inductive NodeOp (S V : Type) where
  | behaviour (op : BehaviourOp) (hop : op.isNews = false)
  | connected (w : Walk) (peer : PeerId) (endpoint : ConnectedPoint)
  | disconnected (w : Walk) (peer : PeerId)
  /-- the oldest event of the handler of `peer` arrives at the behaviour -/
  | event (w : Walk) (now : Instant) (peer : PeerId)
  /-- the oldest event for `peer` arrives at its handler -/
  | notice (peer : PeerId)
  | link (peer : PeerId) (op : LinkOp S TorrentId V) (hop : op.isEvent = false)

namespace Node
variable {File World Err S E V : Type}

def new (b : BitTorrent File World) : Node File World S E V := ⟨b, ∅⟩

/-- an action of the behaviour; only events for handlers concern the connections -/
def route (n : Node File World S E V) : Option NetworkBehaviourAction → Node File World S E V
  | some (.sendEvent peer event) =>
    match n.connections.lookup peer with
    | some c => { n with connections := n.connections.insert peer { c with notices := c.notices ++ [event] } }
    | none => n
  | _ => n

section
variable (fs : FileSystem File World Err) (sha1 : List UInt8 → ShaHash) (io : BttStream S E)

def step (n : Node File World S E V) : NodeOp S V → Option (Node File World S E V)
  | .behaviour op _ =>
    (n.behaviour.step fs sha1 op).map fun b => { n with behaviour := b }.route (n.behaviour.output fs sha1 op)
  | .connected w peer endpoint =>
    some ⟨n.behaviour.injectConnected w peer endpoint, n.connections.insert peer .new⟩
  | .disconnected w peer => some ⟨n.behaviour.injectDisconnected w peer, n.connections.erase peer⟩
  | .event w now peer =>
    match n.connections.lookup peer with
    | some ⟨link, notices, event :: events, asked⟩ =>
      some ⟨n.behaviour.injectNodeEvent w now peer event, n.connections.insert peer ⟨link, notices, events, asked⟩⟩
    | _ => some n
  | .notice peer =>
    match n.connections.lookup peer with
    | some ⟨link, event :: notices, events, asked⟩ =>
      (Connection.call io ⟨link, notices, events, asked⟩ (.injectEvent event.toIn)).map fun c =>
        { n with connections := n.connections.insert peer c }
    | _ => some n
  | .link peer op _ =>
    match n.connections.lookup peer with
    | some c => (c.call io op).map fun c => { n with connections := n.connections.insert peer c }
    | none => some n

/-- the machine: after a panic nothing happens any more -/
def next (s : Option (Node File World S E V)) (op : NodeOp S V) : Option (Node File World S E V) :=
  s.bind fun n => n.step fs sha1 io op

end

end Node

end Btt
