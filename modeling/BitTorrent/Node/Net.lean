import BitTorrent.Handler.Pair
import BitTorrent.Node.Replies

/-!
# Two nodes

Two nodes run the same program, each with its own torrents, its own disk and any number of other peers, which may say
what they want.  Between the two lies a connection, as in `Pair`; its substreams carry messages in order, and the bytes on the wire
and the codec are not part of it.  What `Pair` asks of the users of its handlers, that they
answer only what they were asked, is what a node does.

* `PeerMessage.wants`, `Suits`   the reply a message asks for; the message is that reply;
* `Net`, `NetOp`, `step`   the nodes and the wire; a move of a node, of the connection, a message that arrives;
* `Net.pair`          the connection alone;
* `linkTo_step`       what a node does with others leaves the connection as it is;
* `asked_report`      node and pair note the same requests, so what the node answers is what the pair allows;
* `Sound.step`, `Sound.run`   so both nodes answer what they were asked, and both handlers keep to the terms;
* `nodes_converse`    two nodes understand each other.
-/

namespace Btt
open Run BitTorrentHandler

/-- the reply a message asks for -/
def PeerMessage.wants : PeerMessage → Option Reply
  | .handshake _ => some .handshake
  | .bitfield _ => some .bitfield
  | .request r => some (.block r.index r.begin_)
  | _ => none

/-- the message is the reply that `q` asks for: a block is one from the place -/
def Suits (q msg : PeerMessage) : Prop := ∃ reply, q.wants = some reply ∧ Node.replyOf msg = some reply

/-- the operation concerns the connection with `q` at most by an event for its handler, or by opening it -/
def NodeOp.leaves {S V : Type} (q : PeerId) : NodeOp S V → Bool
  | .disconnected _ peer => peer ≠ q
  | .link peer _ _ => peer ≠ q
  | _ => true

/-! ## one node -/

namespace Node
variable {File World Err S E V : Type}

/-- the link with a peer -/
def linkTo (n : Node File World S E V) (q : PeerId) : Link S TorrentId E V := (n.connections.lookup q).elim .new Connection.link

/-- what the last request under a number asked for -/
def askedBy (n : Node File World S E V) (q : PeerId) : Nat → Option Reply :=
  (n.connections.lookup q).elim (fun _ => none) Connection.asked

/-- the next event for the handler of a peer -/
def arriving (n : Node File World S E V) (q : PeerId) : NodeOp S V → Option (In TorrentId)
  | .notice peer =>
    if peer = q then ((n.connections.lookup q).bind fun c => c.notices.head?).map BitTorrentHandlerIn.toIn else none
  | _ => none

section
variable {fs : FileSystem File World Err} {sha1 : List UInt8 → ShaHash} {io : BttStream S E}
  {n n' : Node File World S E V} {q : PeerId}

theorem linkTo_some {c : Connection S E V} (h : n.connections.lookup q = some c) : n.linkTo q = c.link := by
  rw [linkTo, h]
  rfl

theorem askedBy_some {c : Connection S E V} (h : n.connections.lookup q = some c) : n.askedBy q = c.asked := by
  rw [askedBy, h]
  rfl

theorem linkTo_none (h : n.connections.lookup q = none) : n.linkTo q = .new := by
  rw [linkTo, h]
  rfl

theorem askedBy_none (h : n.connections.lookup q = none) : n.askedBy q = fun _ => none := by
  rw [askedBy, h]
  rfl

/-- **What a node does leaves a connection as it is**, but for its own moves and for events that arrive on it. -/
theorem linkTo_step {op : NodeOp S V} (hop : op.leaves q = true) (hnotice : op ≠ .notice q) (hallowed : n.Allowed op)
    (h : n.step fs sha1 io op = some n') : n'.linkTo q = n.linkTo q ∧ n'.askedBy q = n.askedBy q := by
  -- a connection that has the same link and the same history now
  have hsame : ∀ {c c' : Connection S E V}, n.connections.lookup q = some c → n'.connections.lookup q = some c' →
      c'.link = c.link → c'.asked = c.asked → n'.linkTo q = n.linkTo q ∧ n'.askedBy q = n.askedBy q := by
    intro c c' hc hc' hlink hasked
    rw [linkTo_some hc, linkTo_some hc', askedBy_some hc, askedBy_some hc']
    exact ⟨hlink, hasked⟩
  have hlookup : n'.connections.lookup q = n.connections.lookup q →
      n'.linkTo q = n.linkTo q ∧ n'.askedBy q = n.askedBy q := by
    intro heq
    rw [linkTo, linkTo, askedBy, askedBy, heq]
    exact ⟨rfl, rfl⟩
  cases op with
  | behaviour op hnews =>
    obtain ⟨b', -, rfl⟩ := Option.map_eq_some_iff.mp h
    cases hc : n.connections.lookup q with
    | none =>
      refine hlookup ?_
      rw [lookup_route, hc]
      rfl
    | some c =>
      have hc' := lookup_route { n with behaviour := b' } (n.behaviour.output fs sha1 op) q
      rw [show ({ n with behaviour := b' } : Node File World S E V).connections.lookup q = some c from hc] at hc'
      exact hsame hc hc' rfl rfl
  | connected w peer endpoint =>
    cases h
    by_cases hp : q = peer
    · subst hp
      have hnew : (n.connections.insert q (Connection.new : Connection S E V)).lookup q = some .new := AList.lookup_insert _
      rw [linkTo_some hnew, askedBy_some hnew, linkTo_none hallowed.1, askedBy_none hallowed.1]
      exact ⟨rfl, rfl⟩
    · exact hlookup (AList.lookup_insert_ne hp)
  | disconnected w peer =>
    cases h
    exact hlookup (AList.lookup_erase_ne (Ne.symm (of_decide_eq_true hop)))
  | event w now peer =>
    simp only [Node.step] at h
    split at h
    · rename_i link notices event events asked hc
      cases h
      by_cases hp : q = peer
      · subst hp
        exact hsame hc (AList.lookup_insert _) rfl rfl
      · exact hlookup (AList.lookup_insert_ne hp)
    · cases h
      exact ⟨rfl, rfl⟩
  | notice peer =>
    have hp : q ≠ peer := fun heq => hnotice (heq ▸ rfl)
    simp only [Node.step] at h
    split at h
    · obtain ⟨c', -, rfl⟩ := Option.map_eq_some_iff.mp h
      exact hlookup (AList.lookup_insert_ne hp)
    · cases h
      exact ⟨rfl, rfl⟩
  | link peer op hev =>
    have hp : q ≠ peer := Ne.symm (of_decide_eq_true hop)
    simp only [Node.step] at h
    split at h
    · obtain ⟨c', -, rfl⟩ := Option.map_eq_some_iff.mp h
      exact hlookup (AList.lookup_insert_ne hp)
    · cases h
      exact ⟨rfl, rfl⟩

/-- an event that arrives at the handler of `q`, if there is one -/
theorem notice_cases (h : n.step fs sha1 io (.notice q) = some n') :
    (n' = n ∧ n.arriving q (.notice q : NodeOp S V) = none) ∨
    ∃ c event notices h', n.connections.lookup q = some c ∧ c.notices = event :: notices ∧
      n.arriving q (.notice q : NodeOp S V) = some event.toIn ∧ c.link.handler.injectEvent event.toIn = some h' ∧
      n'.connections.lookup q = some { c with link.handler := h', notices := notices } := by
  simp only [Node.step] at h
  split at h
  · rename_i link event notices events asked hc
    obtain ⟨c', hcall, rfl⟩ := Option.map_eq_some_iff.mp h
    obtain ⟨r, hr, rfl⟩ := Option.map_eq_some_iff.mp hcall
    obtain ⟨h', hinject, rfl⟩ := Option.map_eq_some_iff.mp hr
    refine Or.inr ⟨_, event, notices, h', hc, rfl, ?_, hinject, AList.lookup_insert _⟩
    rw [arriving, if_pos rfl, hc]
    rfl
  · rename_i hnot
    cases h
    refine Or.inl ⟨rfl, ?_⟩
    rw [arriving, if_pos rfl]
    cases hc : n.connections.lookup q with
    | none => rfl
    | some c =>
      obtain ⟨link, notices, events, asked⟩ := c
      cases notices with
      | nil => rfl
      | cons event notices => exact (hnot _ _ _ _ _ hc).elim

end

end Node

/-! ## the net -/

structure Net (File World S E V : Type) where
  node : Side → Node File World S E V
  wire : Network TorrentId

inductive NetOp (ids : Side → PeerId) (S V : Type) where
  /-- a node does something, but for the moves of the link with the other one -/
  | node (p : Side) (op : NodeOp S V) (hop : op.leaves (ids p.other) = true)
  | poll (p : Side) (clock : Nat → Instant)
  | open_ (p : Side) (i : Nat)
  | dialError (p : Side) (i : Nat) (error : V)
  | accept (p : Side) (k : Nat)
  | deliver (p : Side) (k : Nat)

namespace Net
variable {File World Err S E V : Type}

section
variable (ids : Side → PeerId)

/-- the connection between the two -/
def pair (n : Net File World S E V) : Pair S TorrentId E V := ⟨n.wire, fun p => (n.node p).linkTo (ids p.other)⟩

variable (fs : Side → FileSystem File World Err) (sha1 : List UInt8 → ShaHash) (P : Pipes S E)

/-- the side `p` has the connection: its link makes a move, which is the move `op` of the pair -/
def along (n : Net File World S E V) (p : Side) (op : PairOp TorrentId V) (move : LinkOp S TorrentId V) :
    Option (Net File World S E V) :=
  match (n.node p).connections.lookup (ids p.other) with
  | some c => (c.call P.io move).bind fun c' => ((n.pair ids).step P op).map fun pair =>
      ⟨Function.update n.node p { n.node p with connections := (n.node p).connections.insert (ids p.other) c' }, pair.toNetwork⟩
  | none => some n

def step (n : Net File World S E V) : NetOp ids S V → Option (Net File World S E V)
  | .node p op _ => ((n.node p).step (fs p) sha1 P.io op).map fun node =>
      { node := Function.update n.node p node
        wire := { n.wire with
          said := Function.update n.wire.said p
            (n.wire.said p ++ (((n.node p).arriving (ids p.other) op).bind In.says).toList) } }
  | .poll p clock => n.along ids P p (.poll p clock) (.poll clock)
  | .open_ p i => n.along ids P p (.open_ p i) (.negotiated i (P.opened n.wire.opened.length))
  | .dialError p i error => n.along ids P p (.dialError p i error) (.dialError i error)
  | .accept p k =>
    if (n.wire.opened[k]?.any fun o => o.opener = p.other) = true ∧ k ∉ n.wire.numbers p then
      n.along ids P p (.accept p k) (.inbound (P.accepted k))
    else some n
  | .deliver p k =>
    match (n.node p.other).connections.lookup (ids p) with
    | some c => ((n.pair ids).step P (.deliver p k)).map fun pair =>
        ⟨Function.update n.node p.other { n.node p.other with
          connections := (n.node p.other).connections.insert (ids p) { c with link := pair.link p.other } }, pair.toNetwork⟩
    | none => some n

/-- the machine: after a panic nothing happens any more -/
def next (s : Option (Net File World S E V)) (op : NetOp ids S V) : Option (Net File World S E V) :=
  s.bind fun n => n.step ids fs sha1 P op

/-- each node is allowed its operations, and accepts fewer than 2^64 substreams of the other -/
def Allowed (n : Net File World S E V) : NetOp ids S V → Prop
  | .node p op _ => (n.node p).Allowed op
  | .accept p _ => (n.wire.numbers p).length + 1 < 2 ^ 64
  | _ => True

/-- what is said of the net: of both nodes, of the connection, and that the two histories agree -/
structure Sound (n : Net File World S E V) : Prop where
  node : ∀ p, (n.node p).Sound
  pair : (n.pair ids).Sound Suits P
  asked : ∀ p id, (n.node p).askedBy (ids p.other) id = (n.wire.asked p id).bind PeerMessage.wants

end

/-! ## steps -/

section
variable {ids : Side → PeerId} {fs : Side → FileSystem File World Err} {sha1 : List UInt8 → ShaHash} {P : Pipes S E}
  {n n' : Net File World S E V} {p : Side}

theorem pair_update (n : Net File World S E V) (p : Side) (node : Node File World S E V) (wire : Network TorrentId) :
    (⟨Function.update n.node p node, wire⟩ : Net File World S E V).pair ids
      = ⟨wire, Function.update (n.pair ids).link p (node.linkTo (ids p.other))⟩ := by
  have hlink : (fun q => (Function.update n.node p node q).linkTo (ids q.other))
      = Function.update (n.pair ids).link p (node.linkTo (ids p.other)) := by
    funext q
    by_cases hq : q = p
    · subst hq
      rw [Function.update_self, Function.update_self]
    · rw [Function.update_of_ne hq, Function.update_of_ne hq]
      rfl
  exact congrArg (Pair.mk wire) hlink

/-- what is left to see when one node moves -/
theorem Sound.update (hn : n.Sound ids P) {node : Node File World S E V} {wire : Network TorrentId} (hnode : node.Sound)
    (hpair : (⟨wire, Function.update (n.pair ids).link p (node.linkTo (ids p.other))⟩
      : Pair S TorrentId E V).Sound Suits P)
    (hasked : ∀ id, node.askedBy (ids p.other) id = (wire.asked p id).bind PeerMessage.wants)
    (hother : ∀ q, q ≠ p → wire.asked q = n.wire.asked q) :
    (⟨Function.update n.node p node, wire⟩ : Net File World S E V).Sound ids P := by
  refine ⟨?_, ?_, ?_⟩
  · intro q
    by_cases hq : q = p
    · subst hq
      show (Function.update n.node q node q).Sound
      rw [Function.update_self]
      exact hnode
    · show (Function.update n.node p node q).Sound
      rw [Function.update_of_ne hq]
      exact hn.node q
  · rw [pair_update]
    exact hpair
  · intro q id
    show (Function.update n.node p node q).askedBy (ids q.other) id = (wire.asked q id).bind PeerMessage.wants
    by_cases hq : q = p
    · subst hq
      rw [Function.update_self]
      exact hasked id
    · rw [Function.update_of_ne hq, hother q hq]
      exact hn.asked q id

/-! ### the histories -/

theorem report_link (c : Connection S E V) (event : Option (ProtocolsHandlerEvent TorrentId E V)) :
    (c.report event).link = c.link := by
  unfold Connection.report
  split <;> rfl

/-- a request that is handed on asks for what its message wants -/
theorem wants_of_request {e : BitTorrentHandler.Event TorrentId E V} {r : RequestId} (h : e.requestId = some r) :
    ∃ msg, e.message = some msg ∧ msg.wants = e.toBehaviour.owes.map Prod.snd := by
  cases e <;> cases h <;> exact ⟨_, rfl, rfl⟩

/-- **The two histories note the same.** -/
theorem asked_report {m : Pair S TorrentId E V} {c : Connection S E V}
    (h : ∀ id, c.asked id = (m.asked p id).bind PeerMessage.wants) (event : Option (ProtocolsHandlerEvent TorrentId E V)) :
    ∀ id, (c.report event).asked id = (m.note p event p id).bind PeerMessage.wants := by
  intro id
  match event with
  | none => exact h id
  | some (.outboundSubstreamRequest info) => exact h id
  | some (.custom e) =>
    show Connection.note c.asked e id = _
    rw [Connection.note, Pair.note, Option.bind_some, ProtocolsHandlerEvent.request]
    cases hr : e.requestId with
    | none => exact h id
    | some r =>
      obtain ⟨msg, hmsg, hwants⟩ := wants_of_request hr
      rw [hmsg, Option.bind_some, Option.map_some]
      show Function.update c.asked r.connecUniqueId _ id
        = (Function.update m.asked p (Function.update (m.asked p) r.connecUniqueId (some msg)) p id).bind _
      rw [Function.update_self]
      by_cases hid : id = r.connecUniqueId
      · subst hid
        rw [Function.update_self, Function.update_self, Option.bind_some, hwants]
      · rw [Function.update_of_ne hid, Function.update_of_ne hid]
        exact h id

theorem note_other {m : Pair S TorrentId E V} {q : Side} (hq : q ≠ p)
    (event : Option (ProtocolsHandlerEvent TorrentId E V)) : m.note p event q = m.asked q := by
  cases hr : event.bind ProtocolsHandlerEvent.request with
  | none => rw [Pair.note, hr]
  | some r =>
    rw [Pair.note, hr]
    exact Function.update_of_ne hq ..

/-! ### a node moves -/

theorem arriving_none {q : PeerId} {op : NodeOp S V} (h : op ≠ .notice q) (m : Node File World S E V) :
    m.arriving q op = none := by
  cases op with
  | notice peer =>
    rw [Node.arriving, if_neg]
    rintro rfl
    exact h rfl
  | _ => rfl

/-- **A node keeps to the terms**: the events that arrive at its handler answer what was asked. -/
theorem Sound.node_step (hn : n.Sound ids P) {op : NodeOp S V} (hop : op.leaves (ids p.other) = true)
    (hallowed : (n.node p).Allowed op) (h : n.step ids fs sha1 P (.node p op hop) = some n') : n'.Sound ids P := by
  obtain ⟨node, hnode, rfl⟩ := Option.map_eq_some_iff.mp h
  have hsound := (hn.node p).step hallowed hnode
  -- nothing arrives and the link stays
  have hquiet : (n.node p).arriving (ids p.other) op = none → node.linkTo (ids p.other) = (n.node p).linkTo (ids p.other) →
      node.askedBy (ids p.other) = (n.node p).askedBy (ids p.other) →
      (⟨Function.update n.node p node, { n.wire with said := Function.update n.wire.said p (n.wire.said p ++
        (((n.node p).arriving (ids p.other) op).bind In.says).toList) }⟩ : Net File World S E V).Sound ids P := by
    intro hnone hlink hasked
    have hsaid : Function.update n.wire.said p
        (n.wire.said p ++ (((n.node p).arriving (ids p.other) op).bind In.says).toList) = n.wire.said := by
      rw [hnone]
      exact (congrArg _ (List.append_nil _)).trans (Function.update_eq_self ..)
    rw [hsaid]
    refine hn.update hsound ?_ ?_ fun q _ => rfl
    · rw [hlink, show (n.node p).linkTo (ids p.other) = (n.pair ids).link p from rfl, Function.update_eq_self]
      exact hn.pair
    · rw [hasked]
      exact hn.asked p
  by_cases hnotice : op = .notice (ids p.other)
  · subst hnotice
    rcases Node.notice_cases hnode with ⟨rfl, hnone⟩ | ⟨c, event, notices, h', hc, hnotices, hsome, hinject, hc'⟩
    · exact hquiet hnone rfl rfl
    · -- the user of the link has an event for its handler
      have hlink : (n.pair ids).link p = c.link := Node.linkTo_some hc
      have hasked : ∀ id, c.asked id = (n.wire.asked p id).bind PeerMessage.wants := by
        intro id
        rw [← Node.askedBy_some hc]
        exact hn.asked p id
      have hterms : ∀ r msg, event.toIn.response = some (r, msg) →
          ∃ q, (n.pair ids).asked p r.connecUniqueId = some q ∧ Suits q msg := by
        intro r msg hresponse
        obtain ⟨reply, hgives, hreply⟩ := Node.gives_of_response hresponse
        have hwas := Node.asked_of_notice ((hn.node p).connections _ c hc) hnotices hgives
        rw [hasked] at hwas
        obtain ⟨q, hq, hwants⟩ := Option.bind_eq_some_iff.mp hwas
        exact ⟨q, hq, reply, hwants, hreply⟩
      obtain ⟨pair', hpair', hsound'⟩ := hn.pair.inject hterms
      simp only [Pair.step, hlink, Link.call, hinject, Option.map_some, Option.some.injEq] at hpair'
      refine hn.update hsound ?_ ?_ fun q _ => rfl
      · rw [Node.linkTo_some hc', hsome]
        exact hpair' ▸ hsound'
      · rw [Node.askedBy_some hc']
        exact hasked
  · have hnone := arriving_none hnotice (n.node p)
    obtain ⟨hlink, hasked⟩ := Node.linkTo_step hop hnotice hallowed hnode
    exact hquiet hnone hlink hasked

/-! ### the connection moves -/

/-- **A move of one link keeps to the terms** if it is the move of the pair. -/
theorem Sound.along (hn : n.Sound ids P) (op : PairOp TorrentId V) (move : LinkOp S TorrentId V)
    (hmove : move.isEvent = false)
    (hlt : ∀ stream, move = .inbound stream → (n.wire.numbers p).length + 1 < 2 ^ 64)
    (hallowed : (n.pair ids).Allowed Suits op)
    (hsame : ∀ (c : Connection S E V) event link pair', (n.pair ids).link p = c.link → c.link.call P.io move = some (event, link) →
      (n.pair ids).step P op = some pair' → pair'.link = Function.update (n.pair ids).link p link ∧
        pair'.asked = (n.pair ids).note p event)
    (h : n.along ids P p op move = some n') : n'.Sound ids P := by
  unfold Net.along at h
  split at h
  · rename_i c hc
    obtain ⟨c', hcall, h⟩ := Option.bind_eq_some_iff.mp h
    obtain ⟨pair', hpair, rfl⟩ := Option.map_eq_some_iff.mp h
    have hlink : (n.pair ids).link p = c.link := Node.linkTo_some hc
    have hnode : ({ n.node p with connections := (n.node p).connections.insert (ids p.other) c' }
        : Node File World S E V).Sound := by
      refine (hn.node p).connection (Node.sound_link ((hn.node p).connections _ c hc) hmove ?_ hcall)
      intro stream hstream
      rw [← hlink, hn.pair.next p]
      exact hlt stream hstream
    have hc' : ((n.node p).connections.insert (ids p.other) c').lookup (ids p.other) = some c' := AList.lookup_insert _
    obtain ⟨⟨event, link⟩, hr, rfl⟩ := Option.map_eq_some_iff.mp hcall
    obtain ⟨hlink', hasked'⟩ := hsame c event link pair' hlink hr hpair
    obtain ⟨pair'', hpair'', hsound⟩ := hn.pair.step hallowed
    cases hpair''.symm.trans hpair
    refine hn.update hnode ?_ ?_ ?_
    · rw [Node.linkTo_some hc', report_link, ← hlink']
      exact hsound
    · intro id
      rw [Node.askedBy_some hc', hasked']
      refine asked_report (c := { c with link := link }) ?_ event id
      intro id'
      show c.asked id' = _
      rw [← Node.askedBy_some hc]
      exact hn.asked p id'
    · intro q hq
      rw [hasked']
      exact note_other hq event
  · cases h
    exact hn

/-- what arrives on a stream changes no number of a substream -/
theorem sound_onStreams {b : BitTorrent File World} {q : PeerId} {c : Connection S E V} (hc : c.Sound b q) (f : S → S) :
    Connection.Sound b q { c with link := c.link.onStreams f } := by
  have hids : (c.link.onStreams f).handler.ids = c.link.handler.ids := by
    show (c.link.handler.substreams.map _).filterMap _ = _
    rw [List.filterMap_map]
    congr 1
    funext s
    cases s <;> rfl
  have hwaiting : (c.link.onStreams f).handler.waiting = c.link.handler.waiting := by
    show (c.link.handler.substreams.map _).filterMap _ = _
    rw [List.filterMap_map]
    congr 1
    funext s
    cases s <;> rfl
  refine ⟨⟨?_, ?_⟩, ?_, hc.fits⟩
  · rw [hids]
    exact hc.numbered.distinct
  · rw [hids]
    exact hc.numbered.below
  · rw [hwaiting]
    exact hc.once

theorem onStreams_id (l : Link S TorrentId E V) : l.onStreams id = l := by
  have hmap : (SubstreamState.onStream id : SubstreamState S TorrentId E V → _) = id := by
    funext s
    cases s <;> rfl
  rw [Link.onStreams, hmap, List.map_id]

/-- a message that arrives touches the streams of the other end alone -/
theorem deliver_link {m m' : Pair S TorrentId E V} {k : Nat} (h : m.step P (.deliver p k) = some m') :
    (∃ f, m'.link = Function.update m.link p.other ((m.link p.other).onStreams f)) ∧ m'.asked = m.asked := by
  have hid : m' = m →
      (∃ f, m'.link = Function.update m.link p.other ((m.link p.other).onStreams f)) ∧ m'.asked = m.asked := by
    rintro rfl
    refine ⟨⟨id, ?_⟩, rfl⟩
    rw [onStreams_id, Function.update_eq_self]
  simp only [Pair.step] at h
  split at h
  · rename_i msg rest hflight
    split at h
    · cases h
      exact ⟨⟨P.put k msg, rfl⟩, rfl⟩
    · exact hid (Option.some.inj h).symm
  · exact hid (Option.some.inj h).symm

/-- a message arrives -/
theorem Sound.deliver (hn : n.Sound ids P) {k : Nat} (h : n.step ids fs sha1 P (.deliver p k) = some n') :
    n'.Sound ids P := by
  simp only [Net.step] at h
  split at h
  · rename_i c hc
    obtain ⟨pair', hpair, rfl⟩ := Option.map_eq_some_iff.mp h
    have hids : ids p.other.other = ids p := by rw [Side.other_other]
    have hlink : (n.pair ids).link p.other = c.link := Node.linkTo_some (by rw [hids]; exact hc)
    have hterms : (n.pair ids).Allowed Suits (.deliver p k) := trivial
    obtain ⟨pair'', hpair'', hsound⟩ := hn.pair.step hterms
    cases hpair''.symm.trans hpair
    obtain ⟨⟨f, hlink'⟩, hasked⟩ := deliver_link hpair
    have hf : pair'.link p.other = c.link.onStreams f := by rw [hlink', Function.update_self, hlink]
    have hc' : ((n.node p.other).connections.insert (ids p) { c with link := pair'.link p.other }).lookup (ids p.other.other)
        = some { c with link := pair'.link p.other } := by
      rw [hids]
      exact AList.lookup_insert _
    refine hn.update ?_ ?_ ?_ fun q _ => congrFun hasked q
    · refine (hn.node p.other).connection ?_
      rw [hf]
      exact sound_onStreams ((hn.node p.other).connections _ c hc) f
    · rw [Node.linkTo_some hc', hf, ← hlink, ← hlink']
      exact hsound
    · intro id
      rw [Node.askedBy_some hc', hasked, show (n.pair ids).asked = n.wire.asked from rfl, ← hn.asked p.other id, Node.askedBy_some (by rw [hids]; exact hc)]
  · cases h
    exact hn

/-- **One step** of the net: both nodes answer what they were asked, and both handlers keep to the terms. -/
theorem Sound.step (hn : n.Sound ids P) {op : NetOp ids S V} (hallowed : n.Allowed ids op)
    (h : n.step ids fs sha1 P op = some n') : n'.Sound ids P := by
  cases op with
  | node p op hop => exact hn.node_step hop hallowed h
  | poll p clock =>
    refine hn.along (.poll p clock) (.poll clock) rfl (by rintro _ ⟨⟩) trivial ?_ h
    intro c event link pair' hlink hcall hpair
    simp only [Pair.step, hlink, hcall, Option.map_some, Option.some.injEq] at hpair
    rw [← hpair]
    exact ⟨rfl, rfl⟩
  | open_ p i =>
    refine hn.along (.open_ p i) (.negotiated i _) rfl (by rintro _ ⟨⟩) trivial ?_ h
    intro c event link pair' hlink hcall hpair
    simp only [Pair.step, hlink] at hpair
    split at hpair
    · rename_i info hinfo
      rw [show (n.pair ids).opened = n.wire.opened from rfl, hcall] at hpair
      cases hpair
      cases hcall
      exact ⟨rfl, rfl⟩
    · rename_i hinfo
      -- there is no such request, and the link stays as it is
      cases hpair
      have hstay : link = c.link ∧ event = none := by
        cases hcall
        rw [Link.resolve, hinfo]
        exact ⟨rfl, rfl⟩
      rw [hstay.1, hstay.2, ← hlink, Function.update_eq_self]
      exact ⟨rfl, rfl⟩
  | dialError p i error =>
    refine hn.along (.dialError p i error) (.dialError i error) rfl (by rintro _ ⟨⟩) trivial ?_ h
    intro c event link pair' hlink hcall hpair
    simp only [Pair.step, hlink, hcall, Option.map_some, Option.some.injEq] at hpair
    rw [← hpair]
    cases hcall
    exact ⟨rfl, rfl⟩
  | accept p k =>
    simp only [Net.step] at h
    split at h
    · rename_i hk
      refine hn.along (.accept p k) (.inbound (P.accepted k)) rfl (fun _ _ => hallowed) hallowed ?_ h
      intro c event link pair' hlink hcall hpair
      simp only [Pair.step, hlink, hcall, Option.map_some] at hpair
      rw [if_pos (show ((n.pair ids).opened[k]?.any fun o => o.opener = p.other) = true ∧ k ∉ (n.pair ids).numbers p
        from hk)] at hpair
      cases hpair
      cases hcall
      exact ⟨rfl, rfl⟩
    · cases h
      exact hn
  | deliver p k => exact hn.deliver h

/-- two nodes that have no connection with each other yet -/
theorem sound_new {node : Side → Node File World S E V} (hnode : ∀ p, (node p).Sound)
    (hapart : ∀ p, (node p).connections.lookup (ids p.other) = none) :
    (⟨node, .new⟩ : Net File World S E V).Sound ids P := by
  refine ⟨hnode, ?_, ?_⟩
  · have hpair : pair ids (⟨node, .new⟩ : Net File World S E V) = Pair.new := by
      refine congrArg (Pair.mk .new) ?_
      funext p
      exact Node.linkTo_none (hapart p)
    rw [hpair]
    exact Pair.sound_new
  · intro p id
    show (node p).askedBy _ id = _
    rw [Node.askedBy_none (hapart p)]
    rfl

/-- **A whole run** of the net. -/
theorem Sound.run (hn : n.Sound ids P) {ops : List (NetOp ids S V)}
    (hallowed : Along (next ids fs sha1 P) (fun s op => ∀ n, s = some n → n.Allowed ids op) (some n) ops)
    (hrun : exec (next ids fs sha1 P) (some n) ops = some n') : n'.Sound ids P := by
  refine exec_inv_along (I := fun s => ∀ n, s = some n → n.Sound ids P) ?_ ?_ hallowed n' hrun
  · intro s op hs hG m' hm'
    obtain ⟨m, rfl, hstep⟩ := Option.bind_eq_some_iff.mp hm'
    exact (hs m rfl).step (hG m rfl) hstep
  · rintro _ ⟨⟩
    exact hn

end

/-- **Two nodes understand each other**, over substreams that carry messages in order.  Let two nodes come to be in any way,
with torrents and peers of their own, then connect to each other for the first time, and run on in any order, together with
the network between them and with all their other peers, as long as neither side drops the connection.  If each opens a connection to a peer only when nothing is
left of the last one, and accepts fewer than 2^64 substreams of a peer, then neither handler of their connection panics in
a poll, and all it reports is: the reply that a message of its own behaviour asked for, with the torrent it was asked for;
a message the behaviour of the other node sent; or the failure of a substream.  No message is unexpected. -/
theorem nodes_converse (ids : Side → PeerId) (fs : Side → FileSystem File World Err) (sha1 : List UInt8 → ShaHash)
    (P : Pipes S E) (random : Side → ShaHash) (world : Side → World) (config : Side → BitTorrentConfig)
    (before : Side → List (NodeOp S V)) (node : Side → Node File World S E V)
    (hbefore : ∀ p, exec (Node.next (fs p) sha1 P.io) (some (.new (.withConfig (random p) (world p) (config p)))) (before p)
      = some (node p))
    (hearlier : ∀ p, Along (Node.next (fs p) sha1 P.io) (fun s op => ∀ n, s = some n → n.Allowed op)
      (some (.new (.withConfig (random p) (world p) (config p)))) (before p))
    (hapart : ∀ p, (node p).connections.lookup (ids p.other) = none) (ops : List (NetOp ids S V))
    (n : Net File World S E V) (hrun : exec (next ids fs sha1 P) (some ⟨node, .new⟩) ops = some n)
    (hallowed : Along (next ids fs sha1 P) (fun s op => ∀ n, s = some n → n.Allowed ids op) (some ⟨node, .new⟩) ops)
    (p : Side) (c : Connection S E V) (hc : (n.node p).connections.lookup (ids p.other) = some c)
    (clock : Nat → Instant) : ∃ event h', c.link.handler.poll P.io clock = some (event, h') ∧
      ∀ e, event = some (.custom e) → (n.pair ids).Fits Suits p e := by
  have hstart : (⟨node, .new⟩ : Net File World S E V).Sound ids P :=
    sound_new (fun p => Node.sound_run (hbefore p) (hearlier p)) hapart
  have hn : n.Sound ids P := hstart.run hallowed hrun
  have hreports := hn.pair.reports p clock
  rw [show (n.pair ids).link p = c.link from Node.linkTo_some hc] at hreports
  exact hreports

def peers : Side → PeerId
  | .left => ⟨[1]⟩
  | .right => ⟨[7]⟩

theorem isNews_popEvent : BehaviourOp.popEvent.isNews = false := rfl

theorem isNews_addSeed (torrent : MetaInfo) (state : TorrentState) :
    (BehaviourOp.addSeed torrent state).isNews = false := rfl

/-- one node leeches the torrent of one byte, and is to shake hands with the other, which seeds it -/
def prepare : Side → List (NodeOp (Nat × List PeerMessage) Unit)
  | .left => [.behaviour (.addLeech oneByte .active) rfl, .behaviour .popEvent isNews_popEvent,
      .behaviour (.addAddressTorrents ⟨[7]⟩ ⟨[]⟩ []) rfl, .behaviour (.handshakeKnownPeer ⟨[7]⟩ (firstByte [])) rfl,
      .behaviour .popEvent isNews_popEvent]
  | .right => [.behaviour (.addSeed oneByte .active) (isNews_addSeed oneByte .active),
      .behaviour .popEvent isNews_popEvent]

/-- the two connect, and the handshake of one side is answered by the other -/
def greet : List (NetOp peers (Nat × List PeerMessage) Unit) :=
  [.node .left (.connected .same ⟨[7]⟩ .dialer) rfl, .node .right (.connected .same ⟨[1]⟩ (.listener ⟨[]⟩)) rfl,
    .node .left (.behaviour .popEvent isNews_popEvent) rfl, .node .left (.notice ⟨[7]⟩) rfl,
    .poll .left fun _ => 0, .open_ .left 0, .poll .left fun _ => 0, .accept .right 0, .deliver .left 0,
    .poll .right fun _ => 0, .node .right (.event .same 0 ⟨[1]⟩) rfl,
    .node .right (.behaviour .popEvent isNews_popEvent) rfl, .node .right (.notice ⟨[1]⟩) rfl,
    .poll .right fun _ => 0, .deliver .right 0]

def prepared (p : Side) : Node Unit Unit (Nat × List PeerMessage) Unit Unit :=
  (exec (Node.next instantDisk firstByte Pair.mail.io) (some (.new (.withConfig (.replicate 0) () .default)))
    (prepare p)).getD (.new (.withConfig (.replicate 0) () .default))

/-- the handshake is answered, for the right torrent -/
def welcomed (n : Net Unit Unit (Nat × List PeerMessage) Unit Unit) : Bool :=
  ((n.node .left).connections.lookup ⟨[7]⟩).any fun c => (c.link.handler.poll Pair.mail.io fun _ => 0).any fun r =>
    r.1.any fun event => match event with
      | .custom e => e.reply.map Prod.snd = some ⟨0⟩
      | .outboundSubstreamRequest _ => false

theorem nodes_converse_handshake :
    ∃ n c event h', exec (next peers (fun _ => instantDisk) firstByte Pair.mail) (some ⟨prepared, .new⟩) greet = some n ∧
      (n.node .left).connections.lookup ⟨[7]⟩ = some c ∧
      c.link.handler.poll Pair.mail.io (fun _ => 0) = some (some (.custom event), h') ∧
      event.reply.map Prod.snd = some ⟨0⟩ ∧ (n.pair peers).Fits Suits .left event := by
  have hend : (exec (next peers (fun _ => instantDisk) firstByte Pair.mail) (some ⟨prepared, .new⟩) greet).any welcomed
      = true := by decide +kernel
  have hnumbers : (exec (next peers (fun _ => instantDisk) firstByte Pair.mail) (some ⟨prepared, .new⟩)
      (greet.take 7)).any (fun n => (n.wire.numbers .right).length + 1 < 2 ^ 64) = true := by decide +kernel
  have hfirst : (exec (next peers (fun _ => instantDisk) firstByte Pair.mail) (some ⟨prepared, .new⟩)
      (greet.take 1)).any (fun n => ((n.node .right).connections.lookup ⟨[1]⟩).isNone &&
        (n.node .right).behaviour.held (fun t => t.peer = ⟨[1]⟩) = 0) = true := by decide +kernel
  have hearlier : ∀ p, Along (Node.next instantDisk firstByte Pair.mail.io) (fun s op => ∀ n, s = some n → n.Allowed op)
      (some (.new (.withConfig (.replicate 0) () .default))) (prepare p) := by
    intro p
    cases p with
    | left => exact ⟨fun _ _ => trivial, fun _ _ => trivial, fun _ _ => trivial, fun _ _ => trivial, fun _ _ => trivial, trivial⟩
    | right => exact ⟨fun _ _ => trivial, fun _ _ => trivial, trivial⟩
  have hallowed : Along (next peers (fun _ => instantDisk) firstByte Pair.mail)
      (fun s op => ∀ n, s = some n → n.Allowed peers op) (some ⟨prepared, .new⟩) greet := by
    refine ⟨?_, ?_, fun _ _ => trivial, fun _ _ => trivial, fun _ _ => trivial, fun _ _ => trivial, fun _ _ => trivial, ?_,
      fun _ _ => trivial, fun _ _ => trivial, fun _ _ => trivial, fun _ _ => trivial, fun _ _ => trivial,
      fun _ _ => trivial, fun _ _ => trivial, trivial⟩
    · rintro _ ⟨⟩
      exact ⟨rfl, rfl⟩
    · intro m hm
      rw [show exec (next peers (fun _ => instantDisk) firstByte Pair.mail) (some ⟨prepared, .new⟩) (greet.take 1) = some m
        from hm, Option.any_some, Bool.and_eq_true] at hfirst
      have hclear : (m.node .right).behaviour.held (fun t => t.peer = ⟨[1]⟩) = 0 := of_decide_eq_true hfirst.2
      exact ⟨Option.isNone_iff_eq_none.mp hfirst.1, hclear⟩
    · intro m hm
      rw [show exec (next peers (fun _ => instantDisk) firstByte Pair.mail) (some ⟨prepared, .new⟩) (greet.take 7) = some m
        from hm, Option.any_some] at hnumbers
      have hlt : (m.wire.numbers .right).length + 1 < 2 ^ 64 := of_decide_eq_true hnumbers
      exact hlt
  obtain ⟨n, hrun, hend⟩ := (Option.any_eq_true _ _).mp hend
  obtain ⟨c, hc, hend⟩ := (Option.any_eq_true _ _).mp hend
  obtain ⟨event, h', hpoll, hfits⟩ := nodes_converse peers (fun _ => instantDisk) firstByte Pair.mail
    (fun _ => .replicate 0) (fun _ => ()) (fun _ => .default) prepare prepared (by intro p; cases p <;> rfl) hearlier
    (by intro p; cases p <;> rfl) greet n hrun hallowed .left c hc fun _ => 0
  rw [hpoll, Option.any_some] at hend
  cases event with
  | none => cases hend
  | some event =>
    cases event with
    | outboundSubstreamRequest info => cases hend
    | custom e => exact ⟨n, c, e, h', hrun, hc, hpoll, of_decide_eq_true hend, hfits e rfl⟩

end Net

end Btt
