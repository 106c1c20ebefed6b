import BitTorrent.Handler.Answers
import BitTorrent.Handler.Contract

/-!
# Two handlers

The two ends of a connection run the same handler.  The swarm opens a substream for a request of one side, the other
side accepts it, and the network carries what is written on it, in order, to the other end; all this in any order with
what the users ask for and answer, and with the polls.

* `Network`, `Pair`   the messages under way and the history of the substreams; the two links with them;
* `PairOp`        an event of a user, a poll, the opening of a substream, a failed dial, the acceptance of a substream,
                  a message that arrives;
* `Fits`          an event that is no surprise: an answer to what was asked, what the other user said, or a failure;
* `Sound.step`    both handlers keep to the terms;
* `pair_converses`   so neither ever panics, and all events fit.
-/

namespace Btt
open Run BitTorrentHandler

inductive Side where
  | left
  | right
deriving DecidableEq

def Side.other : Side → Side
  | .left => .right
  | .right => .left

theorem Side.other_ne (p : Side) : p.other ≠ p := by cases p <;> nofun

@[simp]
theorem Side.other_other (p : Side) : p.other.other = p := by cases p <;> rfl

variable {S U E V : Type}

/-! ## events and messages -/

namespace BitTorrentHandler

/-- the message of the remote that an event hands on -/
def Event.message : Event U E V → Option PeerMessage
  | .handshakeReq handshake _ => some (.handshake handshake)
  | .bitfieldReq indexField _ => some (.bitfield indexField)
  | .getPieceReq request _ => some (.request request)
  | .cancelPiece request _ => some (.cancel request)
  | .choke .choked => some .choke
  | .choke .unChoked => some .unChoke
  | .interest .interested => some .interested
  | .interest .notInterested => some .notInterested
  | .have_ index => some (.have_ index)
  | .keepAlive _ => some .keepAlive
  | _ => none

/-- the answer of the remote that an event hands on, with the data of the request -/
def Event.reply : Event U E V → Option (PeerMessage × U)
  | .handshakeRes handshake userData => some (.handshake handshake, userData)
  | .bitfieldRes indexField userData => some (.bitfield indexField, userData)
  | .getPieceRes piece userData => some (.piece piece, userData)
  | _ => none

end BitTorrentHandler

/-- the request of the remote that a handler hands on -/
def ProtocolsHandlerEvent.request : ProtocolsHandlerEvent U E V → Option (RequestId × PeerMessage)
  | .custom event => event.requestId.bind fun r => event.message.map fun msg => (r, msg)
  | .outboundSubstreamRequest _ => none

/-- what a user may answer -/
def PeerMessage.isReply : PeerMessage → Bool
  | .handshake _ => true
  | .bitfield _ => true
  | .piece _ => true
  | _ => false

/-- what no user says of its own accord -/
def PeerMessage.isUnasked : PeerMessage → Bool
  | .piece _ => true
  | .port _ => true
  | _ => false

theorem isUnasked_says {event : In U} {info : PeerMessage × Option U} (h : event.says = some info) :
    info.1.isUnasked = false := by
  cases event with
  | choke inner => cases inner <;> cases h <;> rfl
  | interest inner => cases inner <;> cases h <;> rfl
  | _ => first | (cases h; rfl) | cases h

theorem isReply_response {event : In U} {r : RequestId} {msg : PeerMessage} (h : event.response = some (r, msg)) :
    msg.isReply = true := by
  cases event <;> cases h <;> rfl

theorem message_of_processBttIn {now : Instant} {msg : PeerMessage} {id : Nat} {event : Event U E V}
    (hmsg : msg.isUnasked = false) (h : processBttIn now msg id = some event) : event.message = some msg := by
  cases msg <;> first | (cases h; rfl) | cases hmsg

theorem request_of_processBttIn {now : Instant} {msg : PeerMessage} {id : Nat} {event : Event U E V} {r : RequestId}
    (h : processBttIn now msg id = some event) (hr : event.requestId = some r) :
    r = ⟨id⟩ ∧ event.message = some msg := by
  cases msg <;> cases h <;> cases hr <;> exact ⟨rfl, rfl⟩

theorem reply_of_processBttOut {msg : PeerMessage} {u : U} {event : Event U E V} (hmsg : msg.isReply = true)
    (h : processBttOut msg u = some event) : event.reply = some (msg, u) := by
  cases msg <;> first | (cases h; rfl) | cases hmsg

/-! ## the pair -/

/-- the history of a substream: who opened it, for what -/
structure Opened (U : Type) where
  opener : Side
  msg : PeerMessage
  userData : Option U

/-- what lies between the two, with its history -/
structure Network (U : Type) where
  /-- what the side has written on the substream and has not arrived -/
  flight : Side → Nat → List PeerMessage
  /-- the substreams, in the order of their names -/
  opened : List (Opened U)
  /-- the substreams the side has accepted, in the order of their numbers -/
  numbers : Side → List Nat
  /-- history: the request that was handed to the user last under the number -/
  asked : Side → Nat → Option PeerMessage
  /-- history: what the user asked to be sent -/
  said : Side → List (PeerMessage × Option U)

def Network.new : Network U := ⟨fun _ _ => [], [], fun _ => [], fun _ _ => none, fun _ => []⟩

structure Pair (S U E V : Type) extends Network U where
  link : Side → Link S U E V

inductive PairOp (U V : Type) where
  | inject (p : Side) (event : In U)
  | poll (p : Side) (clock : Nat → Instant)
  /-- the swarm opens a substream for request number `i` of the side -/
  | open_ (p : Side) (i : Nat)
  | dialError (p : Side) (i : Nat) (error : V)
  /-- the side accepts the substream `k` -/
  | accept (p : Side) (k : Nat)
  /-- the oldest message the side has under way on the substream `k` arrives -/
  | deliver (p : Side) (k : Nat)

def Link.onStreams (f : S → S) (l : Link S U E V) : Link S U E V :=
  { l with handler.substreams := l.handler.substreams.map (SubstreamState.onStream f) }

namespace Pair

def new : Pair S U E V := ⟨.new, fun _ => .new⟩

/-- the side has an end of the substream, or had one -/
def HasEnd (n : Pair S U E V) (p : Side) (k : Nat) : Prop :=
  (n.opened[k]?.any fun o => o.opener = p) = true ∨ k ∈ n.numbers p

instance (n : Pair S U E V) (p : Side) (k : Nat) : Decidable (n.HasEnd p k) := inferInstanceAs (Decidable (_ ∨ _))

/-- the history after a poll of `p` -/
def note (n : Pair S U E V) (p : Side) (event : Option (ProtocolsHandlerEvent U E V)) : Side → Nat → Option PeerMessage :=
  match event.bind ProtocolsHandlerEvent.request with
  | some (r, msg) => Function.update n.asked p (Function.update (n.asked p) r.connecUniqueId (some msg))
  | none => n.asked

def step (P : Pipes S E) (n : Pair S U E V) : PairOp U V → Option (Pair S U E V)
  | .inject p event => ((n.link p).call P.io (.injectEvent event)).map fun r =>
    { n with
      link := Function.update n.link p r.2
      said := Function.update n.said p (n.said p ++ event.says.toList) }
  | .poll p clock => ((n.link p).call P.io (.poll clock)).map fun r =>
    { n with
      link := Function.update n.link p r.2
      flight := Function.update n.flight p fun k => n.flight p k ++
        ((scanWrites P.io clock 0 (n.link p).handler.substreams).filter fun w => P.name w.1 = k).map Prod.snd
      asked := n.note p r.1 }
  | .open_ p i =>
    match (n.link p).opening[i]? with
    | some info => ((n.link p).call P.io (.negotiated i (P.opened n.opened.length))).map fun r =>
      { n with link := Function.update n.link p r.2, opened := n.opened ++ [⟨p, info.1, info.2⟩] }
    | none => some n
  | .dialError p i error => ((n.link p).call P.io (.dialError i error)).map fun r =>
    { n with link := Function.update n.link p r.2 }
  | .accept p k =>
    if (n.opened[k]?.any fun o => o.opener = p.other) = true ∧ k ∉ n.numbers p then
      ((n.link p).call P.io (.inbound (P.accepted k))).map fun r =>
        { n with link := Function.update n.link p r.2, numbers := Function.update n.numbers p (n.numbers p ++ [k]) }
    else some n
  | .deliver p k =>
    match n.flight p k with
    | msg :: rest =>
      if n.HasEnd p.other k then some
        { n with
          link := Function.update n.link p.other ((n.link p.other).onStreams (P.put k msg))
          flight := Function.update n.flight p (Function.update (n.flight p) k rest) }
      else some n
    | [] => some n

/-- the machine: after a panic nothing happens any more -/
def next (P : Pipes S E) (s : Option (Pair S U E V)) (op : PairOp U V) : Option (Pair S U E V) :=
  s.bind fun n => n.step P op

section
variable (R : PeerMessage → PeerMessage → Prop)

/-- a user answers only what it was asked, and what it answers fits; a side accepts fewer than 2^64 substreams -/
def Allowed (n : Pair S U E V) : PairOp U V → Prop
  | .inject p event => ∀ r msg, event.response = some (r, msg) → ∃ q, n.asked p r.connecUniqueId = some q ∧ R q msg
  | .accept p _ => (n.numbers p).length + 1 < 2 ^ 64
  | _ => True

/-- an event of the side that is no surprise: an answer that fits to what its user asked, a message the other user
asked to be sent, or a failure of the substream -/
inductive Fits (n : Pair S U E V) (p : Side) : Event U E V → Prop
  | answer {event q msg u} (he : event.reply = some (msg, u)) (hsaid : (q, some u) ∈ n.said p) (hR : R q msg) :
      Fits n p event
  | message {event msg data} (he : event.message = some msg) (hsaid : (msg, data) ∈ n.said p.other) : Fits n p event
  | failure {err u} (herr : ∀ msg, err ≠ .unexpectedMessage msg) : Fits n p (.torrentErr err (some u))

/-! ## what both sides keep to -/

/-- the side may have written the message on the substream: what the substream was opened for, or what answers it -/
def Carries (n : Pair S U E V) (p : Side) (k : Nat) (msg : PeerMessage) : Prop :=
  ∃ o, n.opened[k]? = some o ∧ if o.opener = p then msg = o.msg else msg.isReply = true ∧ R o.msg msg

def terms (n : Pair S U E V) (p : Side) : Terms U where
  said msg userData := (msg, userData) ∈ n.said p
  opened k msg userData := n.opened[k]? = some ⟨p, msg, userData⟩
  accepted id k := (n.numbers p)[id]? = some k
  reply k msg := ∃ o, n.opened[k]? = some o ∧ msg.isReply = true ∧ R o.msg msg
  incoming := n.Carries R p.other

structure Sound (P : Pipes S E) (n : Pair S U E V) : Prop where
  keeps : ∀ p, ∀ s ∈ (n.link p).handler.substreams, Keeps P (n.terms R p) s
  next : ∀ p, (n.link p).handler.nextConnecUniqueId = (n.numbers p).length
  opening : ∀ p, ∀ info ∈ (n.link p).opening, info ∈ n.said p
  said : ∀ p, ∀ info ∈ n.said p, info.1.isUnasked = false
  carried : ∀ p k, ∀ msg ∈ n.flight p k, n.Carries R p k msg
  opened : ∀ o ∈ n.opened, (o.msg, o.userData) ∈ n.said o.opener
  numbers : ∀ p, ∀ k ∈ n.numbers p, ∃ o, n.opened[k]? = some o ∧ o.opener = p.other
  asked : ∀ p id q, n.asked p id = some q → ∃ k o, (n.numbers p)[id]? = some k ∧ n.opened[k]? = some o ∧ o.msg = q

end

/-! ## steps -/

section
variable {P : Pipes S E} {R : PeerMessage → PeerMessage → Prop} {n n' : Pair S U E V}

/-- the history grows -/
structure Grows (n n' : Pair S U E V) : Prop where
  said : ∀ p, ∀ info ∈ n.said p, info ∈ n'.said p
  opened : ∀ (k : Nat) o, n.opened[k]? = some o → n'.opened[k]? = some o
  numbers : ∀ p (id k : Nat), (n.numbers p)[id]? = some k → (n'.numbers p)[id]? = some k

theorem Grows.carries (hg : n.Grows n') {p : Side} {k : Nat} {msg : PeerMessage} (h : n.Carries R p k msg) :
    n'.Carries R p k msg := by
  obtain ⟨o, ho, hmsg⟩ := h
  exact ⟨o, hg.opened k o ho, hmsg⟩

theorem Grows.terms (hg : n.Grows n') (p : Side) : (n.terms R p).Le (n'.terms R p) where
  said h := hg.said p _ h
  opened h := hg.opened _ _ h
  accepted h := hg.numbers p _ _ h
  reply h := h.imp fun o ho => ⟨hg.opened _ o ho.1, ho.2⟩
  incoming h := hg.carries h

/-- what is left to see when the history only grows: the links and the messages under way -/
theorem Sound.of_grows (hn : n.Sound R P) (hg : n.Grows n') {p : Side}
    (hother : ∀ q, q ≠ p → n'.link q = n.link q)
    (hkeeps : ∀ s ∈ (n'.link p).handler.substreams, Keeps P (n'.terms R p) s)
    (hnext : ∀ q, (n'.link q).handler.nextConnecUniqueId = (n'.numbers q).length)
    (hopening : ∀ info ∈ (n'.link p).opening, info ∈ n'.said p)
    (hsaid : ∀ q, ∀ info ∈ n'.said q, info.1.isUnasked = false)
    (hcarried : ∀ q k, ∀ msg ∈ n'.flight q k, n'.Carries R q k msg)
    (hopened : ∀ o ∈ n'.opened, (o.msg, o.userData) ∈ n'.said o.opener)
    (hnumbers : ∀ q, ∀ k ∈ n'.numbers q, ∃ o, n'.opened[k]? = some o ∧ o.opener = q.other)
    (hasked : ∀ q id m, n'.asked q id = some m → n.asked q id = some m ∨
      ∃ k o, (n'.numbers q)[id]? = some k ∧ n'.opened[k]? = some o ∧ o.msg = m) : n'.Sound R P := by
  refine ⟨?_, hnext, ?_, hsaid, hcarried, hopened, hnumbers, ?_⟩
  · intro q s hs
    by_cases hq : q = p
    · subst hq
      exact hkeeps s hs
    · rw [hother q hq] at hs
      exact (hn.keeps q s hs).mono (hg.terms q)
  · intro q info hinfo
    by_cases hq : q = p
    · subst hq
      exact hopening info hinfo
    · rw [hother q hq] at hinfo
      exact hg.said q info (hn.opening q info hinfo)
  · intro q id m hm
    rcases hasked q id m hm with hm | hm
    · obtain ⟨k, o, hk, ho, he⟩ := hn.asked q id m hm
      exact ⟨k, o, hg.numbers q id k hk, hg.opened k o ho, he⟩
    · exact hm

/-- the user of `p` has an event for its handler -/
theorem Sound.inject (hn : n.Sound R P) {p : Side} {event : In U}
    (hallowed : ∀ r msg, event.response = some (r, msg) → ∃ q, n.asked p r.connecUniqueId = some q ∧ R q msg) :
    ∃ n', n.step P (.inject p event) = some n' ∧ n'.Sound R P := by
  obtain ⟨h', hinject, hin⟩ := (n.link p).handler.injectEvent_cases event
  obtain ⟨n', hn'⟩ : ∃ n' : Pair S U E V, n' = { n with
      link := Function.update n.link p { n.link p with handler := h' }
      said := Function.update n.said p (n.said p ++ event.says.toList) } := ⟨_, rfl⟩
  refine ⟨n', by rw [hn']; simp only [step, Link.call, hinject, Option.map_some], ?_⟩
  have hlink : n'.link p = { n.link p with handler := h' } := by rw [hn']; exact Function.update_self ..
  have hsaid : n'.said p = n.said p ++ event.says.toList := by rw [hn']; exact Function.update_self ..
  have hother : ∀ q, q ≠ p → n'.link q = n.link q ∧ n'.said q = n.said q := by
    intro q hq
    rw [hn']
    exact ⟨Function.update_of_ne hq .., Function.update_of_ne hq ..⟩
  have hsame : n'.opened = n.opened ∧ n'.numbers = n.numbers ∧ n'.flight = n.flight ∧ n'.asked = n.asked := by
    rw [hn']
    exact ⟨rfl, rfl, rfl, rfl⟩
  obtain ⟨hopened, hnumbers, hflight, hasked⟩ := hsame
  have hg : n.Grows n' := by
    refine ⟨?_, fun k o h => by rw [hopened]; exact h, fun q id k h => by rw [hnumbers]; exact h⟩
    intro q info hinfo
    by_cases hq : q = p
    · subst hq
      rw [hsaid]
      exact List.mem_append_left _ hinfo
    · rw [(hother q hq).2]
      exact hinfo
  refine hn.of_grows hg (fun q hq => (hother q hq).1) ?_ ?_ ?_ ?_ ?_ ?_ ?_ ?_
  · rw [hlink]
    refine keeps_injected hin (fun s hs => (hn.keeps p s hs).mono (hg.terms p)) ?_ ?_
    · intro info hinfo
      show _ ∈ n'.said p
      rw [hsaid, hinfo]
      exact List.mem_append_right _ List.mem_cons_self
    · -- the request under the number is what the substream was opened for
      intro r msg k he hacc
      obtain ⟨q, hq, hR⟩ := hallowed r msg he
      obtain ⟨k', o, hk, ho, rfl⟩ := hn.asked p _ q hq
      obtain rfl : k' = k := Option.some.inj ((hg.numbers p _ _ hk).symm.trans hacc)
      exact ⟨o, hg.opened _ _ ho, isReply_response he, hR⟩
  · intro q
    rw [hnumbers, ← hn.next q]
    by_cases hq : q = p
    · subst hq
      rw [hlink]
      cases hin <;> rfl
    · rw [(hother q hq).1]
  · rw [hlink]
    exact fun info hinfo => hg.said p info (hn.opening p info hinfo)
  · intro q info hinfo
    by_cases hq : q = p
    · subst hq
      rw [hsaid] at hinfo
      rcases List.mem_append.mp hinfo with hinfo | hinfo
      · exact hn.said q info hinfo
      · exact isUnasked_says (Option.mem_toList.mp hinfo)
    · rw [(hother q hq).2] at hinfo
      exact hn.said q info hinfo
  · rw [hflight]
    exact fun q k msg hmsg => hg.carries (hn.carried q k msg hmsg)
  · rw [hopened]
    exact fun o ho => hg.said _ _ (hn.opened o ho)
  · rw [hnumbers, hopened]
    exact hn.numbers
  · rw [hasked]
    exact fun q id m hm => Or.inl hm

/-- what is read on an accepted substream is what the remote opened it for -/
theorem Sound.msg_of_accepted (hn : n.Sound R P) {p : Side} {id k : Nat} {msg : PeerMessage}
    (hacc : (n.numbers p)[id]? = some k) (hin : n.Carries R p.other k msg) :
    ∃ o, n.opened[k]? = some o ∧ o.opener = p.other ∧ o.msg = msg := by
  obtain ⟨o, ho, hmsg⟩ := hin
  obtain ⟨o', ho', hopener⟩ := hn.numbers p k (List.mem_of_getElem? hacc)
  obtain rfl : o' = o := Option.some.inj (ho'.symm.trans ho)
  rw [if_pos hopener] at hmsg
  exact ⟨o', ho, hopener, hmsg.symm⟩

theorem not_carries_port (hn : n.Sound R P) (p : Side) (k : Nat) (port : UInt16) : ¬ n.Carries R p k (.port port) := by
  rintro ⟨o, ho, hmsg⟩
  have hsaid := hn.said _ _ (hn.opened o (List.mem_of_getElem? ho))
  split at hmsg
  · rw [← hmsg] at hsaid
    cases hsaid
  · cases hmsg.1

/-- a message that is written may be written -/
theorem Sound.wrote (hn : n.Sound R P) {p : Side} {clock : Nat → Instant} {w : S × PeerMessage}
    (hw : w ∈ scanWrites P.io clock 0 (n.link p).handler.substreams) : n.Carries R p (P.name w.1) w.2 := by
  rcases keeps_scanWrites (hn.keeps p) hw with ⟨userData, ho⟩ | ⟨id, hacc, o, ho, hreply, hR⟩
  · exact ⟨_, ho, by rw [if_pos rfl]⟩
  · obtain ⟨o', ho', hopener⟩ := hn.numbers p _ (List.mem_of_getElem? hacc)
    obtain rfl : o' = o := Option.some.inj (ho'.symm.trans ho)
    refine ⟨o', ho, ?_⟩
    rw [if_neg (by rw [hopener]; exact p.other_ne)]
    exact ⟨hreply, hR⟩

/-- the history changes with a request that is handed on -/
theorem note_cases {p q : Side} {event : Option (ProtocolsHandlerEvent U E V)} {id : Nat} {m : PeerMessage}
    (h : n.note p event q id = some m) : n.asked q id = some m ∨
      q = p ∧ ∃ e r, event = some (.custom e) ∧ e.requestId = some r ∧ id = r.connecUniqueId ∧ e.message = some m := by
  cases hreq : event.bind ProtocolsHandlerEvent.request with
  | none =>
    rw [note, hreq] at h
    exact Or.inl h
  | some x =>
    obtain ⟨r, msg⟩ := x
    rw [note, hreq] at h
    simp only at h
    by_cases hq : q = p
    · subst hq
      rw [Function.update_self] at h
      by_cases hid : id = r.connecUniqueId
      · subst hid
        rw [Function.update_self] at h
        cases h
        obtain ⟨e, he, hreq⟩ := Option.bind_eq_some_iff.mp hreq
        cases e with
        | outboundSubstreamRequest info => cases hreq
        | custom e =>
          obtain ⟨r', hr, hreq⟩ := Option.bind_eq_some_iff.mp hreq
          obtain ⟨msg', hmsg, hreq⟩ := Option.map_eq_some_iff.mp hreq
          cases hreq
          exact Or.inr ⟨rfl, e, r, he, hr, rfl, hmsg⟩
      · rw [Function.update_of_ne hid] at h
        exact Or.inl h
    · rw [Function.update_of_ne hq] at h
      exact Or.inl h

/-- the handler of `p` is polled -/
theorem Sound.poll (hn : n.Sound R P) (p : Side) (clock : Nat → Instant) :
    ∃ n', n.step P (.poll p clock) = some n' ∧ n'.Sound R P := by
  obtain ⟨⟨event, h'⟩, hpoll⟩ := poll_returns clock (hn.keeps p) fun k port => not_carries_port hn p.other k port
  obtain ⟨link, hlinkdef⟩ : ∃ link : Link S U E V,
      link = ⟨h', (n.link p).opening ++ (event.bind ProtocolsHandlerEvent.opened).toList⟩ := ⟨_, rfl⟩
  obtain ⟨n', hn'⟩ : ∃ n' : Pair S U E V, n' = { n with
      link := Function.update n.link p link
      flight := Function.update n.flight p fun k => n.flight p k ++
        ((scanWrites P.io clock 0 (n.link p).handler.substreams).filter fun w => P.name w.1 = k).map Prod.snd
      asked := n.note p event } := ⟨_, rfl⟩
  refine ⟨n', by rw [hn', hlinkdef]; simp only [step, Link.call, hpoll, Option.map_some], ?_⟩
  have hlink : n'.link p = link := by rw [hn']; exact Function.update_self ..
  have hother : ∀ q, q ≠ p → n'.link q = n.link q ∧ n'.flight q = n.flight q := by
    intro q hq
    rw [hn']
    exact ⟨Function.update_of_ne hq .., Function.update_of_ne hq ..⟩
  have hflight : ∀ k, n'.flight p k = n.flight p k ++
      ((scanWrites P.io clock 0 (n.link p).handler.substreams).filter fun w => P.name w.1 = k).map Prod.snd := by
    intro k
    rw [hn']
    show Function.update n.flight p _ p k = _
    rw [Function.update_self]
  have hsame : n'.opened = n.opened ∧ n'.numbers = n.numbers ∧ n'.said = n.said ∧ n'.asked = n.note p event := by
    rw [hn']
    exact ⟨rfl, rfl, rfl, rfl⟩
  obtain ⟨hopened, hnumbers, hsaid, hasked⟩ := hsame
  have hg : n.Grows n' := ⟨fun q info h => by rw [hsaid]; exact h, fun k o h => by rw [hopened]; exact h,
    fun q id k h => by rw [hnumbers]; exact h⟩
  obtain ⟨hquiet, hloud⟩ := keeps_poll (hn.keeps p) hpoll
  refine hn.of_grows hg (fun q hq => (hother q hq).1) ?_ ?_ ?_ ?_ ?_ ?_ ?_ ?_
  · rw [hlink, hlinkdef]
    intro s hs
    refine Keeps.mono (hg.terms p) ?_
    cases event with
    | none => exact hquiet rfl s hs
    | some event =>
      obtain ⟨left, hheard, hall⟩ := hloud event rfl
      rcases hall s hs with hs | rfl
      · exact hs
      · -- what is left of the substream that reports
        cases hheard with
        | answered hopened hin hevent => trivial
        | delivered hacc hbox hin hevent => exact ⟨hacc, hbox⟩
  · intro q
    rw [hnumbers, ← hn.next q]
    by_cases hq : q = p
    · subst hq
      rw [hlink, hlinkdef]
      obtain ⟨r, l, l', -, -, -, rfl⟩ := poll_some hpoll
      rfl
    · rw [(hother q hq).1]
  · rw [hlink, hlinkdef, hsaid]
    intro info hinfo
    rcases List.mem_append.mp hinfo with hinfo | hinfo
    · exact hn.opening p info hinfo
    · obtain ⟨event', he, hinfo⟩ := Option.bind_eq_some_iff.mp (Option.mem_toList.mp hinfo)
      obtain ⟨left, hheard, -⟩ := hloud event' he
      cases hheard with
      | opens h =>
        obtain rfl := Option.some.inj hinfo
        exact h
      | _ => cases hinfo
  · rw [hsaid]
    exact hn.said
  · intro q k msg hmsg
    refine hg.carries ?_
    by_cases hq : q = p
    · subst hq
      rw [hflight] at hmsg
      rcases List.mem_append.mp hmsg with hmsg | hmsg
      · exact hn.carried q k msg hmsg
      · obtain ⟨w, hw, rfl⟩ := List.mem_map.mp hmsg
        obtain ⟨hw, hk⟩ := List.mem_filter.mp hw
        rw [← of_decide_eq_true hk]
        exact hn.wrote hw
    · rw [(hother q hq).2] at hmsg
      exact hn.carried q k msg hmsg
  · rw [hopened, hsaid]
    exact hn.opened
  · rw [hnumbers, hopened]
    exact hn.numbers
  · rw [hasked, hnumbers, hopened]
    intro q id m hm
    rcases note_cases hm with hm | ⟨rfl, e, r, he, hr, rfl, hmessage⟩
    · exact Or.inl hm
    · obtain ⟨left, hheard, -⟩ := hloud _ he
      cases hheard with
      | fails herr => cases hr
      | answered hopened hin hevent => cases (requestId_processBttOut hevent).symm.trans hr
      | delivered hacc hbox hin hevent =>
        obtain ⟨rfl, hmessage'⟩ := request_of_processBttIn hevent hr
        obtain ⟨o, ho, -, hmsg⟩ := hn.msg_of_accepted hacc hin
        exact Or.inr ⟨_, o, hacc, ho, hmsg.trans (Option.some.inj (hmessage'.symm.trans hmessage))⟩

/-- the swarm opens a substream -/
theorem Sound.open_ (hn : n.Sound R P) {p : Side} {i : Nat} {info : PeerMessage × Option U}
    (hinfo : (n.link p).opening[i]? = some info) :
    ∃ n', n.step P (.open_ p i) = some n' ∧ n'.Sound R P := by
  obtain ⟨n', hn'⟩ : ∃ n' : Pair S U E V, n' = { n with
      link := Function.update n.link p
        ⟨(n.link p).handler.injectFullyNegotiatedOutbound (P.opened n.opened.length) info, (n.link p).opening.eraseIdx i⟩
      opened := n.opened ++ [⟨p, info.1, info.2⟩] } := ⟨_, rfl⟩
  have hstep : n.step P (.open_ p i) = some n' := by
    rw [hn']
    simp only [step, hinfo, Link.call, Link.resolve, Option.elim_some, Option.map_some]
  refine ⟨n', hstep, ?_⟩
  have hlink : n'.link p = ⟨(n.link p).handler.injectFullyNegotiatedOutbound (P.opened n.opened.length) info,
      (n.link p).opening.eraseIdx i⟩ := by rw [hn']; exact Function.update_self ..
  have hother : ∀ q, q ≠ p → n'.link q = n.link q := by
    intro q hq
    rw [hn']
    exact Function.update_of_ne hq ..
  have hsame : n'.numbers = n.numbers ∧ n'.said = n.said ∧ n'.flight = n.flight ∧ n'.asked = n.asked := by
    rw [hn']
    exact ⟨rfl, rfl, rfl, rfl⟩
  obtain ⟨hnumbers, hsaid, hflight, hasked⟩ := hsame
  have hopened : n'.opened = n.opened ++ [⟨p, info.1, info.2⟩] := by rw [hn']
  have hg : n.Grows n' := by
    refine ⟨fun q x h => by rw [hsaid]; exact h, ?_, fun q id k h => by rw [hnumbers]; exact h⟩
    intro k o h
    rw [hopened, List.getElem?_append_left (List.getElem?_eq_some_iff.mp h).1]
    exact h
  have hmem : info ∈ n.said p := hn.opening p info (List.mem_of_getElem? hinfo)
  refine hn.of_grows hg hother ?_ ?_ ?_ ?_ ?_ ?_ ?_ ?_
  · rw [hlink]
    refine keeps_push (fun s hs => (hn.keeps p s hs).mono (hg.terms p)) ⟨?_, ?_⟩
    · show n'.opened[P.name _]? = _
      rw [P.name_opened, hopened, List.getElem?_append_right (Nat.le_refl _), Nat.sub_self]
      rfl
    · intro msg hmsg
      rw [P.inbox_opened] at hmsg
      cases hmsg
  · intro q
    rw [hnumbers, ← hn.next q]
    by_cases hq : q = p
    · subst hq
      rw [hlink]
      rfl
    · rw [hother q hq]
  · rw [hlink, hsaid]
    exact fun x hx => hn.opening p x ((List.eraseIdx_sublist _ _).subset hx)
  · rw [hsaid]
    exact hn.said
  · rw [hflight]
    exact fun q k msg hmsg => hg.carries (hn.carried q k msg hmsg)
  · rw [hopened, hsaid]
    intro o ho
    rcases List.mem_append.mp ho with ho | ho
    · exact hn.opened o ho
    · rw [List.mem_singleton.mp ho]
      exact hmem
  · rw [hnumbers]
    exact fun q k hk => (hn.numbers q k hk).imp fun o ho => ⟨hg.opened k o ho.1, ho.2⟩
  · rw [hasked]
    exact fun q id m hm => Or.inl hm

/-- a dial fails -/
theorem Sound.dialError (hn : n.Sound R P) (p : Side) (i : Nat) (error : V) :
    ∃ n', n.step P (.dialError p i error) = some n' ∧ n'.Sound R P := by
  obtain ⟨link, hlinkdef⟩ : ∃ link : Link S U E V,
      link = (n.link p).resolve i fun h info => h.injectDialUpgradeError info error := ⟨_, rfl⟩
  obtain ⟨n', hn'⟩ : ∃ n' : Pair S U E V, n' = { n with link := Function.update n.link p link } := ⟨_, rfl⟩
  refine ⟨n', by rw [hn', hlinkdef]; rfl, ?_⟩
  have hlink : n'.link p = link := by rw [hn']; exact Function.update_self ..
  have hother : ∀ q, q ≠ p → n'.link q = n.link q := by
    intro q hq
    rw [hn']
    exact Function.update_of_ne hq ..
  have hsame : n'.opened = n.opened ∧ n'.numbers = n.numbers ∧ n'.said = n.said ∧ n'.flight = n.flight ∧
      n'.asked = n.asked := by
    rw [hn']
    exact ⟨rfl, rfl, rfl, rfl, rfl⟩
  obtain ⟨hopened, hnumbers, hsaid, hflight, hasked⟩ := hsame
  have hg : n.Grows n' := ⟨fun q info h => by rw [hsaid]; exact h, fun k o h => by rw [hopened]; exact h,
    fun q id k h => by rw [hnumbers]; exact h⟩
  have hold : ∀ s ∈ (n.link p).handler.substreams, Keeps P (n'.terms R p) s :=
    fun s hs => (hn.keeps p s hs).mono (hg.terms p)
  -- what the failed dial leaves
  have hresolve : (∀ s ∈ link.handler.substreams, Keeps P (n'.terms R p) s) ∧
      link.handler.nextConnecUniqueId = (n.link p).handler.nextConnecUniqueId ∧
      ∀ info ∈ link.opening, info ∈ (n.link p).opening := by
    rw [hlinkdef, Link.resolve]
    cases (n.link p).opening[i]? with
    | none => exact ⟨hold, rfl, fun info h => h⟩
    | some info =>
      obtain ⟨msg, userData⟩ := info
      cases userData with
      | none => exact ⟨hold, rfl, fun info h => (List.eraseIdx_sublist _ _).subset h⟩
      | some u => exact ⟨keeps_push hold (by rintro _ ⟨⟩), rfl, fun info h => (List.eraseIdx_sublist _ _).subset h⟩
  refine hn.of_grows hg hother ?_ ?_ ?_ ?_ ?_ ?_ ?_ ?_
  · rw [hlink]
    exact hresolve.1
  · intro q
    rw [hnumbers, ← hn.next q]
    by_cases hq : q = p
    · subst hq
      rw [hlink]
      exact hresolve.2.1
    · rw [hother q hq]
  · rw [hlink, hsaid]
    exact fun info hinfo => hn.opening p info (hresolve.2.2 info hinfo)
  · rw [hsaid]
    exact hn.said
  · rw [hflight]
    exact fun q k msg hmsg => hg.carries (hn.carried q k msg hmsg)
  · rw [hopened, hsaid]
    exact hn.opened
  · rw [hnumbers, hopened]
    exact hn.numbers
  · rw [hasked]
    exact fun q id m hm => Or.inl hm

/-- the side accepts a substream that the other one has opened -/
theorem Sound.accept (hn : n.Sound R P) {p : Side} {k : Nat} (hlt : (n.numbers p).length + 1 < 2 ^ 64)
    (hk : (n.opened[k]?.any fun o => o.opener = p.other) = true ∧ k ∉ n.numbers p) :
    ∃ n', n.step P (.accept p k) = some n' ∧ n'.Sound R P := by
  obtain ⟨o, ho, hopener⟩ := (Option.any_eq_true _ _).mp hk.1
  have hopener := of_decide_eq_true hopener
  obtain ⟨n', hn'⟩ : ∃ n' : Pair S U E V, n' = { n with
      link := Function.update n.link p
        { n.link p with handler := (n.link p).handler.injectFullyNegotiatedInbound (P.accepted k) }
      numbers := Function.update n.numbers p (n.numbers p ++ [k]) } := ⟨_, rfl⟩
  have hstep : n.step P (.accept p k) = some n' := by
    rw [hn']
    simp only [step, if_pos hk, Link.call, Option.map_some]
  refine ⟨n', hstep, ?_⟩
  have hlink : n'.link p
      = { n.link p with handler := (n.link p).handler.injectFullyNegotiatedInbound (P.accepted k) } := by
    rw [hn']
    exact Function.update_self ..
  have hnumbers : n'.numbers p = n.numbers p ++ [k] := by rw [hn']; exact Function.update_self ..
  have hother : ∀ q, q ≠ p → n'.link q = n.link q ∧ n'.numbers q = n.numbers q := by
    intro q hq
    rw [hn']
    exact ⟨Function.update_of_ne hq .., Function.update_of_ne hq ..⟩
  have hsame : n'.opened = n.opened ∧ n'.said = n.said ∧ n'.flight = n.flight ∧ n'.asked = n.asked := by
    rw [hn']
    exact ⟨rfl, rfl, rfl, rfl⟩
  obtain ⟨hopened, hsaid, hflight, hasked⟩ := hsame
  have hg : n.Grows n' := by
    refine ⟨fun q x h => by rw [hsaid]; exact h, fun k o h => by rw [hopened]; exact h, ?_⟩
    intro q id k' h
    by_cases hq : q = p
    · subst hq
      rw [hnumbers, List.getElem?_append_left (List.getElem?_eq_some_iff.mp h).1]
      exact h
    · rw [(hother q hq).2]
      exact h
  refine hn.of_grows hg (fun q hq => (hother q hq).1) ?_ ?_ ?_ ?_ ?_ ?_ ?_ ?_
  · rw [hlink]
    refine keeps_push (fun s hs => (hn.keeps p s hs).mono (hg.terms p)) ⟨?_, ?_⟩
    · show (n'.numbers p)[(n.link p).handler.nextConnecUniqueId]? = some (P.name _)
      rw [hn.next, P.name_accepted, hnumbers, List.getElem?_append_right (Nat.le_refl _), Nat.sub_self]
      rfl
    · intro msg hmsg
      rw [P.inbox_accepted] at hmsg
      cases hmsg
  · intro q
    by_cases hq : q = p
    · subst hq
      rw [hlink, hnumbers, List.length_append, List.length_singleton]
      show ((n.link q).handler.nextConnecUniqueId + 1) % 2 ^ 64 = _
      rw [hn.next, Nat.mod_eq_of_lt hlt]
    · rw [(hother q hq).1, (hother q hq).2]
      exact hn.next q
  · rw [hlink, hsaid]
    exact hn.opening p
  · rw [hsaid]
    exact hn.said
  · rw [hflight]
    exact fun q k msg hmsg => hg.carries (hn.carried q k msg hmsg)
  · rw [hopened, hsaid]
    exact hn.opened
  · rw [hopened]
    intro q k' hk'
    by_cases hq : q = p
    · subst hq
      rw [hnumbers] at hk'
      rcases List.mem_append.mp hk' with hk' | hk'
      · exact hn.numbers q k' hk'
      · rw [List.mem_singleton.mp hk']
        exact ⟨o, ho, hopener⟩
    · rw [(hother q hq).2] at hk'
      exact hn.numbers q k' hk'
  · rw [hasked]
    exact fun q id m hm => Or.inl hm

/-- a message arrives -/
theorem Sound.deliver (hn : n.Sound R P) {p : Side} {k : Nat} {msg : PeerMessage} {rest : List PeerMessage}
    (hmsg : n.flight p k = msg :: rest) (hend : n.HasEnd p.other k) :
    ∃ n', n.step P (.deliver p k) = some n' ∧ n'.Sound R P := by
  obtain ⟨n', hn'⟩ : ∃ n' : Pair S U E V, n' = { n with
      link := Function.update n.link p.other ((n.link p.other).onStreams (P.put k msg))
      flight := Function.update n.flight p (Function.update (n.flight p) k rest) } := ⟨_, rfl⟩
  have hstep : n.step P (.deliver p k) = some n' := by
    rw [hn']
    simp only [step, hmsg, if_pos hend]
  refine ⟨n', hstep, ?_⟩
  have hlink : n'.link p.other = (n.link p.other).onStreams (P.put k msg) := by rw [hn']; exact Function.update_self ..
  have hother : ∀ q, q ≠ p.other → n'.link q = n.link q := by
    intro q hq
    rw [hn']
    exact Function.update_of_ne hq ..
  have hsame : n'.opened = n.opened ∧ n'.numbers = n.numbers ∧ n'.said = n.said ∧ n'.asked = n.asked := by
    rw [hn']
    exact ⟨rfl, rfl, rfl, rfl⟩
  obtain ⟨hopened, hnumbers, hsaid, hasked⟩ := hsame
  -- nothing is under way that was not before
  have hflight : ∀ q k', ∀ m ∈ n'.flight q k', m ∈ n.flight q k' := by
    intro q k' m hm
    rw [hn'] at hm
    by_cases hq : q = p
    · subst hq
      change m ∈ Function.update n.flight q _ q k' at hm
      rw [Function.update_self] at hm
      by_cases hk : k' = k
      · subst hk
        rw [Function.update_self] at hm
        rw [hmsg]
        exact List.mem_cons_of_mem _ hm
      · rw [Function.update_of_ne hk] at hm
        exact hm
    · change m ∈ Function.update n.flight p _ q k' at hm
      rw [Function.update_of_ne hq] at hm
      exact hm
  have hg : n.Grows n' := ⟨fun q info h => by rw [hsaid]; exact h, fun k o h => by rw [hopened]; exact h,
    fun q id k h => by rw [hnumbers]; exact h⟩
  refine hn.of_grows hg hother ?_ ?_ ?_ ?_ ?_ ?_ ?_ ?_
  · rw [hlink]
    intro s hs
    obtain ⟨s', hs', rfl⟩ := List.mem_map.mp hs
    refine Keeps.mono (hg.terms p.other) (Keeps.put ?_ (hn.keeps p.other s' hs'))
    show n.Carries R p.other.other k msg
    rw [Side.other_other]
    refine hn.carried p k msg ?_
    rw [hmsg]
    exact List.mem_cons_self
  · intro q
    rw [hnumbers, ← hn.next q]
    by_cases hq : q = p.other
    · subst hq
      rw [hlink]
      rfl
    · rw [hother q hq]
  · rw [hlink, hsaid]
    exact hn.opening p.other
  · rw [hsaid]
    exact hn.said
  · exact fun q k' m hm => hg.carries (hn.carried q k' m (hflight q k' m hm))
  · rw [hopened, hsaid]
    exact hn.opened
  · rw [hnumbers, hopened]
    exact hn.numbers
  · rw [hasked]
    exact fun q id m hm => Or.inl hm

/-- **One step** goes through, and both handlers keep to the terms. -/
theorem Sound.step (hn : n.Sound R P) {op : PairOp U V} (hallowed : n.Allowed R op) :
    ∃ n', n.step P op = some n' ∧ n'.Sound R P := by
  cases op with
  | inject p event => exact hn.inject hallowed
  | poll p clock => exact hn.poll p clock
  | open_ p i =>
    cases hinfo : (n.link p).opening[i]? with
    | some info => exact hn.open_ hinfo
    | none => exact ⟨n, by simp only [Pair.step, hinfo], hn⟩
  | dialError p i error => exact hn.dialError p i error
  | accept p k =>
    by_cases hk : (n.opened[k]?.any fun o => o.opener = p.other) = true ∧ k ∉ n.numbers p
    · exact hn.accept hallowed hk
    · exact ⟨n, if_neg hk, hn⟩
  | deliver p k =>
    cases hmsg : n.flight p k with
    | nil => exact ⟨n, by simp only [Pair.step, hmsg], hn⟩
    | cons msg rest =>
      by_cases hend : n.HasEnd p.other k
      · exact hn.deliver hmsg hend
      · exact ⟨n, by simp only [Pair.step, hmsg, if_neg hend], hn⟩

theorem sound_new : (new : Pair S U E V).Sound R P where
  keeps _ := List.forall_mem_nil _
  next _ := rfl
  opening _ := List.forall_mem_nil _
  said _ := List.forall_mem_nil _
  carried _ _ := List.forall_mem_nil _
  opened := List.forall_mem_nil _
  numbers _ := List.forall_mem_nil _
  asked _ _ _ h := by cases h

/-- every event of a handler that keeps to the terms fits -/
theorem Sound.fits (hn : n.Sound R P) {p : Side} {event : Event U E V} {left : Option (SubstreamState S U E V)}
    (hheard : Heard P (n.terms R p) (.custom event) left) : n.Fits R p event := by
  cases hheard with
  | fails herr => exact .failure herr
  | answered hopened hin hevent =>
    -- the substream is our own, so what arrives on it is an answer
    obtain ⟨o, ho, hmsg⟩ := hin
    obtain rfl := Option.some.inj (hopened.symm.trans ho)
    rw [if_neg p.other_ne.symm] at hmsg
    exact .answer (reply_of_processBttOut hmsg.1 hevent) (hn.opened _ (List.mem_of_getElem? ho)) hmsg.2
  | delivered hacc hbox hin hevent =>
    obtain ⟨o, ho, hopener, rfl⟩ := hn.msg_of_accepted hacc hin
    have hsaid := hn.opened o (List.mem_of_getElem? ho)
    rw [hopener] at hsaid
    exact .message (message_of_processBttIn (hn.said _ _ hsaid) hevent) hsaid

/-- a handler that keeps to the terms does not panic, and what it reports fits -/
theorem Sound.reports (hn : n.Sound R P) (p : Side) (clock : Nat → Instant) : ∃ event h',
    (n.link p).handler.poll P.io clock = some (event, h') ∧ ∀ e, event = some (.custom e) → n.Fits R p e := by
  obtain ⟨⟨event, h'⟩, hpoll⟩ := poll_returns clock (hn.keeps p) fun k port => not_carries_port hn p.other k port
  refine ⟨event, h', hpoll, ?_⟩
  rintro e rfl
  obtain ⟨left, hheard, -⟩ := (keeps_poll (hn.keeps p) hpoll).2 _ rfl
  exact hn.fits hheard

/-- **Two handlers understand each other.**  Let the users answer only what they were asked, as the relation `R` wants
it, and let each side accept fewer than 2^64 substreams.  Then, in whatever order substreams are opened, accepted and
polled and messages arrive, neither handler ever panics, and all they report is: answers that `R` relates to the
message their own user asked to be sent, with its data; messages that the user of the other side asked to be sent; and
failures of substreams.  No message is ever unexpected. -/
theorem pair_converses (P : Pipes S E) (R : PeerMessage → PeerMessage → Prop) (ops : List (PairOp U V))
    (hallowed : Along (Pair.next P) (fun s op => ∀ n, s = some n → n.Allowed R op) (some new) ops) :
    ∃ n : Pair S U E V, exec (Pair.next P) (some new) ops = some n ∧ ∀ p clock, ∃ event h',
      (n.link p).handler.poll P.io clock = some (event, h') ∧ ∀ e, event = some (.custom e) → n.Fits R p e := by
  have hrun : ∃ n : Pair S U E V, exec (Pair.next P) (some new) ops = some n ∧ n.Sound R P := by
    refine exec_inv_along (I := fun s => ∃ n : Pair S U E V, s = some n ∧ n.Sound R P) ?_ ⟨new, rfl, sound_new⟩ hallowed
    rintro s op ⟨n, rfl, hn⟩ hG
    exact hn.step (hG n rfl)
  obtain ⟨n, hrun, hn⟩ := hrun
  exact ⟨n, hrun, hn.reports⟩

end

/-- streams on which everything succeeds at once: a name and the messages that have arrived -/
def mail : Pipes (Nat × List PeerMessage) Unit where
  io :=
    { pollReady := fun s => (.ready (.ok ()), s)
      startSend := fun s _ => (.ok (), s)
      pollFlush := fun s => (.ready (.ok ()), s)
      pollNext := fun s =>
        match s.2 with
        | msg :: rest => (.ready (some (.ok msg)), s.1, rest)
        | [] => (.pending, s)
      pollClose := fun s => (.ready (.ok ()), s)
      unexpectedEof := () }
  name := Prod.fst
  inbox := Prod.snd
  opened k := (k, [])
  accepted k := (k, [])
  arrive msg s := (s.1, s.2 ++ [msg])
  name_opened _ := rfl
  inbox_opened _ := rfl
  name_accepted _ := rfl
  inbox_accepted _ := rfl
  name_arrive _ _ := rfl
  inbox_arrive _ _ := rfl
  leaves := by
    rintro ⟨k, inbox⟩ s' h
    cases h with
    | nothing h =>
      cases inbox with
      | nil => exact ⟨rfl, rfl⟩
      | cons msg rest => exact (h msg rfl).elim
    | _ => exact ⟨rfl, rfl⟩
  reads := by
    rintro ⟨k, inbox⟩ msg h
    cases inbox with
    | nil => cases h
    | cons msg' rest =>
      cases h
      exact ⟨rfl, rfl⟩

def hello : Handshake := .new (.replicate 1) (.replicate 2)
def helloBack : Handshake := .new (.replicate 1) (.replicate 3)

/-- the left user asks for a handshake and gets one back -/
def shakeHands : List (PairOp Unit Unit) :=
  [.inject .left (.handshakeReq hello ()), .poll .left fun _ => 0, .open_ .left 0, .poll .left fun _ => 0,
    .accept .right 0, .deliver .left 0, .poll .right fun _ => 0, .inject .right (.handshakeRes helloBack ⟨0⟩),
    .poll .right fun _ => 0, .deliver .right 0]

/-- a handshake is answered with a handshake -/
def InKind (q msg : PeerMessage) : Prop := ∃ handshake handshake', q = .handshake handshake ∧ msg = .handshake handshake'

theorem pair_converses_handshake :
    ∃ n : Pair (Nat × List PeerMessage) Unit Unit Unit, exec (Pair.next mail) (some new) shakeHands = some n ∧
      ∃ h', (n.link .left).handler.poll mail.io (fun _ => 0) = some (some (.custom (.handshakeRes helloBack ())), h') ∧
        n.Fits InKind .left (.handshakeRes helloBack ()) := by
  obtain ⟨n, hrun, hfits⟩ := pair_converses mail InKind shakeHands (by
    refine ⟨?_, ?_, ?_, ?_, ?_, ?_, ?_, ?_, ?_, ?_, trivial⟩ <;> rintro _ ⟨⟩
    · rintro r msg ⟨⟩
    · trivial
    · trivial
    · trivial
    · show 0 + 1 < 2 ^ 64
      decide
    · trivial
    · trivial
    · rintro r msg ⟨⟩
      exact ⟨.handshake hello, rfl, hello, helloBack, rfl, rfl⟩
    · trivial
    · trivial)
  cases hrun
  obtain ⟨event, h', hpoll, hfit⟩ := hfits .left fun _ => 0
  cases hpoll
  exact ⟨_, rfl, _, rfl, hfit _ rfl⟩

end Pair

end Btt
