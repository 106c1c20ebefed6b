import BitTorrent.Disk.Moves
import BitTorrent.Handler.Answers
import BitTorrent.Node.Node

/-!
# A node answers what it was asked

Behind every request that a handler has handed on there is one substream that waits, and at most one ticket: the event
on its way to the behaviour, the request that waits for its block, the queued reply, or the reply on its way back.

* `tickets`              the tickets of a connection, wherever they are;
* `Connection.Sound`     a request has at most one, and its substream waits as long as there is one; a reply is of the
                         kind, and a block from the place, that was asked for;
* `Sound.step`           every step keeps this of every connection;
* `replies_fit`          so every reply that reaches a handler finds the substream that asked for it.
-/

namespace Btt
open Run BitTorrentHandler

/-! ## handlers -/

namespace BitTorrentHandler
variable {S U E V : Type} {io : BttStream S E}

/-- the numbers of the inbound substreams are distinct and were given before -/
structure Numbered (h : BitTorrentHandler S U E V) : Prop where
  distinct : h.ids.Nodup
  below : ∀ id ∈ h.ids, id < h.nextConnecUniqueId

variable {h h' : BitTorrentHandler S U E V}

theorem numbered_new : (withSeedLeechConfig : BitTorrentHandler S U E V).Numbered :=
  ⟨List.nodup_nil, List.forall_mem_nil _⟩

theorem Numbered.of_subperm (hn : h.Numbered) (hids : h'.ids.Subperm h.ids)
    (hnext : h'.nextConnecUniqueId = h.nextConnecUniqueId) : h'.Numbered := by
  obtain ⟨l, hl, hsub⟩ := hids
  refine ⟨hl.nodup_iff.mp (hsub.nodup hn.distinct), ?_⟩
  intro id hid
  rw [hnext]
  exact hn.below id (hsub.subset (hl.mem_iff.mpr hid))

theorem Numbered.waiting_nodup (hn : h.Numbered) : h.waiting.Nodup := (waiting_sublist h.substreams).nodup hn.distinct

/-- a new substream gets the next number, and waits for a message first -/
theorem Numbered.inbound (hn : h.Numbered) (hlt : h.nextConnecUniqueId + 1 < 2 ^ 64) (stream : S) :
    (h.injectFullyNegotiatedInbound stream).Numbered ∧
      (h.injectFullyNegotiatedInbound stream).waiting = h.waiting := by
  have hids : (h.injectFullyNegotiatedInbound stream).ids = h.ids ++ [h.nextConnecUniqueId] := by
    show (h.substreams ++ [_]).filterMap SubstreamState.inId = _
    rw [List.filterMap_append]
    rfl
  have hnext : (h.injectFullyNegotiatedInbound stream).nextConnecUniqueId = h.nextConnecUniqueId + 1 :=
    Nat.mod_eq_of_lt hlt
  refine ⟨⟨?_, ?_⟩, ?_⟩
  · rw [hids, List.nodup_append_comm]
    refine List.nodup_cons.mpr ⟨?_, hn.distinct⟩
    intro hmem
    exact Nat.lt_irrefl _ (hn.below _ hmem)
  · intro id hid
    rw [hids] at hid
    rw [hnext]
    rcases List.mem_append.mp hid with hid | hid
    · exact Nat.lt_succ_of_lt (hn.below id hid)
    · rw [List.mem_singleton.mp hid]
      exact Nat.lt_succ_self _
  · show (h.substreams ++ [_]).filterMap SubstreamState.waitingId = _
    rw [List.filterMap_append, List.filterMap_cons_none rfl, List.filterMap_nil, List.append_nil]
    rfl

/-- a call that delivers nothing, and is no answer, leaves the waiting substreams as they are -/
theorem Numbered.does_nothing (hn : h.Numbered) {op : BitTorrentHandlerOp S U V}
    {event : Option (ProtocolsHandlerEvent U E V)} (hop : ∀ stream, op ≠ .injectFullyNegotiatedInbound stream)
    (hcall : h.call io op = some (event, h')) (hdeed : h.deed io op = none) :
    h'.Numbered ∧ ∀ id, id ∈ h'.waiting ↔ id ∈ h.waiting := by
  obtain ⟨hdoes, hnext⟩ := call_does hop hcall
  rw [hdeed] at hdoes
  cases hdoes with
  | nothing hids hwait => exact ⟨hn.of_subperm hids hnext, fun id => hwait.mem_iff⟩

/-- a poll replies to nothing -/
theorem delivered_of_deed_poll {clock : Nat → Instant} {d : Deed} (h' : h.deed io (.poll clock) = some d) :
    ∃ id asks, d = .delivered id asks := by
  obtain ⟨r, -, hr⟩ := Option.bind_eq_some_iff.mp h'
  obtain ⟨report, -, hreport⟩ := Option.bind_eq_some_iff.mp hr
  obtain ⟨id, -, rfl⟩ := Option.map_eq_some_iff.mp hreport
  exact ⟨_, _, rfl⟩

/-- a poll makes no waiting substream go on; one whose request it hands on did not wait before, and does then -/
theorem Numbered.poll (hn : h.Numbered) {clock : Nat → Instant} {event : Option (ProtocolsHandlerEvent U E V)}
    (hpoll : h.poll io clock = some (event, h')) :
    h'.Numbered ∧ (∀ id ∈ h.waiting, id ∈ h'.waiting) ∧
      ∀ e r, event = some (.custom e) → e.requestId = some r →
        r.connecUniqueId ∉ h.waiting ∧ r.connecUniqueId ∈ h'.waiting := by
  have hcall : h.call io (.poll clock) = some (event, h') := hpoll
  obtain ⟨hdoes, hnext⟩ := call_does nofun hcall
  generalize hd : h.deed io (.poll clock) = d at hdoes
  have hnone : (∀ id asks, d ≠ some (.delivered id asks)) → ∀ e r, event = some (.custom e) → e.requestId = some r →
      r.connecUniqueId ∉ h.waiting ∧ r.connecUniqueId ∈ h'.waiting := by
    rintro hd' e r rfl hr
    exact (hd' _ _ (hd.symm.trans (deed_of_request hpoll hr))).elim
  cases hdoes with
  | nothing hids hwait => exact ⟨hn.of_subperm hids hnext, fun id hid => hwait.mem_iff.mpr hid, hnone nofun⟩
  | @delivers id asks hid hids hwait =>
    refine ⟨hn.of_subperm hids hnext, fun i hi => hwait.mem_iff.mpr (List.mem_cons_of_mem _ hi), ?_⟩
    rintro e r rfl hr
    have hdeed := hd.symm.trans (deed_of_request hpoll hr)
    cases hdeed
    obtain ⟨l, hl, hsub⟩ := hid
    have hnodup : (r.connecUniqueId :: h.waiting).Nodup := hl.nodup_iff.mp (hsub.nodup hn.distinct)
    exact ⟨(List.nodup_cons.mp hnodup).1, hwait.mem_iff.mpr List.mem_cons_self⟩
  | answers hids hwait =>
    obtain ⟨id, asks, heq⟩ := delivered_of_deed_poll hd
    cases heq
  | discards hids hwait =>
    obtain ⟨id, asks, heq⟩ := delivered_of_deed_poll hd
    cases heq

/-- an event for the handler: what it is no reply to goes on waiting, what it replies to does not -/
theorem Numbered.injectEvent {U : Type} {h h' : BitTorrentHandler S U E V} (hn : h.Numbered) {event : In U}
    (hcall : h.injectEvent event = some h') :
    h'.Numbered ∧ (event.response = none → event.discards = none → ∀ id, id ∈ h'.waiting ↔ id ∈ h.waiting) ∧
      ∀ r, event.response.map Prod.fst = some r ∨ event.discards = some r → r.connecUniqueId ∈ h.waiting →
        ∀ id, id ∈ h'.waiting ↔ id ∈ h.waiting ∧ id ≠ r.connecUniqueId := by
  obtain ⟨h1, hev, hin⟩ := h.injectEvent_cases event
  rw [hev] at hcall
  cases hcall
  have hdoes := does_injected hin
  have hnext : h'.nextConnecUniqueId = h.nextConnecUniqueId := by cases hin <;> rfl
  have hids : h'.ids.Subperm h.ids := by
    generalize event.deed h = d at hdoes
    cases hdoes <;> assumption
  refine ⟨hn.of_subperm hids hnext, ?_, ?_⟩
  · intro hresponse hdiscards id
    have hdeed : event.deed h = none := by
      rw [In.deed, hresponse, hdiscards]
      rfl
    rw [hdeed] at hdoes
    cases hdoes with
    | nothing hids hwait => exact hwait.mem_iff
  · intro r hr hwaits id
    have hr' : h.waits r = true := by
      obtain ⟨s, hs, hid⟩ := List.mem_filterMap.mp hwaits
      rw [waits, List.any_eq_true]
      cases s with
      | inWaitingUser id stream =>
        cases hid
        exact ⟨_, hs, decide_eq_true rfl⟩
      | _ => cases hid
    have hmoved : h.waiting.Perm (r.connecUniqueId :: h'.waiting) := by
      have hdeed : event.deed h = some (.answered r.connecUniqueId) ∨
          event.deed h = some (.discarded r.connecUniqueId) := by
        cases event <;> simp_all [In.deed, In.response, In.discards]
      rcases hdeed with hdeed | hdeed <;> rw [hdeed] at hdoes <;> cases hdoes <;> assumption
    have hnodup : (r.connecUniqueId :: h'.waiting).Nodup := hmoved.nodup_iff.mp hn.waiting_nodup
    rw [hmoved.mem_iff, List.mem_cons]
    constructor
    · intro hid
      refine ⟨Or.inr hid, ?_⟩
      rintro rfl
      exact (List.nodup_cons.mp hnodup).1 hid
    · rintro ⟨rfl | hid, hne⟩
      · exact absurd rfl hne
      · exact hid

end BitTorrentHandler

/-! ## tickets -/

section
variable {File World S E V : Type}

/-- the tickets on their way between the handler and the behaviour -/
def Connection.onWay (c : Connection S E V) (q : RequestId → Option Reply → Bool) : Nat :=
  (c.events.countP fun e => e.owes.any fun g => q g.1 (some g.2)) + c.notices.countP fun e => e.gives.any fun g => q g.1 g.2

/-- the tickets of `p` that pass the test -/
def ofPeer (p : PeerId) (q : RequestId → Option Reply → Bool) (t : Ticket) : Bool :=
  decide (t.peer = p) && q t.requestId t.reply

def tickets (b : BitTorrent File World) (p : PeerId) (c : Connection S E V) (q : RequestId → Option Reply → Bool) : Nat :=
  c.onWay q + b.held (ofPeer p q)

/-- the tickets of the request `r`; those of them that are replies of the kind `reply` -/
def ofRequest (r : RequestId) (r' : RequestId) (_ : Option Reply) : Bool := r' = r
def ofReply (r : RequestId) (reply : Reply) (r' : RequestId) (reply' : Option Reply) : Bool :=
  r' = r && reply' = some reply

theorem ofRequest_self (r : RequestId) (reply : Option Reply) : ofRequest r r reply = true := decide_eq_true rfl

/-- a test that passes a refusal passes all replies -/
def Lenient (q : RequestId → Option Reply → Bool) : Prop := ∀ r reply, q r none = true → q r (some reply) = true

theorem lenient_ofRequest (r : RequestId) : Lenient (ofRequest r) := fun _ _ h => h

theorem lenient_ofReply (r : RequestId) (reply : Reply) : Lenient (ofReply r reply) := by
  intro r' reply' h
  rw [ofReply, Bool.and_eq_true, decide_eq_true_eq, decide_eq_true_eq] at h
  cases h.2

theorem tickets_mono (b : BitTorrent File World) (p : PeerId) (c : Connection S E V)
    {q q' : RequestId → Option Reply → Bool} (h : ∀ r reply, q r reply = true → q' r reply = true) :
    tickets b p c q ≤ tickets b p c q' := by
  have hany : ∀ o : Option (RequestId × Option Reply), (o.any fun g => q g.1 g.2) = true →
      (o.any fun g => q' g.1 g.2) = true := by
    intro o ho
    cases o with
    | none => cases ho
    | some g => exact h g.1 g.2 ho
  refine Nat.add_le_add (Nat.add_le_add ?_ ?_) (BitTorrent.held_mono ?_ b)
  · refine List.countP_mono_left ?_
    intro e _ he
    cases ho : e.owes with
    | none =>
      rw [ho] at he
      cases he
    | some g =>
      rw [ho] at he
      exact h g.1 (some g.2) he
  · exact List.countP_mono_left fun e _ he => hany _ he
  · intro t ht
    obtain ⟨hp, hq⟩ := Bool.and_eq_true_iff.mp ht
    exact Bool.and_eq_true_iff.mpr ⟨hp, h _ _ hq⟩

/-- what is said of a connection of `p` to the behaviour `b` -/
structure Connection.Sound (b : BitTorrent File World) (p : PeerId) (c : Connection S E V) : Prop where
  numbered : c.link.handler.Numbered
  once : ∀ r, tickets b p c (ofRequest r) ≤ if r.connecUniqueId ∈ c.link.handler.waiting then 1 else 0
  fits : ∀ r reply, 0 < tickets b p c (ofReply r reply) → c.asked r.connecUniqueId = some reply

/-- fewer tickets, as many substreams that wait -/
theorem Connection.Sound.mono {b b' : BitTorrent File World} {p : PeerId} {c c' : Connection S E V} (h : c.Sound b p)
    (hlink : c'.link.handler = c.link.handler) (hasked : c'.asked = c.asked)
    (hq : ∀ q, Lenient q → tickets b' p c' q ≤ tickets b p c q) : c'.Sound b' p := by
  refine ⟨by rw [hlink]; exact h.numbered, ?_, ?_⟩
  · intro r
    rw [hlink]
    exact (hq _ (lenient_ofRequest r)).trans (h.once r)
  · intro r reply hpos
    rw [hasked]
    exact h.fits r reply (Nat.lt_of_lt_of_le hpos (hq _ (lenient_ofReply r reply)))

theorem weight_ofPeer_self {p : PeerId} {q : RequestId → Option Reply → Bool} (g : Option (RequestId × Option Reply)) :
    weight (ofPeer p q) (g.map fun g => ⟨p, g.1, g.2⟩) = weight (fun g => q g.1 g.2) g := by
  cases g with
  | none => rfl
  | some g => simp [ofPeer]

theorem weight_ofPeer_other {p p' : PeerId} (hne : p' ≠ p) {q : RequestId → Option Reply → Bool}
    (g : Option (RequestId × Option Reply)) : weight (ofPeer p q) (g.map fun g => ⟨p', g.1, g.2⟩) = 0 := by
  cases g with
  | none => rfl
  | some g => simp [ofPeer, hne]

/-- what is due for a request of `p`, as a lenient test counts it -/
theorem due_ofPeer_self {p : PeerId} {q : RequestId → Option Reply → Bool} (hq : Lenient q)
    (g : Option (RequestId × Reply)) :
    BitTorrent.due (ofPeer p q) (g.map fun g => ⟨p, g.1, some g.2⟩) = weight (fun g => q g.1 (some g.2)) g := by
  cases g with
  | none => rfl
  | some g =>
    have hor : (q g.1 (some g.2) || q g.1 none) = q g.1 (some g.2) := by
      cases hnone : q g.1 none with
      | true => rw [hq _ _ hnone]; rfl
      | false => rw [Bool.or_false]
    simp [BitTorrent.due, ofPeer, hor]

theorem due_ofPeer_other {p p' : PeerId} (hne : p' ≠ p) {q : RequestId → Option Reply → Bool}
    (g : Option (RequestId × Reply)) : BitTorrent.due (ofPeer p q) (g.map fun g => ⟨p', g.1, some g.2⟩) = 0 := by
  cases g with
  | none => rfl
  | some g => simp [BitTorrent.due, ofPeer, hne]

end

/-! ## steps -/

namespace Node
variable {File World Err S E V : Type}

/-- what is said of a node -/
structure Sound (n : Node File World S E V) : Prop where
  grounded : n.behaviour.Grounded
  connections : ∀ p c, n.connections.lookup p = some c → c.Sound n.behaviour p

/-- nothing is left of an earlier connection of `p`: no request of it waits for its block, and no reply to one is
queued -/
def Clear (b : BitTorrent File World) (p : PeerId) : Prop := b.held (fun t => t.peer = p) = 0

/-- a peer has one connection, and opens it when nothing is left of the last one; the numbers of its inbound substreams
stay below 2^64 -/
def Allowed (n : Node File World S E V) : NodeOp S V → Prop
  | .connected _ p _ => n.connections.lookup p = none ∧ Clear n.behaviour p
  | .link p (.inbound _) _ => ∀ c ∈ n.connections.lookup p, c.link.handler.nextConnecUniqueId + 1 < 2 ^ 64
  | _ => True

section
variable {fs : FileSystem File World Err} {sha1 : List UInt8 → ShaHash} {io : BttStream S E}
  {n n' : Node File World S E V} {b b' : BitTorrent File World} {p : PeerId} {c c' : Connection S E V}

/-- the notice an action is for a peer -/
def noticeFor (p : PeerId) : Option NetworkBehaviourAction → List BitTorrentHandlerIn
  | some (.sendEvent peer event) => if peer = p then [event] else []
  | _ => []

theorem lookup_route (n : Node File World S E V) (action : Option NetworkBehaviourAction) (p : PeerId) :
    (n.route action).connections.lookup p
      = (n.connections.lookup p).map fun c => { c with notices := c.notices ++ noticeFor p action } := by
  have hsame : ∀ c : Connection S E V, { c with notices := c.notices ++ [] } = c := by
    intro c
    rw [List.append_nil]
  have hnil : noticeFor p action = [] → (n.connections.lookup p).map (fun c =>
      { c with notices := c.notices ++ noticeFor p action }) = n.connections.lookup p := by
    intro h
    rw [h]
    simp only [hsame, Option.map_id']
  unfold route
  split
  · rename_i peer event
    split
    · rename_i c hc
      rw [AList.lookup_insert_eq]
      by_cases hp : p = peer
      · subst hp
        rw [if_pos rfl, hc, Option.map_some, noticeFor, if_pos rfl]
      · rw [if_neg hp, hnil]
        rw [noticeFor, if_neg (Ne.symm hp)]
    · rename_i hnone
      by_cases hp : p = peer
      · subst hp
        rw [hnone]
        rfl
      · rw [hnil]
        rw [noticeFor, if_neg (Ne.symm hp)]
  · rename_i h
    rw [hnil]
    unfold noticeFor
    split
    · rename_i peer event
      exact (h peer event rfl).elim
    · rfl

@[simp]
theorem behaviour_route (n : Node File World S E V) (action : Option NetworkBehaviourAction) :
    (n.route action).behaviour = n.behaviour := by
  unfold route
  split
  · split <;> rfl
  · rfl

theorem countP_noticeFor (p : PeerId) (action : Option NetworkBehaviourAction) (q : RequestId → Option Reply → Bool) :
    (noticeFor p action).countP (fun e => e.gives.any fun g => q g.1 g.2)
      = weight (ofPeer p q) (action.bind NetworkBehaviourAction.ticket) := by
  unfold noticeFor
  split
  · rename_i peer event
    rw [Option.bind_some, NetworkBehaviourAction.ticket]
    split
    · rename_i hp
      subst hp
      rw [weight_ofPeer_self, List.countP_singleton]
      cases event.gives <;> rfl
    · rename_i hp
      rw [weight_ofPeer_other hp]
      rfl
  · rename_i h
    cases action with
    | none => rfl
    | some a =>
      cases a with
      | sendEvent peer event => exact (h peer event rfl).elim
      | _ => rfl

/-- a step of the behaviour that is no news of a request -/
theorem held_of_owes_none {op : BehaviourOp} (hb : b.Grounded) (howes : op.owes = none)
    (h : b.step fs sha1 op = some b') (q : Ticket → Bool) :
    BitTorrent.held q b' + weight q ((b.output fs sha1 op).bind NetworkBehaviourAction.ticket) ≤ BitTorrent.held q b := by
  have hstep := BitTorrent.held_step hb h q
  rw [howes] at hstep
  exact hstep

theorem Sound.behaviour (hn : n.Sound) {op : BehaviourOp} (hop : op.isNews = false)
    (h : n.behaviour.step fs sha1 op = some b') :
    ({ n with behaviour := b' }.route (n.behaviour.output fs sha1 op)).Sound := by
  have howes : op.owes = none := by
    cases op <;> first | rfl | cases hop
  refine ⟨?_, ?_⟩
  · rw [behaviour_route]
    exact hn.grounded.step h
  · intro p c' hc'
    rw [lookup_route] at hc'
    obtain ⟨c, hc, rfl⟩ := Option.map_eq_some_iff.mp hc'
    rw [behaviour_route]
    refine (hn.connections p c hc).mono rfl rfl ?_
    intro q _
    have hheld := held_of_owes_none hn.grounded howes h (ofPeer p q)
    rw [tickets, tickets, Connection.onWay, Connection.onWay, List.countP_append, countP_noticeFor]
    show c.events.countP _ + (_ + _) + b'.held _ ≤ _
    omega

/-- what the behaviour does by itself for one peer, or is told of it, leaves the others alone -/
theorem sound_quiet (hc : c.Sound b p) {op : BehaviourOp} (hb : b.Grounded) (howes : op.owes = none)
    (h : b.step fs sha1 op = some b') : c.Sound b' p := by
  refine hc.mono rfl rfl ?_
  intro q _
  have hheld := held_of_owes_none hb howes h (ofPeer p q)
  rw [tickets, tickets]
  omega

/-- a connection opens -/
theorem Sound.connected (hn : n.Sound) {w : Walk} {endpoint : ConnectedPoint} (hclear : Clear n.behaviour p)
    (h : n.behaviour.step fs sha1 (.injectConnected w p endpoint) = some b') :
    Sound (⟨b', n.connections.insert p .new⟩ : Node File World S E V) := by
  refine ⟨hn.grounded.step h, ?_⟩
  intro p' c' hc'
  rw [AList.lookup_insert_eq] at hc'
  split at hc'
  · rename_i hp
    subst hp
    cases hc'
    have hnone : ∀ q, tickets b' p' (Connection.new : Connection S E V) q = 0 := by
      intro q
      have hle : n.behaviour.held (ofPeer p' q) ≤ n.behaviour.held (fun t => t.peer = p') :=
        BitTorrent.held_mono (fun t ht => (Bool.and_eq_true_iff.mp ht).1) _
      have hq := held_of_owes_none hn.grounded rfl h (ofPeer p' q)
      unfold Clear at hclear
      show 0 + 0 + BitTorrent.held _ _ = 0
      omega
    refine ⟨numbered_new, ?_, ?_⟩
    · intro r
      rw [hnone]
      exact Nat.zero_le _
    · intro r reply hpos
      rw [hnone] at hpos
      exact absurd hpos (Nat.lt_irrefl 0)
  · exact sound_quiet (hn.connections p' c' hc') hn.grounded rfl h

/-- an event of the handler of `p` arrives: its ticket goes over to the behaviour -/
theorem Sound.event (hn : n.Sound) {w : Walk} {now : Instant} {event : BitTorrentHandlerEvent}
    (hc : n.connections.lookup p = some c) (hevents : c.events = event :: c'.events) (hlink : c'.link = c.link)
    (hnotices : c'.notices = c.notices) (hasked : c'.asked = c.asked)
    (h : n.behaviour.step fs sha1 (.injectNodeEvent w now p event) = some b') :
    Sound (⟨b', n.connections.insert p c'⟩ : Node File World S E V) := by
  refine ⟨hn.grounded.step h, ?_⟩
  intro p' d hd
  rw [AList.lookup_insert_eq] at hd
  split at hd
  · rename_i hp
    subst hp
    cases hd
    show c'.Sound b' p'
    refine (hn.connections p' c hc).mono (by rw [hlink]) hasked ?_
    intro q hq
    have hheld := BitTorrent.held_step hn.grounded h (ofPeer p' q)
    have hdue : BitTorrent.due (ofPeer p' q) (BehaviourOp.owes (.injectNodeEvent w now p' event))
        = weight (fun g => q g.1 (some g.2)) event.owes := due_ofPeer_self hq event.owes
    have hcount : c.events.countP (fun e => e.owes.any fun g => q g.1 (some g.2))
        = c'.events.countP (fun e => e.owes.any fun g => q g.1 (some g.2))
          + weight (fun g => q g.1 (some g.2)) event.owes := by
      rw [hevents, List.countP_cons]
      cases event.owes <;> rfl
    rw [tickets, tickets, Connection.onWay, Connection.onWay, hnotices, hcount]
    omega
  · rename_i hp
    show d.Sound b' p'
    refine (hn.connections p' d hd).mono rfl rfl ?_
    intro q hq
    have hheld := BitTorrent.held_step hn.grounded h (ofPeer p' q)
    have hdue : BitTorrent.due (ofPeer p' q) (BehaviourOp.owes (.injectNodeEvent w now p event)) = 0 :=
      due_ofPeer_other (Ne.symm hp) event.owes
    rw [tickets, tickets]
    omega

/-- the connection of `p` alone changes -/
theorem Sound.connection (hn : n.Sound) (hc : c.Sound n.behaviour p) :
    Sound ({ n with connections := n.connections.insert p c } : Node File World S E V) := by
  refine ⟨hn.grounded, ?_⟩
  intro p' d hd
  rw [AList.lookup_insert_eq] at hd
  split at hd
  · rename_i hp
    subst hp
    cases hd
    exact hc
  · exact hn.connections p' d hd

/-! ### the handler of a connection -/

/-- an event of the behaviour is a reply, a refusal, or neither -/
theorem gives_toIn (event : BitTorrentHandlerIn) :
    event.gives.map Prod.fst = (event.toIn.response.map Prod.fst).or event.toIn.discards := by
  cases event <;> rfl

/-- a notice arrives: its ticket is gone, and the substream it was for waits no longer -/
theorem sound_notice {link : Link S TorrentId E V} {event : BitTorrentHandlerIn} {notices : List BitTorrentHandlerIn}
    {events : List BitTorrentHandlerEvent} {asked : Nat → Option Reply}
    (hc : Connection.Sound b p ⟨link, event :: notices, events, asked⟩)
    (hcall : Connection.call io ⟨link, notices, events, asked⟩ (.injectEvent event.toIn) = some c') : c'.Sound b p := by
  obtain ⟨⟨report, link'⟩, hlink, rfl⟩ := Option.map_eq_some_iff.mp hcall
  obtain ⟨h', hinject, hlink⟩ := Option.map_eq_some_iff.mp hlink
  cases hlink
  obtain ⟨hnumbered, hother, hown⟩ := hc.numbered.injectEvent hinject
  have hgives := gives_toIn event
  -- the tickets that are left
  have hcount : ∀ q, tickets b p (⟨link, event :: notices, events, asked⟩ : Connection S E V) q
      = tickets b p (⟨{ link with handler := h' }, notices, events, asked⟩ : Connection S E V) q
        + weight (fun g => q g.1 g.2) event.gives := by
    intro q
    rw [tickets, tickets, Connection.onWay, Connection.onWay, List.countP_cons]
    cases event.gives with
    | none => rfl
    | some g =>
      show events.countP _ + (notices.countP _ + _) + _ = events.countP _ + notices.countP _ + _ + _
      rw [weight_some, Option.any_some]
      omega
  refine ⟨hnumbered, ?_, ?_⟩
  · intro r
    have honce := hc.once r
    rw [hcount] at honce
    show _ ≤ if r.connecUniqueId ∈ h'.waiting then 1 else 0
    cases hg : event.gives with
    | none =>
      rw [hg] at hgives honce
      obtain ⟨h1, h2⟩ := Option.or_eq_none_iff.mp hgives.symm
      simp only [hother (Option.map_eq_none_iff.mp h1) h2]
      rw [weight_none, Nat.add_zero] at honce
      exact honce
    | some g =>
      rw [hg] at hgives honce
      -- its ticket is there, so the substream waits
      have hwaits : g.1.connecUniqueId ∈ link.handler.waiting := by
        have hone := hc.once g.1
        rw [hcount, hg, weight_some, if_pos (ofRequest_self _ _)] at hone
        by_contra hnot
        rw [if_neg hnot] at hone
        omega
      have hmem : event.toIn.response.map Prod.fst = some g.1 ∨ event.toIn.discards = some g.1 := by
        rcases Option.or_eq_some_iff.mp hgives.symm with h | ⟨-, h⟩
        · exact Or.inl h
        · exact Or.inr h
      rw [if_congr (hown g.1 hmem hwaits r.connecUniqueId) rfl rfl]
      by_cases hr : r.connecUniqueId = g.1.connecUniqueId
      · obtain rfl : r = g.1 := congrArg RequestId.mk hr
        rw [weight_some, if_pos (ofRequest_self _ _), if_pos hwaits] at honce
        rw [if_neg fun h => h.2 rfl]
        exact Nat.le_of_lt_succ honce
      · rw [if_congr (and_iff_left hr) rfl rfl]
        exact (Nat.le_add_right _ _).trans honce
  · intro r reply hpos
    have hbefore : 0 < tickets b p (⟨link, event :: notices, events, asked⟩ : Connection S E V) (ofReply r reply) := by
      rw [hcount]
      exact Nat.lt_of_lt_of_le hpos (Nat.le_add_right _ _)
    exact hc.fits r reply hbefore

/-- a request is handed on: one more ticket if it asks for a reply, for a substream that waits from now on -/
theorem sound_handed (hc : c.Sound b p) {event : BitTorrentHandlerEvent} {r : RequestId}
    (howes : ∀ g, event.owes = some g → g.1 = r) (hnumbered : c'.link.handler.Numbered)
    (hkept : ∀ id ∈ c.link.handler.waiting, id ∈ c'.link.handler.waiting)
    (hbefore : r.connecUniqueId ∉ c.link.handler.waiting) (hafter : r.connecUniqueId ∈ c'.link.handler.waiting)
    (hevents : c'.events = c.events ++ [event]) (hnotices : c'.notices = c.notices)
    (hasked : c'.asked = Function.update c.asked r.connecUniqueId (event.owes.map Prod.snd)) : c'.Sound b p := by
  have hcount : ∀ q, tickets b p c' q = tickets b p c q + weight (fun g => q g.1 (some g.2)) event.owes := by
    intro q
    have hone : [event].countP (fun e => e.owes.any fun g => q g.1 (some g.2))
        = weight (fun g => q g.1 (some g.2)) event.owes := by
      rw [List.countP_singleton]
      cases event.owes <;> rfl
    rw [tickets, tickets, Connection.onWay, Connection.onWay, hevents, hnotices, List.countP_append, hone]
    omega
  -- nothing was under way for it
  have hzero : tickets b p c (ofRequest r) = 0 := by
    have honce := hc.once r
    rw [if_neg hbefore] at honce
    exact Nat.le_zero.mp honce
  -- and for another request nothing is new
  have hother : ∀ r' q, r' ≠ r → (∀ r'' reply, q r'' reply = true → r'' = r') →
      tickets b p c' q = tickets b p c q := by
    intro r' q hr hq
    rw [hcount]
    cases ho : event.owes with
    | none => rfl
    | some g =>
      rw [weight_some, if_neg, Nat.add_zero]
      intro hg
      exact hr ((hq _ _ hg).symm.trans (howes g ho))
  refine ⟨hnumbered, ?_, ?_⟩
  · intro r'
    by_cases hr : r' = r
    · subst hr
      rw [hcount, hzero, if_pos hafter, Nat.zero_add]
      cases event.owes with
      | none => exact Nat.zero_le _
      | some g =>
        rw [weight_some]
        split <;> omega
    · rw [hother r' (ofRequest r') hr fun r'' _ h => of_decide_eq_true h]
      refine (hc.once r').trans ?_
      by_cases hwaits : r'.connecUniqueId ∈ c.link.handler.waiting
      · rw [if_pos hwaits, if_pos (hkept _ hwaits)]
      · rw [if_neg hwaits]
        exact Nat.zero_le _
  · intro r' reply' hpos
    rw [hasked]
    by_cases hr : r' = r
    · subst hr
      have hnone : tickets b p c (ofReply r' reply') = 0 := by
        refine Nat.le_zero.mp (le_of_le_of_eq ?_ hzero)
        exact tickets_mono b p c fun r'' _ h => (Bool.and_eq_true_iff.mp h).1
      rw [hcount, hnone, Nat.zero_add] at hpos
      rw [Function.update_self]
      cases ho : event.owes with
      | none =>
        rw [ho] at hpos
        exact absurd hpos (Nat.lt_irrefl 0)
      | some g =>
        rw [ho, weight_some] at hpos
        by_cases hg : ofReply r' reply' g.1 (some g.2) = true
        · rw [ofReply, Bool.and_eq_true, decide_eq_true_eq, decide_eq_true_eq] at hg
          exact hg.2
        · rw [if_neg hg] at hpos
          exact absurd hpos (Nat.lt_irrefl 0)
    · have hid : r'.connecUniqueId ≠ r.connecUniqueId := fun h => hr (congrArg RequestId.mk h)
      rw [hother r' (ofReply r' reply') hr fun r'' _ h => of_decide_eq_true (Bool.and_eq_true_iff.mp h).1] at hpos
      rw [Function.update_of_ne hid]
      exact hc.fits r' reply' hpos

/-- what a link does by itself: no substream that waits goes on, and one more waits for every request that is handed on -/
theorem sound_link (hc : c.Sound b p) {op : LinkOp S TorrentId V} (hop : op.isEvent = false)
    (hlt : ∀ stream, op = .inbound stream → c.link.handler.nextConnecUniqueId + 1 < 2 ^ 64)
    (hcall : c.call io op = some c') : c'.Sound b p := by
  obtain ⟨⟨report, link'⟩, hlink, rfl⟩ := Option.map_eq_some_iff.mp hcall
  -- a move that hands on no request
  have hquiet : ∀ handler opening, handler.Numbered →
      (∀ id ∈ c.link.handler.waiting, id ∈ handler.waiting) →
      ({ c with link := ⟨handler, opening⟩ } : Connection S E V).Sound b p := by
    intro handler opening hnumbered hkept
    refine ⟨hnumbered, ?_, fun r reply hpos => hc.fits r reply hpos⟩
    intro r
    refine (hc.once r).trans ?_
    by_cases hr : r.connecUniqueId ∈ c.link.handler.waiting
    · rw [if_pos hr, if_pos (hkept _ hr)]
    · rw [if_neg hr]
      exact Nat.zero_le _
  -- a request that comes back from the swarm
  have hresolve : ∀ i (back : BitTorrentHandler S TorrentId E V → PeerMessage × Option TorrentId →
      BitTorrentHandler S TorrentId E V), (∀ info, (back c.link.handler info).Numbered ∧
        ∀ id, id ∈ (back c.link.handler info).waiting ↔ id ∈ c.link.handler.waiting) →
      ({ c with link := c.link.resolve i back } : Connection S E V).Sound b p := by
    intro i back hback
    unfold Link.resolve
    cases c.link.opening[i]? with
    | none => exact hc
    | some info => exact hquiet _ _ (hback info).1 fun id hid => ((hback info).2 id).mpr hid
  cases op with
  | injectEvent event => cases hop
  | inbound stream =>
    cases hlink
    obtain ⟨hnumbered, hwait⟩ := hc.numbered.inbound (hlt stream rfl) stream
    exact hquiet _ _ hnumbered fun id hid => by rw [hwait]; exact hid
  | negotiated i stream =>
    cases hlink
    refine hresolve i (fun h info => h.injectFullyNegotiatedOutbound stream info) fun info => ?_
    have hout : c.link.handler.call io (.injectFullyNegotiatedOutbound stream info) = some (none, _) := rfl
    exact hc.numbered.does_nothing (by nofun) hout rfl
  | dialError i error =>
    cases hlink
    refine hresolve i (fun h info => h.injectDialUpgradeError info error) fun info => ?_
    have hout : c.link.handler.call io (.injectDialUpgradeError info error) = some (none, _) := rfl
    exact hc.numbered.does_nothing (by nofun) hout rfl
  | poll clock =>
    obtain ⟨⟨event, handler⟩, hpoll, hlink⟩ := Option.map_eq_some_iff.mp hlink
    cases hlink
    obtain ⟨hnumbered, hkept, hnew⟩ := hc.numbered.poll hpoll
    match event with
    | none => exact hquiet _ _ hnumbered hkept
    | some (.outboundSubstreamRequest info) => exact hquiet _ _ hnumbered hkept
    | some (.custom e) =>
      have hrequest : ∀ g, e.toBehaviour.owes = some g → e.requestId = some g.1 := by
        intro g hg
        cases e <;> cases hg <;> rfl
      cases hreq : e.requestId with
      | none =>
        refine (hquiet _ c.link.opening hnumbered hkept).mono rfl ?_ ?_
        · show Connection.note c.asked e = c.asked
          rw [Connection.note, hreq]
        · intro q _
          have howes : e.toBehaviour.owes = none := by
            cases ho : e.toBehaviour.owes with
            | none => rfl
            | some g => cases hreq.symm.trans (hrequest g ho)
          show ((c.events ++ [e.toBehaviour]).countP _ + _) + _ ≤ _
          rw [List.countP_append, List.countP_singleton, howes]
          exact Nat.le_refl _
      | some r =>
        obtain ⟨hbefore, hafter⟩ := hnew e r rfl hreq
        refine sound_handed hc (fun g hg => Option.some.inj ((hrequest g hg).symm.trans hreq)) hnumbered hkept hbefore
          hafter rfl rfl ?_
        show Connection.note c.asked e = _
        rw [Connection.note, hreq]

/-! ### the node -/

/-- a connection closes: what was on its way is gone -/
theorem Sound.disconnected (hn : n.Sound) {w : Walk}
    (h : n.behaviour.step fs sha1 (.injectDisconnected w p) = some b') :
    Sound (⟨b', n.connections.erase p⟩ : Node File World S E V) := by
  refine ⟨hn.grounded.step h, ?_⟩
  intro p' c' hc'
  rw [AList.lookup_erase_eq] at hc'
  split at hc'
  · cases hc'
  · exact sound_quiet (hn.connections p' c' hc') hn.grounded rfl h

/-- **One step** keeps what is said of the connections. -/
theorem Sound.step (hn : n.Sound) {op : NodeOp S V} (hallowed : n.Allowed op) (h : n.step fs sha1 io op = some n') :
    n'.Sound := by
  cases op with
  | behaviour op hop =>
    obtain ⟨b', hb', rfl⟩ := Option.map_eq_some_iff.mp h
    exact hn.behaviour hop hb'
  | connected w peer endpoint =>
    cases h
    have hb : n.behaviour.step fs sha1 (.injectConnected w peer endpoint) = some _ := rfl
    exact hn.connected hallowed.2 hb
  | disconnected w peer =>
    cases h
    have hb : n.behaviour.step fs sha1 (.injectDisconnected w peer) = some _ := rfl
    exact hn.disconnected hb
  | event w now peer =>
    simp only [Node.step] at h
    split at h
    · rename_i link notices event events asked hc
      cases h
      have hb : n.behaviour.step fs sha1 (.injectNodeEvent w now peer event) = some _ := rfl
      exact hn.event hc rfl rfl rfl rfl hb
    · cases h
      exact hn
  | notice peer =>
    simp only [Node.step] at h
    split at h
    · rename_i link event notices events asked hc
      obtain ⟨c', hcall, rfl⟩ := Option.map_eq_some_iff.mp h
      exact hn.connection (sound_notice (hn.connections peer _ hc) hcall)
    · cases h
      exact hn
  | link peer op hop =>
    simp only [Node.step] at h
    split at h
    · rename_i c hc
      obtain ⟨c', hcall, rfl⟩ := Option.map_eq_some_iff.mp h
      refine hn.connection (sound_link (hn.connections peer c hc) hop ?_ hcall)
      rintro stream rfl
      exact hallowed c hc
    · cases h
      exact hn

/-- a message as a reply -/
def replyOf : PeerMessage → Option Reply
  | .handshake _ => some .handshake
  | .bitfield _ => some .bitfield
  | .piece piece => some (.block piece.index piece.begin_)
  | _ => none

theorem response_of_gives {event : BitTorrentHandlerIn} {r : RequestId} {reply : Reply}
    (h : event.gives = some (r, some reply)) : ∃ msg, event.toIn.response = some (r, msg) ∧ replyOf msg = some reply := by
  cases event with
  | handshakeRes handshake requestId =>
    cases h
    exact ⟨.handshake handshake, rfl, rfl⟩
  | bitfieldRes indexField requestId =>
    cases h
    exact ⟨.bitfield indexField, rfl, rfl⟩
  | getPieceRes piece requestId =>
    cases h
    exact ⟨.piece piece, rfl, rfl⟩
  | _ => cases h

/-- a ticket is for a substream that waits -/
theorem waits_of_ticket (hc : c.Sound b p) {r : RequestId} (hpos : 0 < tickets b p c (ofRequest r)) :
    r.connecUniqueId ∈ c.link.handler.waiting := by
  have honce := hc.once r
  by_contra hnot
  rw [if_neg hnot] at honce
  omega

theorem gives_of_response {event : BitTorrentHandlerIn} {r : RequestId} {msg : PeerMessage}
    (h : event.toIn.response = some (r, msg)) : ∃ reply, event.gives = some (r, some reply) ∧ replyOf msg = some reply := by
  cases event with
  | handshakeRes handshake requestId =>
    cases h
    exact ⟨.handshake, rfl, rfl⟩
  | bitfieldRes indexField requestId =>
    cases h
    exact ⟨.bitfield, rfl, rfl⟩
  | getPieceRes piece requestId =>
    cases h
    exact ⟨.block piece.index piece.begin_, rfl, rfl⟩
  | _ => cases h

/-- an event on its way to the handler is a ticket -/
theorem ticket_of_notice {event : BitTorrentHandlerIn} {notices : List BitTorrentHandlerIn} {r : RequestId}
    {reply : Option Reply} (hnotices : c.notices = event :: notices) (hgives : event.gives = some (r, reply))
    {q : RequestId → Option Reply → Bool} (hq : q r reply = true) : 0 < tickets b p c q := by
  have hmem : 0 < c.notices.countP fun e => e.gives.any fun g => q g.1 g.2 := by
    rw [List.countP_pos_iff]
    refine ⟨event, by rw [hnotices]; exact List.mem_cons_self, ?_⟩
    rw [hgives]
    exact hq
  rw [tickets, Connection.onWay]
  omega

/-- the reply on its way is the one that was asked for -/
theorem asked_of_notice (hc : c.Sound b p) {event : BitTorrentHandlerIn} {notices : List BitTorrentHandlerIn}
    {r : RequestId} {reply : Reply} (hnotices : c.notices = event :: notices)
    (hgives : event.gives = some (r, some reply)) : c.asked r.connecUniqueId = some reply :=
  hc.fits r reply (ticket_of_notice hnotices hgives (by simp [ofReply]))

/-- the next event for the handler of `p` moves the substream that asked for it, and nothing else -/
def Answers (fs : FileSystem File World Err) (sha1 : List UInt8 → ShaHash) (io : BttStream S E)
    (n : Node File World S E V) (p : PeerId) (c : Connection S E V) : Prop :=
  ∀ event notices r reply, c.notices = event :: notices → event.gives = some (r, some reply) →
    c.asked r.connecUniqueId = some reply ∧
    ∃ pre stream post msg, c.link.handler.substreams = pre ++ .inWaitingUser r.connecUniqueId stream :: post ∧
      replyOf msg = some reply ∧
      n.step fs sha1 io (.notice p) = some { n with
        connections := n.connections.insert p { c with
          notices := notices
          link.handler.substreams := pre ++ post ++ [.inPendingSend r.connecUniqueId stream msg] } }

theorem Sound.answers (hn : n.Sound) (hc : n.connections.lookup p = some c) : Answers fs sha1 io n p c := by
  intro event notices r reply hnotices hgives
  have hsound := hn.connections p c hc
  have hasked := asked_of_notice hsound hnotices hgives
  have hwaits := waits_of_ticket hsound (ticket_of_notice hnotices hgives (ofRequest_self r _))
  obtain ⟨s, hs, hid⟩ := List.mem_filterMap.mp hwaits
  obtain ⟨pre, post, hsplit⟩ := List.append_of_mem hs
  have hwaiting : ∃ stream, s = .inWaitingUser r.connecUniqueId stream := by
    cases s with
    | inWaitingUser id stream =>
      cases hid
      exact ⟨stream, rfl⟩
    | _ => cases hid
  obtain ⟨stream, rfl⟩ := hwaiting
  obtain ⟨msg, hresponse, hreply⟩ := response_of_gives hgives
  refine ⟨hasked, pre, stream, post, msg, hsplit, hreply, ?_⟩
  obtain ⟨-, hinject⟩ := (answersOwn_of_distinct hsound.numbered.distinct hresponse).own pre stream post hsplit
  obtain ⟨link, notices', events, asked⟩ := c
  cases hnotices
  simp only [Node.step, hc, Connection.call, Link.call]
  rw [hinject]
  rfl

/-- **A whole run.** -/
theorem sound_run {random : ShaHash} {world : World} {config : BitTorrentConfig} {ops : List (NodeOp S V)}
    (hrun : exec (next fs sha1 io) (some (new (.withConfig random world config))) ops = some n)
    (hallowed : Along (next fs sha1 io) (fun s op => ∀ n, s = some n → n.Allowed op)
      (some (new (.withConfig random world config))) ops) : n.Sound := by
  refine exec_inv_along (I := fun s => ∀ n, s = some n → n.Sound) ?_ ?_ hallowed n hrun
  · intro s op hs hG n' hn'
    obtain ⟨n, rfl, hstep⟩ := Option.bind_eq_some_iff.mp hn'
    exact (hs n rfl).step (hG n rfl) hstep
  · rintro _ ⟨⟩
    refine ⟨BitTorrent.grounded_withConfig random world config, ?_⟩
    intro p c hc
    rw [show (new (.withConfig random world config) : Node File World S E V).connections = ∅ from rfl,
      AList.lookup_empty] at hc
    cases hc

/-- **A node answers what it was asked.**  In every run in which a peer connects anew only when nothing is left of its
last connection, and opens fewer than 2^64 substreams to one handler: every request that was handed on has at most one
ticket, be it a pending entry, a reply that is queued or an event on its way, and as long as there is one its substream
waits; and a reply that reaches its handler is of
the kind, or the block from the place, that its substream asked for last, and goes out there. -/
theorem replies_fit (fs : FileSystem File World Err) (sha1 : List UInt8 → ShaHash) (io : BttStream S E)
    (random : ShaHash) (world : World) (config : BitTorrentConfig) (ops : List (NodeOp S V)) (n : Node File World S E V)
    (hrun : exec (next fs sha1 io) (some (new (.withConfig random world config))) ops = some n)
    (hallowed : Along (next fs sha1 io) (fun s op => ∀ n, s = some n → n.Allowed op)
      (some (new (.withConfig random world config))) ops) (p : PeerId) (c : Connection S E V)
    (hc : n.connections.lookup p = some c) :
    (∀ r, tickets n.behaviour p c (ofRequest r) ≤ 1 ∧
      (0 < tickets n.behaviour p c (ofRequest r) → r.connecUniqueId ∈ c.link.handler.waiting)) ∧
    Answers fs sha1 io n p c := by
  have hn := sound_run hrun hallowed
  refine ⟨?_, hn.answers hc⟩
  intro r
  refine ⟨?_, waits_of_ticket (hn.connections p c hc)⟩
  refine ((hn.connections p c hc).once r).trans ?_
  split <;> omega

end

/-- a node that seeds one byte -/
def seed : List (NodeOp (List PeerMessage) Unit) :=
  [.behaviour (.addSeed oneByte .active) rfl, .behaviour .popEvent rfl]

/-- a peer connects and says something on its first substream; the handler hands it on -/
def visit (msg : PeerMessage) : List (NodeOp (List PeerMessage) Unit) :=
  [.connected .same ⟨[7]⟩ (.listener ⟨[]⟩), .link ⟨[7]⟩ (.inbound [msg]) rfl, .link ⟨[7]⟩ (.poll fun _ => 0) rfl]

def shake : PeerMessage := .handshake (.new (firstByte []) (.replicate 9))

theorem replies_fit_handshake :
    ∃ n c, exec (next instantDisk firstByte scripted) (some (new (.withConfig (.replicate 0) () .default)))
        (seed ++ visit shake ++ [.event .same 0 ⟨[7]⟩, .behaviour .popEvent rfl]) = some n ∧
      n.connections.lookup ⟨[7]⟩ = some c ∧ c.notices.map BitTorrentHandlerIn.gives = [some (⟨0⟩, some .handshake)] ∧
      Answers instantDisk firstByte scripted n ⟨[7]⟩ c := by
  refine ⟨_, _, rfl, rfl, rfl, ?_⟩
  refine (replies_fit instantDisk firstByte scripted (.replicate 0) () .default
    (seed ++ visit shake ++ [.event .same 0 ⟨[7]⟩, .behaviour .popEvent rfl]) _ rfl ?_ ⟨[7]⟩ _ rfl).2
  refine ⟨?_, ?_, ?_, ?_, ?_, ?_, ?_, trivial⟩ <;> rintro _ ⟨⟩
  · trivial
  · trivial
  · exact ⟨rfl, rfl⟩
  · rintro c ⟨⟩
    decide
  all_goals trivial

-- the reply to a request of an earlier connection is sent on whatever substream has the number now
example : ∃ n c, exec (next instantDisk firstByte scripted) (some (new (.withConfig (.replicate 0) () .default)))
      (seed ++ visit shake ++ [.event .same 0 ⟨[7]⟩, .disconnected .same ⟨[7]⟩] ++ visit (.bitfield ⟨[true]⟩) ++
        [.behaviour .popEvent rfl]) = some n ∧
    n.connections.lookup ⟨[7]⟩ = some c ∧ ¬ Answers instantDisk firstByte scripted n ⟨[7]⟩ c := by
  refine ⟨_, _, rfl, rfl, ?_⟩
  intro h
  cases (h _ _ _ _ rfl rfl).1

end Node

end Btt
