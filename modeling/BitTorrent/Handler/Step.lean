import BitTorrent.Handler.Poll

/-!
# What a call of the handler does

* `Injected`, `injectEvent_cases`   everything an event of the behaviour can do; no event reaches `unreachable!()`;
* `Deed`, `deed`      what a call does to the requests of the remote: a message is delivered, a request is answered, or
                      its substream is discarded;
* `Does`, `call_does`   what a deed means for the numbers of the inbound substreams;
* `run_inv`           the induction rule for runs, with the deeds so far.
-/

namespace Btt
open Run

variable {S U E V : Type}

namespace BitTorrentHandler

/-! ## injected events -/

/-- the request an event answers, and the answer -/
def In.response : In U → Option (RequestId × PeerMessage)
  | .handshakeRes handshake requestId => some (requestId, .handshake handshake)
  | .bitfieldRes indexField requestId => some (requestId, .bitfield indexField)
  | .getPieceRes piece requestId => some (requestId, .piece piece)
  | _ => none

/-- the request whose substream an event throws away -/
def In.discards : In U → Option RequestId
  | .reset requestId => some requestId
  | .cancelPiece _ requestId => some requestId
  | _ => none

/-- the message an event sends on a new substream, and the data for its answer -/
def In.opens : In U → Option (PeerMessage × Option U)
  | .handshakeReq handshake userData => some (.handshake handshake, some userData)
  | .bitfieldReq indexField userData => some (.bitfield indexField, some userData)
  | .getPieceReq request userData => some (.request request, some userData)
  | .choke .choked => some (.choke, none)
  | .choke .unChoked => some (.unChoke, none)
  | .interest .interested => some (.interested, none)
  | .interest .notInterested => some (.notInterested, none)
  | .have_ index => some (.have_ index, none)
  | .keepAlive => some (.keepAlive, none)
  | _ => none

/-- is the message of the request with the behaviour? -/
def waits (h : BitTorrentHandler S U E V) (requestId : RequestId) : Bool := h.substreams.any (waitsFor requestId)

/-- everything an event can do: one for a request that is not waiting is ignored, or sent on if it is a cancel -/
inductive Injected (h : BitTorrentHandler S U E V) : In U → BitTorrentHandler S U E V → Prop
  | disconnected {timeout} : Injected h (.disconnect timeout) { h with keepAlive := timeout.elim .no .until_ }
  | pushed {event msg userData} (he : event.opens = some (msg, userData)) :
      Injected h event (h.push (.outPendingOpen msg userData))
  | answered {event requestId msg pre stream post} (he : event.response = some (requestId, msg))
      (hl : h.substreams = pre ++ .inWaitingUser requestId.connecUniqueId stream :: post)
      (hfirst : ∀ s ∈ pre, waitsFor requestId s = false) :
      Injected h event { h with substreams := pre ++ post ++ [.inPendingSend requestId.connecUniqueId stream msg] }
  | discarded {event requestId pre stream post} (he : event.discards = some requestId)
      (hl : h.substreams = pre ++ .inWaitingUser requestId.connecUniqueId stream :: post) :
      Injected h event { h with substreams := pre ++ post }
  | late {event requestId} (he : event.response.map Prod.fst = some requestId ∨ event.discards = some requestId)
      (hnone : h.waits requestId = false) : Injected h event h
  | forwarded {request requestId} (hnone : h.waits requestId = false) :
      Injected h (.cancelPiece request requestId) (h.push (.outPendingOpen (.cancel request) none))

theorem waitsFor_eq_true {requestId : RequestId} {s : SubstreamState S U E V} (h : waitsFor requestId s = true) :
    ∃ stream, s = .inWaitingUser requestId.connecUniqueId stream := by
  cases s with
  | inWaitingUser id stream =>
    rw [waitsFor, decide_eq_true_eq] at h
    exact ⟨stream, by rw [h]⟩
  | _ => cases h

/-- the substream of a request, if there is one, and what is left without it -/
theorem findIdx?_waitsFor (h : BitTorrentHandler S U E V) (requestId : RequestId) :
    (h.substreams.findIdx? (waitsFor requestId) = none ∧ h.waits requestId = false) ∨
    ∃ pre stream post, h.substreams = pre ++ .inWaitingUser requestId.connecUniqueId stream :: post ∧
      (∀ s ∈ pre, waitsFor requestId s = false) ∧
      h.substreams.findIdx? (waitsFor requestId) = some pre.length := by
  cases hf : h.substreams.findIdx? (waitsFor requestId) with
  | none =>
    refine Or.inl ⟨rfl, ?_⟩
    rw [waits, List.any_eq_false]
    intro s hs
    rw [List.findIdx?_eq_none_iff.mp hf s hs]
    exact Bool.false_ne_true
  | some pos =>
    obtain ⟨hpos, hwait, hbefore⟩ := List.findIdx?_eq_some_iff_getElem.mp hf
    obtain ⟨stream, hs⟩ := waitsFor_eq_true hwait
    refine Or.inr ⟨h.substreams.take pos, stream, h.substreams.drop (pos + 1), ?_, ?_, ?_⟩
    · rw [← hs, List.cons_getElem_drop_succ, List.take_append_drop]
    · intro s hmem
      obtain ⟨j, hj, rfl⟩ := List.mem_take_iff_getElem.mp hmem
      exact Bool.eq_false_iff.mpr (hbefore j (by omega))
    · rw [List.length_take, Nat.min_eq_left (Nat.le_of_lt hpos)]

theorem eraseIdx_split {α : Type} (pre post : List α) (a : α) : (pre ++ a :: post).eraseIdx pre.length = pre ++ post := by
  rw [List.eraseIdx_append_of_length_le (Nat.le_refl _), Nat.sub_self, List.eraseIdx_cons_zero]

theorem answer_cases (h : BitTorrentHandler S U E V) {event : In U} {requestId : RequestId} {msg : PeerMessage}
    (he : event.response = some (requestId, msg)) : ∃ h', h.answer requestId msg = some h' ∧ Injected h event h' := by
  unfold answer
  rcases h.findIdx?_waitsFor requestId with ⟨hf, hnone⟩ | ⟨pre, stream, post, hl, hfirst, hf⟩
  · rw [hf]
    exact ⟨h, rfl, .late (Or.inl (by rw [he]; rfl)) hnone⟩
  · have hget : h.substreams[pre.length]? = some (.inWaitingUser requestId.connecUniqueId stream) := by
      rw [hl]
      simp
    have herase : h.substreams.eraseIdx pre.length = pre ++ post := by rw [hl, eraseIdx_split]
    rw [hf]
    simp only [hget, herase]
    exact ⟨_, rfl, .answered he hl hfirst⟩

/-- **Every event is taken**, and this is what it does. -/
theorem injectEvent_cases (h : BitTorrentHandler S U E V) (event : In U) :
    ∃ h', h.injectEvent event = some h' ∧ Injected h event h' := by
  cases event with
  | disconnect timeout =>
    cases timeout with
    | none => exact ⟨_, rfl, .disconnected⟩
    | some t => exact ⟨_, rfl, .disconnected⟩
  | reset requestId =>
    simp only [injectEvent]
    rcases h.findIdx?_waitsFor requestId with ⟨hf, hnone⟩ | ⟨pre, stream, post, hl, hfirst, hf⟩
    · rw [hf]
      exact ⟨h, rfl, .late (Or.inr rfl) hnone⟩
    · have herase : h.substreams.eraseIdx pre.length = pre ++ post := by rw [hl, eraseIdx_split]
      rw [hf]
      simp only [herase]
      exact ⟨_, rfl, .discarded rfl hl⟩
  | cancelPiece request requestId =>
    simp only [injectEvent]
    rcases h.findIdx?_waitsFor requestId with ⟨hf, hnone⟩ | ⟨pre, stream, post, hl, hfirst, hf⟩
    · rw [hf]
      exact ⟨_, rfl, .forwarded hnone⟩
    · have herase : h.substreams.eraseIdx pre.length = pre ++ post := by rw [hl, eraseIdx_split]
      rw [hf]
      simp only [herase]
      exact ⟨_, rfl, .discarded rfl hl⟩
  | handshakeRes handshake requestId => exact h.answer_cases rfl
  | bitfieldRes indexField requestId => exact h.answer_cases rfl
  | getPieceRes piece requestId => exact h.answer_cases rfl
  | choke inner => cases inner <;> exact ⟨_, rfl, .pushed rfl⟩
  | interest inner => cases inner <;> exact ⟨_, rfl, .pushed rfl⟩
  | _ => exact ⟨_, rfl, .pushed rfl⟩

/-! ## what happens to the requests of the remote -/

end BitTorrentHandler

/-- the number of a substream whose message is with the behaviour -/
def SubstreamState.waitingId : SubstreamState S U E V → Option Nat
  | .inWaitingUser id _ => some id
  | _ => none

namespace BitTorrentHandler

/-- the request an event of the handler hands on -/
def Event.requestId : Event U E V → Option RequestId
  | .handshakeReq _ requestId => some requestId
  | .bitfieldReq _ requestId => some requestId
  | .getPieceReq _ requestId => some requestId
  | .cancelPiece _ requestId => some requestId
  | _ => none

end BitTorrentHandler

/-- does the event hand on the number of a request? -/
def ProtocolsHandlerEvent.asks : ProtocolsHandlerEvent U E V → Bool
  | .outboundSubstreamRequest _ => false
  | .custom event => event.requestId.isSome

/-- what a call does to the requests of the remote -/
inductive Deed where
  | delivered (id : Nat) (asks : Bool)
  | answered (id : Nat)
  | discarded (id : Nat)
deriving DecidableEq

namespace BitTorrentHandler

/-- the numbers of the inbound substreams -/
def ids (h : BitTorrentHandler S U E V) : List Nat := h.substreams.filterMap SubstreamState.inId

/-- the numbers of those whose message is with the behaviour -/
def waiting (h : BitTorrentHandler S U E V) : List Nat := h.substreams.filterMap SubstreamState.waitingId

def In.deed (h : BitTorrentHandler S U E V) (event : In U) : Option Deed :=
  if event.response.any fun r => h.waits r.1 then event.response.map fun r => .answered r.1.connecUniqueId
  else if event.discards.any h.waits then event.discards.map fun r => .discarded r.connecUniqueId
  else none

/-- the deed of a report: a message that was delivered -/
def Report.deed (report : Report S U E V) : Option Deed :=
  report.source.inId.map fun id => .delivered id report.event.asks

def deed (io : BttStream S E) (h : BitTorrentHandler S U E V) : BitTorrentHandlerOp S U V → Option Deed
  | .injectEvent event => event.deed h
  | .poll clock => (scan io clock 0 h.substreams).bind fun r => r.1.bind Report.deed
  | _ => none

/-- what a deed means for the numbers of the inbound substreams -/
inductive Does (h h' : BitTorrentHandler S U E V) : Option Deed → Prop
  | nothing (hids : h'.ids.Subperm h.ids) (hwait : h'.waiting.Perm h.waiting) : Does h h' none
  | delivers {id asks} (hid : (id :: h.waiting).Subperm h.ids) (hids : h'.ids.Subperm h.ids)
      (hwait : h'.waiting.Perm (id :: h.waiting)) : Does h h' (some (.delivered id asks))
  | answers {id} (hids : h'.ids.Subperm h.ids) (hwait : h.waiting.Perm (id :: h'.waiting)) :
      Does h h' (some (.answered id))
  | discards {id} (hids : h'.ids.Subperm h.ids) (hwait : h.waiting.Perm (id :: h'.waiting)) :
      Does h h' (some (.discarded id))

section
variable {io : BttStream S E} {h h' : BitTorrentHandler S U E V}

theorem waitingId_eq (s : SubstreamState S U E V) : s.waitingId = if s.isWaitingUser then s.inId else none := by
  cases s <;> rfl

theorem waitingId_of_not_waiting {s : SubstreamState S U E V} (h : s.isWaitingUser = false) : s.waitingId = none := by
  rw [waitingId_eq, h]
  rfl

theorem waitingId_of_inId_none {s : SubstreamState S U E V} (h : s.inId = none) : s.waitingId = none := by
  rw [waitingId_eq, h, ite_self]

/-- the waiting substreams are among the inbound ones -/
theorem waiting_sublist (l : List (SubstreamState S U E V)) :
    (l.filterMap SubstreamState.waitingId).Sublist (l.filterMap SubstreamState.inId) := by
  induction l with
  | nil => exact List.Sublist.refl _
  | cons s l ih =>
    rw [List.filterMap_cons, List.filterMap_cons, waitingId_eq]
    cases hw : s.isWaitingUser with
    | true =>
      cases hid : s.inId with
      | none => exact ih
      | some id => exact ih.cons_cons id
    | false =>
      cases hid : s.inId with
      | none => exact ih
      | some id => exact ih.cons id

/-- a substream keeps its number as long as it is there -/
theorem inId_settle {now : Instant} {s : SubstreamState S U E V} {s' : Option (SubstreamState S U E V)}
    {event : Option (ProtocolsHandlerEvent U E V)} (h : settle io now s = some (s', event)) :
    (s'.toList.flatMap fun s => s.inId.toList).Sublist s.inId.toList := by
  obtain ⟨msg, -, hs⟩ := settle_cases h
  cases hs with
  | stays hc => simp [hc.inId]
  | delivered hid hwait hevent =>
    rw [hid]
    exact List.Sublist.refl _
  | answered hid hdata hevent => simp [SubstreamState.inId]
  | _ => exact List.nil_sublist _

/-- a quiet substream goes on waiting -/
theorem waitingId_quiet {now : Instant} {s : SubstreamState S U E V} {s' : Option (SubstreamState S U E V)}
    (h : settle io now s = some (s', none)) :
    (s'.toList.flatMap fun s => s.waitingId.toList) = s.waitingId.toList := by
  generalize hev : (none : Option (ProtocolsHandlerEvent U E V)) = event at h
  obtain ⟨msg, -, hs⟩ := settle_cases h
  cases hs with
  | stays hc => simp [waitingId_eq, hc.inId, hc.waiting]
  | closes hdata hwait => simp [waitingId_of_not_waiting hwait]
  | _ => cases hev

/-- one that reports was not waiting, and is then if it is inbound -/
theorem waitingId_loud {now : Instant} {s : SubstreamState S U E V} {s' : Option (SubstreamState S U E V)}
    {event : ProtocolsHandlerEvent U E V} (h : settle io now s = some (s', some event)) :
    s.waitingId = none ∧ (s'.toList.flatMap fun s => s.waitingId.toList) = s.inId.toList := by
  generalize hev : some event = event' at h
  obtain ⟨msg, -, hs⟩ := settle_cases h
  cases hs with
  | stays hc => cases hev
  | closes hdata hwait => cases hev
  | opens => exact ⟨rfl, rfl⟩
  | fails hid hdata => exact ⟨waitingId_of_inId_none hid, by rw [hid]; rfl⟩
  | answered hid hdata hevent => exact ⟨waitingId_of_inId_none hid, by rw [hid]; rfl⟩
  | delivered hid hwait hevent => exact ⟨waitingId_of_not_waiting hwait, by rw [hid]; rfl⟩

/-! ### polls -/

theorem scan_ids {clock : Nat → Instant} {k : Nat} {l l' : List (SubstreamState S U E V)} {r : Option (Report S U E V)}
    (h : scan io clock k l = some (r, l')) :
    (l'.filterMap SubstreamState.inId).Sublist (l.filterMap SubstreamState.inId) := by
  rw [List.filterMap_eq_flatMap_toList, List.filterMap_eq_flatMap_toList]
  exact scan_sublist (fun now s s' event hs => inId_settle hs) h

theorem scan_waiting {clock : Nat → Instant} {k : Nat} {l l' : List (SubstreamState S U E V)}
    {r : Option (Report S U E V)} (h : scan io clock k l = some (r, l')) :
    (l'.filterMap SubstreamState.waitingId).Perm
      (r.elim [] (fun report => report.source.inId.toList) ++ l.filterMap SubstreamState.waitingId) := by
  have hcons := scan_conserves (f := fun s => s.waitingId.toList) (i := fun report => report.source.inId.toList)
    (o := fun _ => []) (fun now s s' hs => waitingId_quiet hs) ?_ h
  · rw [List.filterMap_eq_flatMap_toList, List.filterMap_eq_flatMap_toList]
    refine List.Perm.trans ?_ (hcons.symm.trans List.perm_append_comm)
    cases r <;> simp
  · intro now s s' event hs
    obtain ⟨hnone, hsome⟩ := waitingId_loud hs
    rw [hnone, hsome]
    simp

theorem does_poll {clock : Nat → Instant} {event : Option (ProtocolsHandlerEvent U E V)}
    (hpoll : h.poll io clock = some (event, h')) : Does h h' (h.deed io (.poll clock)) := by
  obtain ⟨r, l, l', hscan, hperm, -, rfl⟩ := poll_some hpoll
  have hids : (l'.filterMap SubstreamState.inId).Subperm h.ids :=
    (hperm.filterMap _).subperm.trans (scan_ids hscan).subperm
  have hwait := (hperm.filterMap SubstreamState.waitingId).trans (scan_waiting hscan)
  show Does h _ ((scan io clock 0 h.substreams).bind fun r => r.1.bind Report.deed)
  rw [hscan, Option.bind_some]
  cases r with
  | none => exact .nothing hids hwait
  | some report =>
    rw [Option.elim_some] at hwait
    rw [Option.bind_some, Report.deed]
    cases hid : report.source.inId with
    | none =>
      rw [hid] at hwait
      exact .nothing hids hwait
    | some id =>
      rw [hid] at hwait
      refine .delivers ?_ hids hwait
      obtain ⟨pre, post, rest, hl, -, hs, -⟩ := scan_report hscan
      have hnone := (waitingId_loud hs).1
      have hw : h.waiting = pre.filterMap SubstreamState.waitingId ++ post.filterMap SubstreamState.waitingId := by
        rw [waiting, hl, List.filterMap_append, List.filterMap_cons_none hnone]
      have hi : h.ids = pre.filterMap SubstreamState.inId ++ id :: post.filterMap SubstreamState.inId := by
        rw [ids, hl, List.filterMap_append, List.filterMap_cons_some hid]
      rw [hw, hi]
      exact (List.perm_middle.symm.subperm).trans
        ((waiting_sublist pre).append ((waiting_sublist post).cons_cons id)).subperm

/-! ### events -/

theorem deed_of_late {event : In U} {requestId : RequestId} (hnone : h.waits requestId = false)
    (he : event.response.map Prod.fst = some requestId ∨ event.discards = some requestId) : event.deed h = none := by
  cases event <;> simp_all [In.deed, In.response, In.discards]

theorem waits_of_mem {requestId : RequestId} {pre post : List (SubstreamState S U E V)} {stream : S}
    (hl : h.substreams = pre ++ .inWaitingUser requestId.connecUniqueId stream :: post) : h.waits requestId = true := by
  rw [waits, List.any_eq_true]
  refine ⟨.inWaitingUser requestId.connecUniqueId stream, ?_, ?_⟩
  · rw [hl]
    exact List.mem_append_right _ List.mem_cons_self
  · exact decide_eq_true rfl

/-- a substream that is not inbound changes nothing -/
theorem does_push (h : BitTorrentHandler S U E V) {s : SubstreamState S U E V} (hid : s.inId = none) :
    Does h (h.push s) none := by
  refine .nothing ?_ ?_
  · show ((h.substreams ++ [s]).filterMap _).Subperm _
    rw [List.filterMap_append, List.filterMap_cons_none hid, List.filterMap_nil, List.append_nil]
    exact List.Subperm.refl _
  · show ((h.substreams ++ [s]).filterMap _).Perm _
    rw [List.filterMap_append, List.filterMap_cons_none (waitingId_of_inId_none hid), List.filterMap_nil, List.append_nil]
    exact List.Perm.refl _

theorem does_injected {event : In U} (hin : Injected h event h') : Does h h' (event.deed h) := by
  -- the substream of the request in question among the others
  have hsplit : ∀ {id pre stream post}, h.substreams = pre ++ .inWaitingUser id stream :: post →
      h.ids = pre.filterMap SubstreamState.inId ++ id :: post.filterMap SubstreamState.inId ∧
      h.waiting.Perm (id :: (pre ++ post).filterMap SubstreamState.waitingId) := by
    intro id pre stream post hl
    rw [ids, waiting, hl]
    simp only [List.filterMap_append]
    exact ⟨rfl, List.perm_middle⟩
  cases hin with
  | disconnected => exact .nothing (List.Subperm.refl _) (List.Perm.refl _)
  | @pushed _ msg userData he =>
    have hnone : event.deed h = none := by
      cases event <;> first | rfl | cases he
    rw [hnone]
    exact does_push h rfl
  | @answered _ requestId msg pre stream post he hl hfirst =>
    have hdeed : event.deed h = some (.answered requestId.connecUniqueId) := by
      simp [In.deed, he, waits_of_mem hl]
    obtain ⟨hids, hwait⟩ := hsplit hl
    rw [hdeed]
    refine .answers ?_ ?_
    · show ((pre ++ post ++ [_]).filterMap SubstreamState.inId).Subperm _
      rw [hids, List.filterMap_append, List.filterMap_append]
      refine List.Perm.subperm ?_
      exact (List.perm_append_singleton _ _).trans List.perm_middle.symm
    · show h.waiting.Perm (_ :: (pre ++ post ++ [_]).filterMap SubstreamState.waitingId)
      rw [List.filterMap_append, List.filterMap_cons_none rfl, List.filterMap_nil, List.append_nil]
      exact hwait
  | @discarded _ requestId pre stream post he hl =>
    have hdeed : event.deed h = some (.discarded requestId.connecUniqueId) := by
      have hresponse : event.response = none := by
        cases event <;> first | rfl | cases he
      simp [In.deed, hresponse, he, waits_of_mem hl]
    obtain ⟨hids, hwait⟩ := hsplit hl
    rw [hdeed]
    refine .discards ?_ hwait
    show ((pre ++ post).filterMap SubstreamState.inId).Subperm _
    rw [hids, List.filterMap_append]
    exact ((List.sublist_cons_self _ _).append_left _).subperm
  | late he hnone =>
    rw [deed_of_late hnone he]
    exact .nothing (List.Subperm.refl _) (List.Perm.refl _)
  | @forwarded request requestId hnone =>
    rw [deed_of_late hnone (Or.inr rfl)]
    exact does_push h rfl

/-! ### calls -/

/-- **What a call does**, unless it brings a new inbound substream. -/
theorem call_does {op : BitTorrentHandlerOp S U V} {event : Option (ProtocolsHandlerEvent U E V)}
    (hop : ∀ stream, op ≠ .injectFullyNegotiatedInbound stream) (hcall : h.call io op = some (event, h')) :
    Does h h' (h.deed io op) ∧ h'.nextConnecUniqueId = h.nextConnecUniqueId := by
  cases op with
  | injectFullyNegotiatedInbound stream => exact (hop stream rfl).elim
  | injectFullyNegotiatedOutbound stream info =>
    cases hcall
    exact ⟨does_push h rfl, rfl⟩
  | injectDialUpgradeError info error =>
    cases hcall
    unfold injectDialUpgradeError
    split
    · exact ⟨does_push h rfl, rfl⟩
    · exact ⟨.nothing (List.Subperm.refl _) (List.Perm.refl _), rfl⟩
  | injectEvent event =>
    obtain ⟨h1, hev, hin⟩ := h.injectEvent_cases event
    rw [call, hev] at hcall
    cases hcall
    exact ⟨does_injected hin, by cases hin <;> rfl⟩
  | poll clock =>
    refine ⟨does_poll hcall, ?_⟩
    obtain ⟨r, l, l', -, -, -, rfl⟩ := poll_some hcall
    rfl

/-! ### runs -/

/-- the deeds of a run -/
def deeds (io : BttStream S E) (s : Option (BitTorrentHandler S U E V)) (ops : List (BitTorrentHandlerOp S U V)) :
    List Deed :=
  outputs (next io) (fun s op => s.bind fun h => h.deed io op) s ops

/-- an invariant over the calls, the deeds and the handler holds along every run that does not panic -/
theorem run_inv {I : List (BitTorrentHandlerOp S U V) → List Deed → BitTorrentHandler S U E V → Prop}
    (hstep : ∀ ops log h op event h', I ops log h → h.call io op = some (event, h') →
      I (ops ++ [op]) (log ++ (h.deed io op).toList) h')
    (h0 : I [] [] h) {ops : List (BitTorrentHandlerOp S U V)} (hrun : exec (next io) (some h) ops = some h') :
    I ops (deeds io (some h) ops) h' := by
  induction ops using List.reverseRecOn generalizing h' with
  | nil =>
    cases hrun
    exact h0
  | append_singleton ops op ih =>
    rw [exec_snoc] at hrun
    obtain ⟨h1, h1run, hnext⟩ := Option.bind_eq_some_iff.mp hrun
    obtain ⟨⟨event, h2⟩, hcall, rfl⟩ := Option.map_eq_some_iff.mp hnext
    rw [deeds, outputs_snoc, h1run]
    exact hstep _ _ h1 op event h2 (ih h1run) hcall

end

/-! ## a small instance, for concrete runs -/

/-- a stream on which everything succeeds at once; what the remote sends is written down -/
def scripted : BttStream (List PeerMessage) Unit where
  pollReady s := (.ready (.ok ()), s)
  startSend s _ := (.ok (), s)
  pollFlush s := (.ready (.ok ()), s)
  pollNext s := (s.head?.elim .pending fun msg => .ready (some (.ok msg)), s.tail)
  pollClose s := (.ready (.ok ()), s)
  unexpectedEof := ()

/-- all clocks show 0 -/
def pollNow {S U V : Type} : BitTorrentHandlerOp S U V := .poll fun _ => 0

end BitTorrentHandler

end Btt
