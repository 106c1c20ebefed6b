import BitTorrent.Handler.Link

/-!
# Every request has one outcome

The data of a request is in one place at a time: in a substream of the handler, with the swarm, or in the event that
reports the outcome.

* `Link.data`        the data in the first two places;
* `data_call`        a call moves data between these places, and only a request brings new data;
* `data_run`         along a run: the data of the requests is the data that is left and the data reported;
* `one_outcome`      with the data marked, every request was reported once or is still open, and never both.
-/

namespace Btt
open Run

variable {S U W E V : Type}

namespace BitTorrentHandler

/-- the data an event reports about -/
def Event.userData : Event U E V → Option U
  | .handshakeRes _ userData => some userData
  | .bitfieldRes _ userData => some userData
  | .getPieceRes _ userData => some userData
  | .torrentErr _ userData => userData
  | _ => none

end BitTorrentHandler

def ProtocolsHandlerEvent.userData : ProtocolsHandlerEvent U E V → Option U
  | .outboundSubstreamRequest _ => none
  | .custom event => event.userData

/-- the data of the request that a call makes -/
def LinkOp.userData : LinkOp S U V → Option U
  | .injectEvent event => event.opens.bind Prod.snd
  | _ => none

open BitTorrentHandler

namespace Link

/-- the data of the requests that are open: with the handler, and with the swarm -/
def data (l : Link S U E V) : List U :=
  l.handler.substreams.filterMap SubstreamState.userData ++ l.opening.filterMap Prod.snd

section
variable {io : BttStream S E} {l l' : Link S U E V}

/-- data that leaves a substream is reported, or goes to the swarm -/
theorem userData_loud {now : Instant} {s : SubstreamState S U E V} {s' : Option (SubstreamState S U E V)}
    {event : ProtocolsHandlerEvent U E V} (h : settle io now s = some (s', some event)) :
    s'.toList.flatMap (fun s => s.userData.toList) = [] ∧
      s.userData.toList = (event.opened.bind Prod.snd).toList ++ event.userData.toList := by
  obtain ⟨msg, -, hs⟩ := settle_cases h
  generalize hev : some event = event' at hs
  cases hs with
  | stays hc => cases hev
  | closes hdata hwait => cases hev
  | opens =>
    cases hev
    exact ⟨rfl, (List.append_nil _).symm⟩
  | fails hid hdata =>
    cases hev
    rw [hdata]
    exact ⟨rfl, rfl⟩
  | @answered _ u msg ev stream hid hdata hevent =>
    cases hev
    have hu : ev.userData = some u := by
      cases msg <;> cases hevent <;> rfl
    rw [hdata, ProtocolsHandlerEvent.userData, hu]
    exact ⟨rfl, rfl⟩
  | @delivered _ id msg ev stream hid hwait hevent =>
    cases hev
    have hu : ev.userData = none := by
      cases msg <;> cases hevent <;> rfl
    rw [SubstreamState.userData_of_inId hid, ProtocolsHandlerEvent.userData, hu]
    exact ⟨rfl, rfl⟩

theorem userData_quiet {now : Instant} {s : SubstreamState S U E V} {s' : Option (SubstreamState S U E V)}
    (h : settle io now s = some (s', none)) :
    s'.toList.flatMap (fun s => s.userData.toList) = s.userData.toList := by
  obtain ⟨msg, -, hs⟩ := settle_cases h
  generalize hev : (none : Option (ProtocolsHandlerEvent U E V)) = event at hs
  cases hs with
  | stays hc => simp [hc.userData]
  | closes hdata hwait =>
    rw [hdata]
    rfl
  | _ => cases hev

/-- what the substreams lose in a poll -/
theorem userData_scan {clock : Nat → Instant} {k : Nat} {ss ss' : List (SubstreamState S U E V)}
    {r : Option (Report S U E V)} (h : scan io clock k ss = some (r, ss')) :
    (ss.filterMap SubstreamState.userData).Perm (ss'.filterMap SubstreamState.userData ++
      (((r.map Report.event).bind ProtocolsHandlerEvent.opened).bind Prod.snd).toList ++
      ((r.map Report.event).bind ProtocolsHandlerEvent.userData).toList) := by
  have hcons := scan_conserves (f := fun s => s.userData.toList) (i := fun _ => [])
    (o := fun report => (report.event.opened.bind Prod.snd).toList ++ report.event.userData.toList)
    (fun now s s' hs => userData_quiet hs) ?_ h
  · rw [List.filterMap_eq_flatMap_toList, List.filterMap_eq_flatMap_toList, List.append_assoc]
    cases r with
    | none => simpa using hcons
    | some report => simpa using hcons
  · intro now s s' event hs
    obtain ⟨hnone, hdata⟩ := userData_loud hs
    rw [hnone, hdata, List.append_nil, List.nil_append]

theorem data_poll {clock : Nat → Instant} {event : Option (ProtocolsHandlerEvent U E V)} {h' : BitTorrentHandler S U E V}
    (hpoll : l.handler.poll io clock = some (event, h')) :
    l.data.Perm ((⟨h', l.opening ++ (event.bind ProtocolsHandlerEvent.opened).toList⟩ : Link S U E V).data ++
      (event.bind ProtocolsHandlerEvent.userData).toList) := by
  obtain ⟨r, rest, rest', hscan, hperm, rfl, rfl⟩ := poll_some hpoll
  have hlost := (userData_scan hscan).trans
    (((hperm.symm.filterMap SubstreamState.userData).append_right _).append_right _)
  rw [data, data, List.filterMap_append, Option.filterMap_toList]
  refine (hlost.append_right _).trans ?_
  -- what goes to the swarm changes places with what is there
  rw [List.append_assoc, List.append_assoc, List.append_assoc, List.append_assoc]
  refine List.Perm.append_left _ ?_
  rw [← List.append_assoc]
  exact List.perm_append_comm

/-- a substream that waits for the user, or sends an answer, has no data -/
theorem data_injected {event : In U} {h' : BitTorrentHandler S U E V} (hin : Injected l.handler event h') :
    ((event.opens.bind Prod.snd).toList ++ l.data).Perm ({ l with handler := h' } : Link S U E V).data := by
  have hpush : ∀ msg userData, (⟨l.handler.push (.outPendingOpen msg userData), l.opening⟩ : Link S U E V).data
      = l.handler.substreams.filterMap SubstreamState.userData ++ userData.toList ++ l.opening.filterMap Prod.snd := by
    intro msg userData
    show (l.handler.substreams ++ [_]).filterMap _ ++ _ = _
    rw [List.filterMap_append]
    cases userData <;> rfl
  cases hin with
  | disconnected => exact List.Perm.refl _
  | @pushed _ msg userData he =>
    rw [he, hpush, data, Option.bind_some, ← List.append_assoc]
    exact List.perm_append_comm.append_right _
  | answered he hl hfirst =>
    have hopens : event.opens = none := by
      cases event <;> first | rfl | cases he
    rw [hopens, data, data, hl]
    simp only [List.filterMap_append, List.append_assoc]
    exact List.Perm.refl _
  | discarded he hl =>
    have hopens : event.opens = none := by
      cases event <;> first | rfl | cases he
    rw [hopens, data, data, hl]
    simp only [List.filterMap_append, List.append_assoc]
    exact List.Perm.refl _
  | late he hnone =>
    have hopens : event.opens = none := by
      cases event <;> first | rfl | (rcases he with he | he <;> cases he)
    rw [hopens]
    exact List.Perm.refl _
  | forwarded hnone =>
    rw [hpush, data, Option.toList_none, List.append_nil]
    exact List.Perm.refl _

/-- the swarm hands back the data of one request -/
theorem data_resolve (l : Link S U E V) (i : Nat)
    {back : BitTorrentHandler S U E V → PeerMessage × Option U → BitTorrentHandler S U E V}
    (hback : ∀ h info, (back h info).substreams.filterMap SubstreamState.userData
      = h.substreams.filterMap SubstreamState.userData ++ info.2.toList) : l.data.Perm (l.resolve i back).data := by
  unfold resolve
  cases hget : l.opening[i]? with
  | none => exact List.Perm.refl _
  | some info =>
    obtain ⟨hi, rfl⟩ := List.getElem?_eq_some_iff.mp hget
    have hperm : (l.opening.filterMap Prod.snd).Perm (l.opening[i].2.toList ++ (l.opening.eraseIdx i).filterMap Prod.snd) := by
      refine ((List.getElem_cons_eraseIdx_perm hi).symm.filterMap Prod.snd).trans ?_
      rw [← List.singleton_append, List.filterMap_append, ← Option.toList_some, Option.filterMap_toList, Option.bind_some]
    show l.data.Perm ((back l.handler l.opening[i]).substreams.filterMap _ ++ _)
    rw [data, hback, List.append_assoc]
    exact hperm.append_left _

/-- **A call moves data, and only a request brings new data.** -/
theorem data_call {op : LinkOp S U V} {event : Option (ProtocolsHandlerEvent U E V)}
    (hcall : l.call io op = some (event, l')) :
    (op.userData.toList ++ l.data).Perm (l'.data ++ (event.bind ProtocolsHandlerEvent.userData).toList) := by
  cases op with
  | inbound stream =>
    cases hcall
    rw [Option.bind_none, Option.toList_none, List.append_nil]
    show l.data.Perm ((l.handler.substreams ++ [_]).filterMap _ ++ _)
    rw [List.filterMap_append, List.filterMap_cons_none rfl, List.filterMap_nil, List.append_nil]
    exact List.Perm.refl _
  | negotiated i stream =>
    cases hcall
    rw [Option.bind_none, Option.toList_none, List.append_nil]
    refine data_resolve l i ?_
    rintro h ⟨msg, userData⟩
    show (h.substreams ++ [_]).filterMap _ = _
    rw [List.filterMap_append]
    cases userData <;> rfl
  | dialError i error =>
    cases hcall
    rw [Option.bind_none, Option.toList_none, List.append_nil]
    refine data_resolve l i ?_
    rintro h ⟨msg, _ | u⟩
    · exact (List.append_nil _).symm
    · show (h.substreams ++ [_]).filterMap _ = _
      rw [List.filterMap_append]
      rfl
  | injectEvent event =>
    obtain ⟨h', hev, hin⟩ := l.handler.injectEvent_cases event
    rw [call, hev] at hcall
    cases hcall
    rw [Option.bind_none, Option.toList_none, List.append_nil]
    exact data_injected hin
  | poll clock =>
    obtain ⟨⟨ev, h'⟩, hpoll, heq⟩ := Option.map_eq_some_iff.mp hcall
    cases heq
    exact data_poll hpoll

/-- **Along a run** the data of the requests is the data of those that are open and the data reported. -/
theorem data_run {ops : List (LinkOp S U V)} (hrun : exec (next io) (some new) ops = some l) :
    (ops.filterMap LinkOp.userData).Perm
      (l.data ++ (reports io (some (new : Link S U E V)) ops).filterMap ProtocolsHandlerEvent.userData) := by
  induction ops using List.reverseRecOn generalizing l with
  | nil =>
    cases hrun
    exact List.Perm.refl _
  | append_singleton ops op ih =>
    rw [exec_snoc] at hrun
    obtain ⟨l1, h1run, hnext⟩ := Option.bind_eq_some_iff.mp hrun
    obtain ⟨⟨event, l2⟩, hcall, rfl⟩ := Option.map_eq_some_iff.mp hnext
    have hreport : report io (exec (next io) (some new) ops) op = event := by
      rw [h1run, report, Option.bind_some, hcall, Option.bind_some]
    have hlast : [op].filterMap LinkOp.userData = op.userData.toList := Option.filterMap_toList _ (some op)
    rw [List.filterMap_append, hlast, reports, outputs_snoc, hreport, List.filterMap_append, Option.filterMap_toList,
      ← List.append_assoc]
    have hswap : ∀ a b c : List U, (a ++ b ++ c).Perm (a ++ c ++ b) := by
      intro a b c
      rw [List.append_assoc, List.append_assoc]
      exact List.perm_append_comm.append_left a
    refine ((ih h1run).append_right _).trans ((hswap _ _ _).trans ?_)
    refine List.Perm.trans ?_ (hswap _ _ _)
    exact (List.perm_append_comm.trans (data_call hcall)).append_right _

/-! ## marked requests -/

theorem userData_mark (op : LinkOp S U V) (n : Nat) :
    (op.map fun u => (u, n)).userData = op.userData.map fun u => (u, n) := by
  cases op with
  | injectEvent event =>
    cases event with
    | choke inner => cases inner <;> rfl
    | interest inner => cases inner <;> rfl
    | _ => rfl
  | _ => rfl

/-- there is one datum for a call that makes a request, and none for the others -/
theorem countP_marked (ops : List (LinkOp S U V)) (n : Nat) :
    ((marked ops).filterMap LinkOp.userData).countP (fun x => x.2 = n)
      = if (ops[n]?.bind LinkOp.userData).isSome then 1 else 0 := by
  induction ops using List.reverseRecOn with
  | nil => rfl
  | append_singleton ops op ih =>
    have hlast : [op.map fun u => (u, ops.length)].filterMap LinkOp.userData
        = (op.userData.map fun u => (u, ops.length)).toList := by
      rw [← userData_mark]
      exact Option.filterMap_toList _ (some _)
    rw [marked_snoc, List.filterMap_append, List.countP_append, ih, hlast]
    rcases Nat.lt_trichotomy n ops.length with hlt | rfl | hgt
    · rw [List.getElem?_append_left hlt]
      cases op.userData with
      | none => simp
      | some u => simp [Nat.ne_of_gt hlt]
    · rw [List.getElem?_eq_none (Nat.le_refl _), List.getElem?_concat_length]
      cases hu : op.userData with
      | none => simp [hu]
      | some u => simp [hu]
    · rw [List.getElem?_eq_none (Nat.le_of_lt hgt), List.getElem?_eq_none (by rw [List.length_append]; exact hgt)]
      cases op.userData with
      | none => simp
      | some u => simp [Nat.ne_of_lt hgt]

theorem mem_marked {ops : List (LinkOp S U V)} {x : U × Nat} (hx : x ∈ (marked ops).filterMap LinkOp.userData) :
    ops[x.2]?.bind LinkOp.userData = some x.1 := by
  obtain ⟨op', hop', hdata⟩ := List.mem_filterMap.mp hx
  obtain ⟨n, hn, rfl⟩ := List.mem_mapIdx.mp hop'
  rw [userData_mark] at hdata
  obtain ⟨u, hu, rfl⟩ := Option.map_eq_some_iff.mp hdata
  rw [List.getElem?_eq_getElem hn, Option.bind_some]
  exact hu

/-- every request was reported once, or it is open once; and all that is reported or open is of a request -/
structure OneOutcome (ops : List (LinkOp S U V)) (reported left : List (U × Nat)) : Prop where
  one : ∀ n u, ops[n]?.bind LinkOp.userData = some u →
    reported.countP (fun x => x.2 = n) + left.countP (fun x => x.2 = n) = 1
  own : ∀ x ∈ reported ++ left, ops[x.2]?.bind LinkOp.userData = some x.1

/-- an event without data is a message of the remote -/
theorem deed_of_no_data {h h' : BitTorrentHandler S U E V} {clock : Nat → Instant} {event : Event U E V}
    (hpoll : h.poll io clock = some (some (.custom event), h')) (hdata : event.userData = none) :
    ∃ id asks, h.deed io (.poll clock) = some (.delivered id asks) := by
  obtain ⟨r, rest, rest', hscan, -, hev, -⟩ := poll_some hpoll
  cases r with
  | none => cases hev
  | some report =>
    have hevent : report.event = .custom event := (Option.some.inj hev).symm
    obtain ⟨pre, post, rest, -, -, hs, -⟩ := scan_report hscan
    obtain ⟨hnone, hsome⟩ := waitingId_loud hs
    obtain ⟨msg, -, hs⟩ := settle_cases hs
    show ∃ id asks, (scan io clock 0 h.substreams).bind _ = _
    rw [hscan, Option.bind_some, Option.bind_some, Report.deed]
    rw [hevent] at hs
    generalize report.source = s, report.left = s' at hs hnone hsome
    cases hs with
    | fails hid hdata' => cases hdata
    | @answered _ u msg ev stream hid hdata' hout =>
      have hu : event.userData = some u := by
        cases msg <;> cases hout <;> rfl
      cases hu.symm.trans hdata
    | delivered hid hwait hin =>
      rw [hid]
      exact ⟨_, _, rfl⟩

end

/-- **Every request has exactly one outcome.**  Take any run of a handler and its swarm, and mark the data of every
request with the number of the call that made it.  This changes nothing in what happens; and for every request there is
one event that reports its outcome and the request is no longer open, or it is open and there is none.  What is sent
without data is never reported: an event without data is a message of the remote. -/
theorem one_outcome (io : BttStream S E) (ops : List (LinkOp S U V)) (l : Link S U E V)
    (hrun : exec (next io) (some new) ops = some l) :
    (∃ m : Link S (U × Nat) E V, exec (next io) (some new) (marked ops) = some m ∧ m.map Prod.fst = l ∧
      (reports io (some (new : Link S (U × Nat) E V)) (marked ops)).map (ProtocolsHandlerEvent.map Prod.fst)
        = reports io (some (new : Link S U E V)) ops ∧
      OneOutcome ops ((reports io (some (new : Link S (U × Nat) E V)) (marked ops)).filterMap ProtocolsHandlerEvent.userData)
        m.data) ∧
    ∀ (h h' : BitTorrentHandler S U E V) (clock : Nat → Instant) (event : Event U E V),
      h.poll io clock = some (some (.custom event), h') → event.userData = none →
      ∃ id asks, h.deed io (.poll clock) = some (.delivered id asks) := by
  refine ⟨?_, fun h h' clock event => deed_of_no_data⟩
  obtain ⟨hexec, hreports⟩ := exec_marked (E := E) io ops
  rw [hrun] at hexec
  obtain ⟨m, hm, hmap⟩ := Option.map_eq_some_iff.mp hexec
  have hperm := data_run hm
  refine ⟨m, hm, hmap, hreports, ?_, ?_⟩
  · intro n u hu
    have hcount := countP_marked ops n
    rw [hperm.countP_eq, List.countP_append, hu] at hcount
    rw [Nat.add_comm]
    exact hcount
  · intro x hx
    exact mem_marked (hperm.mem_iff.mpr (List.perm_append_comm.mem_iff.mp hx))

/-- a handshake that is answered, and one whose dial fails -/
def twoHandshakes : List (LinkOp (List PeerMessage) Bool Unit) :=
  [.injectEvent (.handshakeReq (.new (.replicate 1) (.replicate 2)) true), .poll fun _ => 0,
    .injectEvent (.handshakeReq (.new (.replicate 1) (.replicate 2)) true), .poll fun _ => 0,
    .negotiated 0 [.handshake (.new (.replicate 1) (.replicate 3))], .dialError 0 (), .poll fun _ => 0, .poll fun _ => 0]

theorem one_outcome_two_handshakes :
    ∃ l : Link (List PeerMessage) Bool Unit Unit, exec (next scripted) (some new) twoHandshakes = some l ∧ l.data = [] ∧
      ∃ reported : List (Bool × Nat), OneOutcome twoHandshakes reported [] := by
  refine ⟨_, rfl, rfl, ?_⟩
  obtain ⟨m, hm, -, -, hone⟩ := (one_outcome scripted twoHandshakes _ rfl).1
  have hnil : m.data = [] := by
    cases hm
    rfl
  rw [hnil] at hone
  exact ⟨_, hone⟩

end Link

end Btt
