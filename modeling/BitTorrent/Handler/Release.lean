import BitTorrent.Handler.Answers

/-!
# Inbound substreams that need no answer

After a message of the remote was handed on, its substream waits for the user, whatever the message was.  Only some
messages are handed on with the number of the request, so that the user can answer or reset it.

* `Released log h`    for every number, the substreams that wait and the requests that were answered or thrown away are
                      no more than the requests that were handed on;
* `count_deeds`       with all messages in place of the requests, the two are equal;
* `released_iff`      along a run nothing waits in vain exactly if the remote sends only requests.
-/

namespace Btt
open Run

variable {S U E V : Type}

/-- the messages that are handed on with the number of their substream -/
def PeerMessage.asks : PeerMessage → Bool
  | .handshake _ => true
  | .bitfield _ => true
  | .request _ => true
  | .cancel _ => true
  | _ => false

namespace BitTorrentHandler

/-- the requests of the substream `id` that were answered or thrown away -/
def settled (log : List Deed) (id : Nat) : Nat := log.count (.answered id) + log.count (.discarded id)

/-- every substream that waits for the user has handed on a request that was not answered or thrown away yet -/
def Released (log : List Deed) (h : BitTorrentHandler S U E V) : Prop :=
  ∀ id, h.waiting.count id + settled log id ≤ log.count (.delivered id true)

/-- messages read from inbound substreams are requests -/
def Asking (io : BttStream S E) (s : Option (BitTorrentHandler S U E V)) (op : BitTorrentHandlerOp S U V) : Prop :=
  ∀ h clock report l id msg, s = some h → op = .poll clock →
    scan io clock 0 h.substreams = some (some report, l) → report.source.inId = some id →
    hears io report.now report.source = some msg → msg.asks = true

section
variable {io : BttStream S E} {h h' : BitTorrentHandler S U E V}

theorem asks_processBttIn {now : Instant} {msg : PeerMessage} {id : Nat} {event : Event U E V}
    (h : processBttIn now msg id = some event) : (ProtocolsHandlerEvent.custom event).asks = msg.asks := by
  cases msg <;> cases h <;> rfl

/-- what an inbound substream reports is the message it read -/
theorem hears_report {now : Instant} {s : SubstreamState S U E V} {s' : Option (SubstreamState S U E V)}
    {event : ProtocolsHandlerEvent U E V} {id : Nat} (h : settle io now s = some (s', some event))
    (hid : s.inId = some id) :
    ∃ msg ev, hears io now s = some msg ∧ event = .custom ev ∧ processBttIn now msg id = some ev := by
  obtain ⟨heard, hheard, hs⟩ := settle_cases h
  generalize hev : some event = event' at hs
  cases hs with
  | stays hc => cases hev
  | closes hdata hwait => cases hev
  | opens => cases hid
  | fails hnone hdata => cases hnone.symm.trans hid
  | answered hnone hdata hevent => cases hnone.symm.trans hid
  | delivered hid' hwait hevent =>
    cases hid'.symm.trans hid
    cases hev
    exact ⟨_, _, hheard, rfl, hevent⟩

/-- the deed of a poll that delivers a message -/
theorem deed_poll {clock : Nat → Instant} {report : Report S U E V} {l : List (SubstreamState S U E V)} {id : Nat}
    (hscan : scan io clock 0 h.substreams = some (some report, l)) (hid : report.source.inId = some id) :
    ∃ msg, hears io report.now report.source = some msg ∧ h.deed io (.poll clock) = some (.delivered id msg.asks) := by
  obtain ⟨pre, post, rest, -, -, hs, -⟩ := scan_report hscan
  obtain ⟨msg, ev, hheard, hevent, hin⟩ := hears_report hs hid
  refine ⟨msg, hheard, ?_⟩
  show (scan io clock 0 h.substreams).bind _ = _
  rw [hscan, Option.bind_some, Option.bind_some, Report.deed, hid, hevent, asks_processBttIn hin]
  rfl

/-- a delivery is the deed of a poll -/
theorem deed_delivered {op : BitTorrentHandlerOp S U V} {id : Nat} {asks : Bool}
    (hdeed : h.deed io op = some (.delivered id asks)) :
    ∃ clock report l, op = .poll clock ∧ scan io clock 0 h.substreams = some (some report, l) ∧
      report.source.inId = some id := by
  cases op with
  | poll clock =>
    obtain ⟨⟨r, l⟩, hscan, hr⟩ := Option.bind_eq_some_iff.mp hdeed
    obtain ⟨report, rfl, hreport⟩ := Option.bind_eq_some_iff.mp hr
    obtain ⟨id', hid, heq⟩ := Option.map_eq_some_iff.mp hreport
    cases heq
    exact ⟨clock, report, l, rfl, hscan, hid⟩
  | injectEvent event =>
    have hno : event.deed h ≠ some (.delivered id asks) := by
      unfold In.deed
      split
      · cases event.response <;> simp
      · split
        · cases event.discards <;> simp
        · simp
    exact (hno hdeed).elim
  | _ => cases hdeed

/-- **A delivered request is one that is handed on**, with the number of its substream. -/
theorem delivered_iff (clock : Nat → Instant) (id : Nat) :
    h.deed io (.poll clock) = some (.delivered id true) ↔
      ∃ event h', h.poll io clock = some (some (.custom event), h') ∧ event.requestId = some ⟨id⟩ := by
  constructor
  · intro hdeed
    obtain ⟨clock', report, l, hop, hscan, hid⟩ := deed_delivered hdeed
    cases hop
    obtain ⟨pre, post, rest, -, -, hs, -⟩ := scan_report hscan
    obtain ⟨msg, ev, hheard, hevent, hin⟩ := hears_report hs hid
    obtain ⟨msg', hheard', hdeed'⟩ := deed_poll hscan hid
    have hasks : msg.asks = true := by
      cases hheard.symm.trans hheard'
      exact (Deed.delivered.inj (Option.some.inj (hdeed.symm.trans hdeed'))).2.symm
    rw [← asks_processBttIn hin] at hasks
    obtain ⟨r, hr⟩ := Option.isSome_iff_exists.mp hasks
    obtain ⟨l', -, hpoll⟩ := (poll_eq_scan h).2 _ _ hscan
    rw [Option.map_some, hevent] at hpoll
    exact ⟨ev, _, hpoll, by rw [hr, requestId_processBttIn hin hr]⟩
  · rintro ⟨event, h', hpoll, hr⟩
    exact deed_of_request hpoll hr

/-! ## counting -/

/-- what has to balance: the substreams that wait and what was answered or thrown away, against what was delivered -/
def Balanced (log : List Deed) (h : BitTorrentHandler S U E V) : Prop :=
  ∀ id, h.waiting.count id + settled log id = log.count (.delivered id true) + log.count (.delivered id false)

theorem Balanced.does {log : List Deed} {d : Option Deed} (hb : Balanced log h) (hdoes : Does h h' d) :
    Balanced (log ++ d.toList) h' := by
  intro id
  have hbefore := hb id
  unfold settled at hbefore ⊢
  cases hdoes with
  | nothing hids hwait =>
    rw [Option.toList_none, List.append_nil, hwait.count_eq]
    exact hbefore
  | @delivers id' asks hid hids hwait =>
    rw [hwait.count_eq]
    simp only [Option.toList_some, List.count_append, List.count_cons, List.count_nil]
    cases asks <;> by_cases heq : id' = id <;> simp [heq] <;> omega
  | @answers id' hids hwait =>
    rw [hwait.count_eq] at hbefore
    simp only [Option.toList_some, List.count_append, List.count_cons, List.count_nil] at hbefore ⊢
    by_cases heq : id' = id <;> simp [heq] at hbefore ⊢ <;> omega
  | @discards id' hids hwait =>
    rw [hwait.count_eq] at hbefore
    simp only [Option.toList_some, List.count_append, List.count_cons, List.count_nil] at hbefore ⊢
    by_cases heq : id' = id <;> simp [heq] at hbefore ⊢ <;> omega

theorem Balanced.call {log : List Deed} {op : BitTorrentHandlerOp S U V} {event : Option (ProtocolsHandlerEvent U E V)}
    (hb : Balanced log h) (hcall : h.call io op = some (event, h')) : Balanced (log ++ (h.deed io op).toList) h' := by
  by_cases hop : ∃ stream, op = .injectFullyNegotiatedInbound stream
  · obtain ⟨stream, rfl⟩ := hop
    cases hcall
    show Balanced (log ++ []) _
    rw [List.append_nil]
    intro id
    show ((h.substreams ++ [_]).filterMap SubstreamState.waitingId).count id + _ = _
    rw [List.filterMap_append, List.filterMap_cons_none rfl, List.filterMap_nil, List.append_nil]
    exact hb id
  · exact hb.does (call_does (fun stream he => hop ⟨stream, he⟩) hcall).1

/-- **Deliveries are counted.**  In every run, for every number: substreams that wait, requests answered and requests
thrown away are the messages delivered. -/
theorem count_deeds {ops : List (BitTorrentHandlerOp S U V)}
    (hrun : exec (BitTorrentHandler.next io) (some withSeedLeechConfig) ops = some h) :
    Balanced (deeds io (some withSeedLeechConfig) ops) h :=
  run_inv (I := fun _ log h => Balanced log h) (fun _ _ _ _ _ _ hb hcall => hb.call hcall) (fun _ => rfl) hrun

theorem Balanced.released {log : List Deed} (hb : Balanced log h) :
    Released log h ↔ ∀ id, log.count (.delivered id false) = 0 := by
  refine forall_congr' fun id => ?_
  rw [hb id]
  omega

/-- a poll that reads no request delivers a message that is none -/
theorem deed_of_not_asking {op : BitTorrentHandlerOp S U V} (hbad : ¬ Asking io (some h) op) :
    ∃ id event h', h.deed io op = some (.delivered id false) ∧ h.call io op = some (event, h') := by
  unfold Asking at hbad
  push Not at hbad
  obtain ⟨h₁, clock, report, l, id, msg, hh, rfl, hscan, hid, hheard, hasks⟩ := hbad
  cases hh
  obtain ⟨msg', hheard', hdeed⟩ := deed_poll hscan hid
  cases hheard.symm.trans hheard'
  rw [Bool.eq_false_iff.mpr hasks] at hdeed
  obtain ⟨l', -, hpoll⟩ := (poll_eq_scan h).2 _ _ hscan
  exact ⟨id, _, _, hdeed, hpoll⟩

theorem not_delivered_of_asking {op : BitTorrentHandlerOp S U V} (hgood : Asking io (some h) op) (id : Nat) :
    h.deed io op ≠ some (.delivered id false) := by
  intro hdeed
  obtain ⟨clock, report, l, rfl, hscan, hid⟩ := deed_delivered hdeed
  obtain ⟨msg, hheard, hdeed'⟩ := deed_poll hscan hid
  have hasks := hgood h clock report l id msg rfl rfl hscan hid hheard
  rw [hasks] at hdeed'
  cases hdeed.symm.trans hdeed'

end

/-- **Nothing waits in vain exactly if the remote sends only requests.**  In a run, in every state every substream that
waits for the user has handed on a request that was neither answered nor thrown away, if and only if every message read
from an inbound substream is a `Handshake`, `Bitfield`, `Request` or `Cancel`; and these are the messages that are
handed on with the number of their substream. -/
theorem released_iff (io : BttStream S E) (ops : List (BitTorrentHandlerOp S U V)) :
    ((∀ pre, pre <+: ops → ∀ h : BitTorrentHandler S U E V,
        exec (BitTorrentHandler.next io) (some withSeedLeechConfig) pre = some h →
        Released (deeds io (some (withSeedLeechConfig : BitTorrentHandler S U E V)) pre) h) ↔
      Along (BitTorrentHandler.next io) (Asking io) (some (withSeedLeechConfig : BitTorrentHandler S U E V)) ops) ∧
    ∀ (h : BitTorrentHandler S U E V) (clock : Nat → Instant) (id : Nat),
      h.deed io (.poll clock) = some (.delivered id true) ↔
        ∃ event h', h.poll io clock = some (some (.custom event), h') ∧ event.requestId = some ⟨id⟩ := by
  refine ⟨?_, fun h clock id => delivered_iff clock id⟩
  refine safe_iff_along_some (BitTorrentHandler.next io) (I := fun pre _ => ∀ id,
    (deeds io (some (withSeedLeechConfig : BitTorrentHandler S U E V)) pre).count (.delivered id false) = 0)
    (fun s op => rfl) ?_ ?_ ?_ ?_ ?_ ops
  · rintro op h clock report l id msg ⟨⟩
  · intro h hrun id
    rfl
  · intro pre h hrun hI
    exact (count_deeds hrun).released.mpr hI
  · intro pre op h h' hrun hI hgood hnext id
    rw [deeds, outputs_snoc, hrun, List.count_append]
    have hlast : ((some h).bind fun h => h.deed io op).toList.count (Deed.delivered id false) = 0 := by
      refine List.count_eq_zero.mpr ?_
      intro hmem
      exact not_delivered_of_asking hgood id (Option.mem_toList.mp hmem)
    rw [hlast, Nat.add_zero]
    exact hI id
  · intro pre op h hrun hI hbad
    obtain ⟨id, event, h', hdeed, hcall⟩ := deed_of_not_asking hbad
    have hnext : (h.call io op).map Prod.snd = some h' := by rw [hcall, Option.map_some]
    refine ⟨h', hnext, ?_⟩
    intro hreleased
    have hafter : exec (BitTorrentHandler.next io) (some withSeedLeechConfig) (pre ++ [op]) = some h' := by
      rw [exec_snoc, hrun]
      exact hnext
    have hzero := (count_deeds hafter).released.mp hreleased id
    rw [deeds, outputs_snoc, hrun, Option.bind_some, hdeed, List.count_append, Option.toList_some,
      List.count_singleton_self] at hzero
    omega

/-- a remote that asks for a block -/
theorem released_request :
    ∃ h : BitTorrentHandler (List PeerMessage) Unit Unit Unit,
      exec (BitTorrentHandler.next scripted) (some withSeedLeechConfig)
        [.injectFullyNegotiatedInbound [.request ⟨0, 0, 1⟩], pollNow] = some h ∧ h.waiting = [0] ∧
      Released (deeds scripted (some (withSeedLeechConfig : BitTorrentHandler (List PeerMessage) Unit Unit Unit))
        [.injectFullyNegotiatedInbound [.request ⟨0, 0, 1⟩], pollNow]) h := by
  refine ⟨_, rfl, rfl, ?_⟩
  refine (released_iff scripted [.injectFullyNegotiatedInbound [.request ⟨0, 0, 1⟩], pollNow]).1.mpr ?_ _
    (List.prefix_refl _) _ rfl
  refine ⟨?_, ?_, trivial⟩
  · rintro h clock report l id msg - ⟨⟩
  · rintro h clock report l id msg ⟨⟩ ⟨⟩ ⟨⟩ - ⟨⟩
    rfl

/-- a remote that says it is interested keeps a substream waiting for ever -/
theorem unreleased_interested :
    ∃ h : BitTorrentHandler (List PeerMessage) Unit Unit Unit,
      exec (BitTorrentHandler.next scripted) (some withSeedLeechConfig)
        [.injectFullyNegotiatedInbound [.interested], pollNow] = some h ∧
      ¬ Released (deeds scripted (some (withSeedLeechConfig : BitTorrentHandler (List PeerMessage) Unit Unit Unit))
        [.injectFullyNegotiatedInbound [.interested], pollNow]) h := by
  refine ⟨_, rfl, ?_⟩
  intro hreleased
  have hcount := hreleased 0
  revert hcount
  decide

end BitTorrentHandler

end Btt
