import BitTorrent.Handler.Step

/-!
# Answers go out on the substream that asked

Inbound substreams are numbered, and the number of a substream stands for the request that was read from it.  As long
as fewer than 2^64 substreams are opened the numbers do not come back, and an answer finds the one substream it is for.

* `Tracked ops log h`   numbers are distinct, and a substream that waits for the user has delivered a message that was
                        not answered yet;
* `AnswersOwn`          an answer moves the substream of its request and nothing else;
* `answers_own_substream`   both, along every run.
-/

namespace Btt
open Run

variable {S U E V : Type}

def BitTorrentHandlerOp.isInbound : BitTorrentHandlerOp S U V → Bool
  | .injectFullyNegotiatedInbound _ => true
  | _ => false

/-- how many inbound substreams a run opens -/
def inbounds (ops : List (BitTorrentHandlerOp S U V)) : Nat := ops.countP BitTorrentHandlerOp.isInbound

theorem inbounds_snoc (ops : List (BitTorrentHandlerOp S U V)) (op : BitTorrentHandlerOp S U V) :
    inbounds (ops ++ [op]) = inbounds ops + if op.isInbound = true then 1 else 0 := by
  rw [inbounds, List.countP_append, List.countP_singleton]
  rfl

namespace BitTorrentHandler

/-- the last delivery of the substream `id` has not been answered -/
def Unanswered (log : List Deed) (id : Nat) : Prop := ∃ a asks b, log = a ++ .delivered id asks :: b ∧ .answered id ∉ b

theorem Unanswered.snoc {log : List Deed} {id : Nat} (h : Unanswered log id) {d : Deed} (hd : d ≠ .answered id) :
    Unanswered (log ++ [d]) id := by
  obtain ⟨a, asks, b, rfl, hb⟩ := h
  refine ⟨a, asks, b ++ [d], by rw [List.append_assoc, List.cons_append], ?_⟩
  intro hmem
  rcases List.mem_append.mp hmem with hmem | hmem
  · exact hb hmem
  · exact hd (List.mem_singleton.mp hmem).symm

/-- every answer is to a delivery that was not answered before -/
def AnsweredOnce (log : List Deed) : Prop :=
  ∀ pre post id, log = pre ++ .answered id :: post → Unanswered pre id

theorem AnsweredOnce.snoc {log : List Deed} (h : AnsweredOnce log) {d : Deed}
    (hd : ∀ id, d = .answered id → Unanswered log id) : AnsweredOnce (log ++ [d]) := by
  intro pre post id heq
  rcases post.eq_nil_or_concat with rfl | ⟨post, last, rfl⟩
  · obtain ⟨rfl, hlast⟩ := List.append_inj' heq rfl
    exact hd id (List.cons.inj hlast).1
  · rw [List.concat_eq_append, ← List.cons_append, ← List.append_assoc] at heq
    obtain ⟨hinit, -⟩ := List.append_inj' heq rfl
    exact h pre post id hinit

/-- the calls, the deeds and the handler after them -/
structure Tracked (ops : List (BitTorrentHandlerOp S U V)) (log : List Deed) (h : BitTorrentHandler S U E V) : Prop where
  next : h.nextConnecUniqueId = inbounds ops
  distinct : h.ids.Nodup
  below : ∀ id ∈ h.ids, id < h.nextConnecUniqueId
  delivered : ∀ id ∈ h.waiting, Unanswered log id
  once : AnsweredOnce log

section
variable {io : BttStream S E} {ops : List (BitTorrentHandlerOp S U V)} {log : List Deed} {h h' : BitTorrentHandler S U E V}

theorem tracked_new : Tracked [] [] (withSeedLeechConfig : BitTorrentHandler S U E V) := by
  refine ⟨rfl, List.nodup_nil, ?_, ?_, ?_⟩
  · intro id hid
    cases hid
  · intro id hid
    cases hid
  · intro pre post id heq
    cases pre <;> cases heq

/-- the waiting substreams have distinct numbers -/
theorem Tracked.waiting_nodup (ht : Tracked ops log h) : h.waiting.Nodup := (waiting_sublist h.substreams).nodup ht.distinct

/-- a new substream gets the next number -/
theorem Tracked.inbound (ht : Tracked ops log h) (stream : S)
    (hlt : inbounds (ops ++ [.injectFullyNegotiatedInbound stream]) < 2 ^ 64) :
    Tracked (ops ++ [.injectFullyNegotiatedInbound stream]) log (h.injectFullyNegotiatedInbound stream) := by
  have hcount : inbounds (ops ++ [.injectFullyNegotiatedInbound stream]) = h.nextConnecUniqueId + 1 := by
    rw [inbounds_snoc, ht.next]
    rfl
  have hids : (h.injectFullyNegotiatedInbound stream).ids = h.ids ++ [h.nextConnecUniqueId] := by
    show (h.substreams ++ [_]).filterMap SubstreamState.inId = _
    rw [List.filterMap_append]
    rfl
  have hnext : (h.injectFullyNegotiatedInbound stream).nextConnecUniqueId = h.nextConnecUniqueId + 1 := by
    show (h.nextConnecUniqueId + 1) % 2 ^ 64 = _
    rw [Nat.mod_eq_of_lt (by omega)]
  have hwait : (h.injectFullyNegotiatedInbound stream).waiting = h.waiting := by
    show (h.substreams ++ [_]).filterMap SubstreamState.waitingId = _
    rw [List.filterMap_append, List.filterMap_cons_none rfl, List.filterMap_nil, List.append_nil]
    rfl
  refine ⟨hnext.trans hcount.symm, ?_, ?_, ?_, ht.once⟩
  · rw [hids, List.nodup_append_comm]
    refine List.nodup_cons.mpr ⟨?_, ht.distinct⟩
    intro hmem
    exact Nat.lt_irrefl _ (ht.below _ hmem)
  · intro id hid
    rw [hids] at hid
    rw [hnext]
    rcases List.mem_append.mp hid with hid | hid
    · exact Nat.lt_succ_of_lt (ht.below id hid)
    · rw [List.mem_singleton.mp hid]
      exact Nat.lt_succ_self _
  · rw [hwait]
    exact ht.delivered

/-- what is left of the numbers is distinct and old -/
theorem Tracked.of_subperm {ops' : List (BitTorrentHandlerOp S U V)} {log' : List Deed} (ht : Tracked ops log h)
    (hnext : h'.nextConnecUniqueId = h.nextConnecUniqueId) (hcount : inbounds ops' = inbounds ops)
    (hids : h'.ids.Subperm h.ids) (hdelivered : ∀ id ∈ h'.waiting, Unanswered log' id) (honce : AnsweredOnce log') :
    Tracked ops' log' h' := by
  obtain ⟨l, hl, hsub⟩ := hids
  refine ⟨by rw [hnext, hcount, ht.next], hl.nodup_iff.mp (hsub.nodup ht.distinct), ?_, hdelivered, honce⟩
  intro id hid
  rw [hnext]
  exact ht.below id (hsub.subset (hl.mem_iff.mpr hid))

theorem Tracked.call {op : BitTorrentHandlerOp S U V} {event : Option (ProtocolsHandlerEvent U E V)}
    (ht : Tracked ops log h) (hlt : inbounds (ops ++ [op]) < 2 ^ 64)
    (hcall : h.call io op = some (event, h')) : Tracked (ops ++ [op]) (log ++ (h.deed io op).toList) h' := by
  by_cases hop : ∃ stream, op = .injectFullyNegotiatedInbound stream
  · obtain ⟨stream, rfl⟩ := hop
    cases hcall
    show Tracked _ (log ++ []) _
    rw [List.append_nil]
    exact ht.inbound stream hlt
  · obtain ⟨hdoes, hnext⟩ := call_does (fun stream he => hop ⟨stream, he⟩) hcall
    have hcount : inbounds (ops ++ [op]) = inbounds ops := by
      rw [inbounds_snoc, if_neg, Nat.add_zero]
      intro hin
      cases op with
      | injectFullyNegotiatedInbound stream => exact hop ⟨stream, rfl⟩
      | _ => cases hin
    generalize h.deed io op = d at hdoes
    cases hdoes with
    | nothing hids hwait =>
      rw [Option.toList_none, List.append_nil]
      refine ht.of_subperm hnext hcount hids ?_ ht.once
      intro id hid
      exact ht.delivered id (hwait.mem_iff.mp hid)
    | @delivers id asks hid hids hwait =>
      refine ht.of_subperm hnext hcount hids ?_ (ht.once.snoc ?_)
      · intro i hi
        rcases List.mem_cons.mp (hwait.mem_iff.mp hi) with rfl | hi
        · exact ⟨log, asks, [], rfl, by simp⟩
        · exact (ht.delivered i hi).snoc (by simp)
      · intro i hi
        cases hi
    | @answers id hids hwait =>
      have hnd : (id :: h'.waiting).Nodup := hwait.nodup_iff.mp ht.waiting_nodup
      refine ht.of_subperm hnext hcount hids ?_ (ht.once.snoc ?_)
      · intro i hi
        refine (ht.delivered i (hwait.mem_iff.mpr (List.mem_cons_of_mem _ hi))).snoc ?_
        rintro ⟨⟩
        exact (List.nodup_cons.mp hnd).1 hi
      · rintro i ⟨⟩
        exact ht.delivered id (hwait.mem_iff.mpr List.mem_cons_self)
    | @discards id hids hwait =>
      refine ht.of_subperm hnext hcount hids ?_ (ht.once.snoc ?_)
      · intro i hi
        exact (ht.delivered i (hwait.mem_iff.mpr (List.mem_cons_of_mem _ hi))).snoc (by simp)
      · intro i hi
        cases hi

/-- every run with fewer than 2^64 inbound substreams is tracked -/
theorem tracked_run (hrun : exec (BitTorrentHandler.next io) (some withSeedLeechConfig) ops = some h)
    (hlt : inbounds ops < 2 ^ 64) :
    Tracked ops (deeds io (some withSeedLeechConfig) ops) h := by
  refine run_inv (I := fun ops log h => inbounds ops < 2 ^ 64 → Tracked ops log h) ?_
    (fun _ => tracked_new) hrun hlt
  intro ops log h op event h' hI hcall hlt
  refine (hI ?_).call hlt hcall
  rw [inbounds_snoc] at hlt
  omega

end

/-! ## the answers -/

/-- `answer` moves the substream of the request to send the message, if the request waits for it, and changes nothing
else -/
structure AnswersOwn (h : BitTorrentHandler S U E V) (requestId : RequestId) (msg : PeerMessage)
    (after : Option (BitTorrentHandler S U E V)) : Prop where
  own : ∀ pre stream post, h.substreams = pre ++ .inWaitingUser requestId.connecUniqueId stream :: post →
    (∀ s ∈ pre ++ post, s.inId ≠ some requestId.connecUniqueId) ∧
      after = some { h with substreams := pre ++ post ++ [.inPendingSend requestId.connecUniqueId stream msg] }
  other : (∀ stream, .inWaitingUser requestId.connecUniqueId stream ∉ h.substreams) → after = some h

section
variable {io : BttStream S E} {h : BitTorrentHandler S U E V}

/-- a list is cut in one way at the first element that passes a test -/
theorem first_split_unique {α : Type} {test : α → Bool} {a b c d : List α} {x y : α} (h : a ++ x :: b = c ++ y :: d)
    (ha : ∀ s ∈ a, test s = false) (hc : ∀ s ∈ c, test s = false) (hx : test x = true) (hy : test y = true) :
    a = c ∧ x = y ∧ b = d := by
  induction a generalizing c with
  | nil =>
    cases c with
    | nil =>
      cases h
      exact ⟨rfl, rfl, rfl⟩
    | cons s c =>
      cases h
      cases hx.symm.trans (hc _ List.mem_cons_self)
  | cons s a ih =>
    cases c with
    | nil =>
      cases h
      cases hy.symm.trans (ha _ List.mem_cons_self)
    | cons t c =>
      obtain ⟨rfl, htail⟩ := List.cons.inj h
      obtain ⟨rfl, hxy, hbd⟩ := ih htail (fun s hs => ha s (List.mem_cons_of_mem _ hs)) fun s hs => hc s (List.mem_cons_of_mem _ hs)
      exact ⟨rfl, hxy, hbd⟩

/-- with distinct numbers the other substreams have other numbers -/
theorem inId_ne_of_distinct (hnd : h.ids.Nodup) {id : Nat} {stream : S} {pre post : List (SubstreamState S U E V)}
    (hl : h.substreams = pre ++ .inWaitingUser id stream :: post) : ∀ s ∈ pre ++ post, s.inId ≠ some id := by
  intro s hs hid
  have hsplit : h.ids = pre.filterMap SubstreamState.inId ++ id :: post.filterMap SubstreamState.inId := by
    rw [ids, hl, List.filterMap_append]
    rfl
  rw [hsplit, List.nodup_middle, ← List.filterMap_append] at hnd
  exact (List.nodup_cons.mp hnd).1 (List.mem_filterMap.mpr ⟨s, hs, hid⟩)

/-- so there is one substream for a request -/
theorem answersOwn_of_distinct (hnd : h.ids.Nodup) {event : In U} {requestId : RequestId} {msg : PeerMessage}
    (he : event.response = some (requestId, msg)) : AnswersOwn h requestId msg (h.injectEvent event) := by
  obtain ⟨h', hev, hin⟩ := h.injectEvent_cases event
  rw [hev]
  have hdiscards : event.discards = none := by
    cases event <;> first | rfl | cases he
  cases hin with
  | @answered _ requestId' msg' pre stream post he' hl hfirst =>
    cases he.symm.trans he'
    refine ⟨?_, ?_⟩
    · intro pre₁ stream₁ post₁ hl₁
      have hfirst₁ : ∀ s ∈ pre₁, waitsFor requestId s = false := by
        intro s hs
        by_contra hwait
        obtain ⟨stream', rfl⟩ := waitsFor_eq_true (Bool.eq_true_of_not_eq_false hwait)
        exact inId_ne_of_distinct hnd hl₁ _ (List.mem_append_left _ hs) rfl
      obtain ⟨rfl, hs, rfl⟩ := first_split_unique (hl.symm.trans hl₁) hfirst hfirst₁ (decide_eq_true rfl) (decide_eq_true rfl)
      cases hs
      exact ⟨inId_ne_of_distinct hnd hl, rfl⟩
    · intro hnone
      refine (hnone stream ?_).elim
      rw [hl]
      exact List.mem_append_right _ List.mem_cons_self
  | late hr hnone =>
    rw [he, hdiscards] at hr
    obtain rfl : requestId = _ := by simpa using hr
    refine ⟨?_, fun _ => rfl⟩
    intro pre stream post hl
    cases hnone.symm.trans (waits_of_mem hl)
  | pushed he' =>
    have hopens : event.opens = none := by
      cases event <;> first | rfl | cases he
    cases hopens.symm.trans he'
  | discarded he' hl => cases hdiscards.symm.trans he'
  | disconnected => cases he
  | forwarded hnone => cases he

/-- a message of the remote is handed on with the number of its substream, or with none -/
theorem requestId_processBttIn {now : Instant} {msg : PeerMessage} {id : Nat} {event : Event U E V}
    (h : processBttIn now msg id = some event) {r : RequestId} (hr : event.requestId = some r) : r = ⟨id⟩ := by
  cases msg <;> cases h <;> cases hr <;> rfl

theorem requestId_processBttOut {msg : PeerMessage} {u : U} {event : Event U E V}
    (h : processBttOut msg u = some event) : event.requestId = none := by
  cases msg <;> cases h <;> rfl

/-- a request that is handed on was delivered by the substream with its number -/
theorem deed_of_request {clock : Nat → Instant} {event : Event U E V} {h' : BitTorrentHandler S U E V} {r : RequestId}
    (hpoll : h.poll io clock = some (some (.custom event), h')) (hr : event.requestId = some r) :
    h.deed io (.poll clock) = some (.delivered r.connecUniqueId true) := by
  obtain ⟨report, l, l', hscan, -, hev, -⟩ := poll_some hpoll
  show (scan io clock 0 h.substreams).bind _ = _
  rw [hscan, Option.bind_some]
  cases report with
  | none => cases hev
  | some report =>
    have hevent : report.event = .custom event := (Option.some.inj hev).symm
    obtain ⟨pre, post, rest, -, -, hs, -⟩ := scan_report hscan
    obtain ⟨msg, -, hs⟩ := settle_cases hs
    rw [Option.bind_some, Report.deed, hevent]
    have hasks : (ProtocolsHandlerEvent.custom event).asks = true := by rw [ProtocolsHandlerEvent.asks, hr]; rfl
    rw [hasks]
    rw [hevent] at hs
    generalize report.source = s, report.left = s' at hs
    cases hs with
    | fails hid hdata => cases hr
    | answered hid hdata hevent => cases (requestId_processBttOut hevent).symm.trans hr
    | delivered hid hwait hevent =>
      rw [hid, requestId_processBttIn hevent hr]
      rfl

/-- **Answers go out on the substream that asked.**  In every run with fewer than 2^64 inbound substreams the numbers
of the inbound substreams are distinct and smaller than the next one; an answer for a request moves its substream, if
that still waits for it, and nothing else; every answer that is taken is to the last message its substream delivered,
and no two are to the same one; and a request that is handed on bears the number of the substream that delivered it. -/
theorem answers_own_substream (io : BttStream S E) (ops : List (BitTorrentHandlerOp S U V))
    (h : BitTorrentHandler S U E V) (hrun : exec (BitTorrentHandler.next io) (some withSeedLeechConfig) ops = some h)
    (hlt : inbounds ops < 2 ^ 64) :
    (h.ids.Nodup ∧ ∀ id ∈ h.ids, id < h.nextConnecUniqueId) ∧
    (∀ event requestId msg, event.response = some (requestId, msg) →
      AnswersOwn h requestId msg (h.injectEvent event)) ∧
    AnsweredOnce (deeds io (some withSeedLeechConfig) ops) ∧
    (∀ clock event h' r, h.poll io clock = some (some (.custom event), h') → event.requestId = some r →
      h.deed io (.poll clock) = some (.delivered r.connecUniqueId true)) := by
  have ht := tracked_run hrun hlt
  refine ⟨⟨ht.distinct, ht.below⟩, ?_, ht.once, ?_⟩
  · intro event requestId msg he
    exact answersOwn_of_distinct ht.distinct he
  · intro clock event h' r hpoll hr
    exact deed_of_request hpoll hr

/-- two requests of a remote, the second of which is answered -/
def twoRequests : List (BitTorrentHandlerOp (List PeerMessage) Unit Unit) :=
  [.injectFullyNegotiatedInbound [.request ⟨0, 0, 1⟩], .injectFullyNegotiatedInbound [.request ⟨0, 1, 1⟩], pollNow, pollNow,
    .injectEvent (.getPieceRes ⟨0, 1, [7]⟩ ⟨1⟩)]

theorem answers_own_substream_two :
    ∃ h : BitTorrentHandler (List PeerMessage) Unit Unit Unit,
      exec (BitTorrentHandler.next scripted) (some withSeedLeechConfig) twoRequests = some h ∧
      deeds (E := Unit) scripted (some withSeedLeechConfig) twoRequests
        = [.delivered 1 true, .delivered 0 true, .answered 1] ∧
      h.ids.Nodup ∧ ∀ id ∈ h.ids, id < h.nextConnecUniqueId :=
  ⟨_, rfl, by decide, (answers_own_substream scripted twoRequests _ rfl (by decide)).1⟩

end

end BitTorrentHandler

end Btt
