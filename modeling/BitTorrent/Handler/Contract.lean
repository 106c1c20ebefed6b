import BitTorrent.Handler.Link

/-!
# A handler and what is at the other ends of its substreams

What a handler finds on its substreams comes from the remote.  `Terms` say which substreams there are and what may
arrive on them; a handler whose substreams keep to the terms reports only what they allow, and writes only what was
asked for.

* `Pipes`        streams that give what has arrived on them;
* `writes`       the message a substream puts on its stream in a poll, `scanWrites` those of a whole poll;
* `Keeps t s`    the substream `s` keeps to the terms `t`;
* `Heard t e`    the event `e` is one that the terms allow;
* `keeps_poll`   a poll keeps to the terms, `poll_returns` it does not panic.
-/

namespace Btt
open Run BitTorrentHandler

/-! ## streams -/

/-- the stream after a call that gives no message -/
inductive BttStream.Leaves {S E : Type} (io : BttStream S E) (s : S) : S → Prop
  | ready : Leaves io s (io.pollReady s).2
  | sent (msg : PeerMessage) : Leaves io s (io.startSend s msg).2
  | flushed : Leaves io s (io.pollFlush s).2
  | closed : Leaves io s (io.pollClose s).2
  | nothing (h : ∀ msg, (io.pollNext s).1 ≠ .ready (some (.ok msg))) : Leaves io s (io.pollNext s).2

/-- streams with names, each with the messages that have arrived on it and were not read yet; `arrive` is the work of
the network.  `opened k` and `accepted k` are the two ends of the substream `k`; everything else about them is left
open.  They carry messages, in order: what a codec does to the bytes of a message is not part of them. -/
structure Pipes (S E : Type) where
  io : BttStream S E
  name : S → Nat
  inbox : S → List PeerMessage
  opened : Nat → S
  accepted : Nat → S
  arrive : PeerMessage → S → S
  name_opened : ∀ k, name (opened k) = k
  inbox_opened : ∀ k, inbox (opened k) = []
  name_accepted : ∀ k, name (accepted k) = k
  inbox_accepted : ∀ k, inbox (accepted k) = []
  name_arrive : ∀ msg s, name (arrive msg s) = name s
  inbox_arrive : ∀ msg s, inbox (arrive msg s) = inbox s ++ [msg]
  leaves : ∀ {s s'}, io.Leaves s s' → name s' = name s ∧ inbox s' = inbox s
  reads : ∀ {s msg}, (io.pollNext s).1 = .ready (some (.ok msg)) →
    name (io.pollNext s).2 = name s ∧ inbox s = msg :: inbox (io.pollNext s).2

variable {S U E V : Type}

namespace BitTorrentHandler

/-- the message that an event of the user sends, and the data for its answer -/
def In.says : In U → Option (PeerMessage × Option U)
  | .cancelPiece request _ => some (.cancel request, none)
  | event => event.opens

end BitTorrentHandler

/-- the stream of a substream -/
def SubstreamState.stream : SubstreamState S U E V → Option S
  | .outPendingSend stream _ _ => some stream
  | .outPendingFlush stream _ => some stream
  | .outWaitingAnswer stream _ _ => some stream
  | .outClosing stream => some stream
  | .inWaitingMessage _ stream => some stream
  | .inWaitingUser _ stream => some stream
  | .inPendingSend _ stream _ => some stream
  | .inPendingFlush _ stream => some stream
  | .inClosing stream => some stream
  | _ => none

/-- the substream with `f` done to its stream -/
def SubstreamState.onStream (f : S → S) : SubstreamState S U E V → SubstreamState S U E V
  | .outPendingOpen msg userData => .outPendingOpen msg userData
  | .outPendingSend stream msg userData => .outPendingSend (f stream) msg userData
  | .outPendingFlush stream userData => .outPendingFlush (f stream) userData
  | .outWaitingAnswer stream userData since => .outWaitingAnswer (f stream) userData since
  | .outReportError error userData => .outReportError error userData
  | .outClosing stream => .outClosing (f stream)
  | .inWaitingMessage id stream => .inWaitingMessage id (f stream)
  | .inWaitingUser id stream => .inWaitingUser id (f stream)
  | .inPendingSend id stream msg => .inPendingSend id (f stream) msg
  | .inPendingFlush id stream => .inPendingFlush id (f stream)
  | .inClosing stream => .inClosing (f stream)

/-- a message arrives on the stream with the name `k` -/
def Pipes.put (P : Pipes S E) (k : Nat) (msg : PeerMessage) (stream : S) : S :=
  if P.name stream = k then P.arrive msg stream else stream

/-- the message, if the stream takes it -/
def BttStream.takes (io : BttStream S E) (stream : S) (msg : PeerMessage) : Option (S × PeerMessage) :=
  match io.pollReady stream with
  | (.ready (.ok ()), ready) =>
    match io.startSend ready msg with
    | (.ok (), _) => some (stream, msg)
    | (.error _, _) => none
  | _ => none

/-- the message the substream puts on its stream if it is polled now -/
def SubstreamState.writes (io : BttStream S E) : SubstreamState S U E V → Option (S × PeerMessage)
  | .outPendingSend stream msg _ => io.takes stream msg
  | .inPendingSend _ stream msg => io.takes stream msg
  | _ => none

/-- those of all substreams that a poll advances -/
def scanWrites (io : BttStream S E) (clock : Nat → Instant) : Nat → List (SubstreamState S U E V) → List (S × PeerMessage)
  | _, [] => []
  | k, s :: l =>
    scanWrites io clock (k + 1) l ++
      match scan io clock (k + 1) l with
      | some (none, _) => (s.writes io).toList
      | _ => []

/-! ## terms -/

/-- what one side of a connection may find -/
structure Terms (U : Type) where
  /-- what its user has asked to be sent -/
  said : PeerMessage → Option U → Prop
  /-- the substream was opened for the message -/
  opened : Nat → PeerMessage → Option U → Prop
  /-- the number was given to the substream, which the remote has opened -/
  accepted : Nat → Nat → Prop
  /-- the message may answer what was asked on the substream -/
  reply : Nat → PeerMessage → Prop
  /-- the message may arrive on the substream -/
  incoming : Nat → PeerMessage → Prop

section
variable (P : Pipes S E) (t : Terms U)

/-- what has arrived on a stream -/
def Terms.Brings (stream : S) : Prop := ∀ msg ∈ P.inbox stream, t.incoming (P.name stream) msg

/-- the substream keeps to the terms; one that is being closed is not read any more -/
def Keeps : SubstreamState S U E V → Prop
  | .outPendingOpen msg userData => t.said msg userData
  | .outPendingSend stream msg userData => t.opened (P.name stream) msg userData ∧ t.Brings P stream
  | .outPendingFlush stream userData => (∃ msg, t.opened (P.name stream) msg userData) ∧ t.Brings P stream
  | .outWaitingAnswer stream userData _ => (∃ msg, t.opened (P.name stream) msg (some userData)) ∧ t.Brings P stream
  | .inWaitingMessage id stream => t.accepted id (P.name stream) ∧ t.Brings P stream
  | .inWaitingUser id stream => t.accepted id (P.name stream) ∧ t.Brings P stream
  | .inPendingSend id stream msg => t.accepted id (P.name stream) ∧ t.Brings P stream ∧ t.reply (P.name stream) msg
  | .inPendingFlush id stream => t.accepted id (P.name stream) ∧ t.Brings P stream
  | .outReportError error _ => ∀ msg, error ≠ .unexpectedMessage msg
  | _ => True

/-- terms that allow more -/
structure Terms.Le (t t' : Terms U) : Prop where
  said : ∀ {msg userData}, t.said msg userData → t'.said msg userData
  opened : ∀ {k msg userData}, t.opened k msg userData → t'.opened k msg userData
  accepted : ∀ {id k}, t.accepted id k → t'.accepted id k
  reply : ∀ {k msg}, t.reply k msg → t'.reply k msg
  incoming : ∀ {k msg}, t.incoming k msg → t'.incoming k msg

/-- an event that the terms allow, and what is left of the substream that reports it -/
inductive Heard : ProtocolsHandlerEvent U E V → Option (SubstreamState S U E V) → Prop
  | opens {msg userData} (hsaid : t.said msg userData) : Heard (.outboundSubstreamRequest (msg, userData)) none
  | fails {err u} (herr : ∀ msg, err ≠ .unexpectedMessage msg) : Heard (.custom (.torrentErr err (some u))) none
  | answered {k q u msg event stream} (hopened : t.opened k q (some u)) (hin : t.incoming k msg)
      (hevent : processBttOut msg u = some event) : Heard (.custom event) (some (.outClosing stream))
  | delivered {id now msg event stream} (hacc : t.accepted id (P.name stream)) (hbox : t.Brings P stream)
      (hin : t.incoming (P.name stream) msg) (hevent : processBttIn now msg id = some event) :
      Heard (.custom event) (some (.inWaitingUser id stream))

/-- what becomes of a substream that keeps to the terms -/
def Ending : Option (Option (SubstreamState S U E V) × Option (ProtocolsHandlerEvent U E V)) → Prop
  | none => ∃ k port, t.incoming k (.port port)
  | some (s', none) => ∀ x, s' = some x → Keeps P t x
  | some (s', some event) => Heard P t event s'

end

/-! ## more terms, more messages -/

section
variable {P : Pipes S E} {t t' : Terms U}

theorem Keeps.mono {s : SubstreamState S U E V} (hle : t.Le t') (hs : Keeps P t s) : Keeps P t' s := by
  have hbrings : ∀ {stream}, t.Brings P stream → t'.Brings P stream := fun h msg hm => hle.incoming (h msg hm)
  cases s with
  | outPendingOpen msg userData => exact hle.said hs
  | outPendingSend stream msg userData => exact ⟨hle.opened hs.1, hbrings hs.2⟩
  | outPendingFlush stream userData => exact ⟨hs.1.imp fun _ h => hle.opened h, hbrings hs.2⟩
  | outWaitingAnswer stream userData since => exact ⟨hs.1.imp fun _ h => hle.opened h, hbrings hs.2⟩
  | inWaitingMessage id stream => exact ⟨hle.accepted hs.1, hbrings hs.2⟩
  | inWaitingUser id stream => exact ⟨hle.accepted hs.1, hbrings hs.2⟩
  | inPendingSend id stream msg => exact ⟨hle.accepted hs.1, hbrings hs.2.1, hle.reply hs.2.2⟩
  | inPendingFlush id stream => exact ⟨hle.accepted hs.1, hbrings hs.2⟩
  | outReportError error userData => exact hs
  | _ => trivial

/-- **A kept substream stays kept** as long as its stream keeps its name and brings what the terms allow. -/
theorem Keeps.onStream {s : SubstreamState S U E V} {f : S → S} (hs : Keeps P t s)
    (hf : ∀ stream ∈ s.stream, P.name (f stream) = P.name stream ∧ (t.Brings P stream → t.Brings P (f stream))) :
    Keeps P t (s.onStream f) := by
  have hname : ∀ stream ∈ s.stream, P.name (f stream) = P.name stream := fun stream h => (hf stream h).1
  have hbrings : ∀ stream ∈ s.stream, t.Brings P stream → t.Brings P (f stream) := fun stream h => (hf stream h).2
  cases s with
  | outPendingSend stream msg userData => exact ⟨(hname stream rfl).symm ▸ hs.1, hbrings stream rfl hs.2⟩
  | outPendingFlush stream userData => exact ⟨(hname stream rfl).symm ▸ hs.1, hbrings stream rfl hs.2⟩
  | outWaitingAnswer stream userData since => exact ⟨(hname stream rfl).symm ▸ hs.1, hbrings stream rfl hs.2⟩
  | inWaitingMessage id stream => exact ⟨(hname stream rfl).symm ▸ hs.1, hbrings stream rfl hs.2⟩
  | inWaitingUser id stream => exact ⟨(hname stream rfl).symm ▸ hs.1, hbrings stream rfl hs.2⟩
  | inPendingSend id stream msg =>
    exact ⟨(hname stream rfl).symm ▸ hs.1, hbrings stream rfl hs.2.1, (hname stream rfl).symm ▸ hs.2.2⟩
  | inPendingFlush id stream => exact ⟨(hname stream rfl).symm ▸ hs.1, hbrings stream rfl hs.2⟩
  | _ => exact hs

/-- a message that the terms allow arrives -/
theorem Keeps.put {s : SubstreamState S U E V} {k : Nat} {msg : PeerMessage} (hin : t.incoming k msg)
    (hs : Keeps P t s) : Keeps P t (s.onStream (P.put k msg)) := by
  refine hs.onStream fun stream _ => ?_
  unfold Pipes.put
  split
  · rename_i hk
    refine ⟨P.name_arrive msg stream, ?_⟩
    intro h m hm
    rw [P.name_arrive]
    rw [P.inbox_arrive] at hm
    rcases List.mem_append.mp hm with hm | hm
    · exact h m hm
    · rw [List.mem_singleton.mp hm, hk]
      exact hin
  · exact ⟨rfl, id⟩

/-- an event of the user keeps to the terms, if what it asks for does -/
theorem keeps_injected {h h' : BitTorrentHandler S U E V} {event : In U} (hin : Injected h event h')
    (hh : ∀ s ∈ h.substreams, Keeps P t s) (htold : ∀ info, event.says = some info → t.said info.1 info.2)
    (hreply : ∀ r msg k, event.response = some (r, msg) → t.accepted r.connecUniqueId k → t.reply k msg) :
    ∀ s ∈ h'.substreams, Keeps P t s := by
  intro s hs
  cases hin with
  | disconnected => exact hh s hs
  | @pushed _ msg userData he =>
    rcases List.mem_append.mp hs with hs | hs
    · exact hh s hs
    · rw [List.mem_singleton.mp hs]
      have hopens : event.says = some (msg, userData) := by
        cases event <;> first | exact he | cases he
      exact htold _ hopens
  | @answered _ r msg pre stream post he hl hfirst =>
    rw [hl] at hh
    rcases List.mem_append.mp hs with hs | hs
    · rcases List.mem_append.mp hs with hs | hs
      · exact hh s (List.mem_append_left _ hs)
      · exact hh s (List.mem_append_right _ (List.mem_cons_of_mem _ hs))
    · rw [List.mem_singleton.mp hs]
      obtain ⟨hacc, hbrings⟩ := hh _ (List.mem_append_right _ List.mem_cons_self)
      exact ⟨hacc, hbrings, hreply r msg _ he hacc⟩
  | @discarded _ r pre stream post he hl =>
    rw [hl] at hh
    rcases List.mem_append.mp hs with hs | hs
    · exact hh s (List.mem_append_left _ hs)
    · exact hh s (List.mem_append_right _ (List.mem_cons_of_mem _ hs))
  | late he hnone => exact hh s hs
  | @forwarded request r hnone =>
    rcases List.mem_append.mp hs with hs | hs
    · exact hh s hs
    · rw [List.mem_singleton.mp hs]
      exact htold (.cancel request, none) rfl

/-- one more substream -/
theorem keeps_push {h : BitTorrentHandler S U E V} {s : SubstreamState S U E V}
    (hh : ∀ s ∈ h.substreams, Keeps P t s) (hs : Keeps P t s) : ∀ x ∈ (h.push s).substreams, Keeps P t x := by
  intro x hx
  rcases List.mem_append.mp hx with hx | hx
  · exact hh x hx
  · rw [List.mem_singleton.mp hx]
    exact hs

end

/-! ## one move -/

section
variable {P : Pipes S E} {t : Terms U} {now : Instant}

theorem leaves_ready {s s' : S} {r : Poll (Except E Unit)} (h : P.io.pollReady s = (r, s')) : P.io.Leaves s s' := by
  have hl := @BttStream.Leaves.ready _ _ P.io s
  rwa [h] at hl

theorem leaves_send {s s' : S} {msg : PeerMessage} {r : Except E Unit} (h : P.io.startSend s msg = (r, s')) :
    P.io.Leaves s s' := by
  have hl := @BttStream.Leaves.sent _ _ P.io s msg
  rwa [h] at hl

theorem leaves_flush {s s' : S} {r : Poll (Except E Unit)} (h : P.io.pollFlush s = (r, s')) : P.io.Leaves s s' := by
  have hl := @BttStream.Leaves.flushed _ _ P.io s
  rwa [h] at hl

theorem leaves_next {s s' : S} {r : Poll (Option (Except E PeerMessage))} (h : P.io.pollNext s = (r, s'))
    (hr : ∀ msg, r ≠ .ready (some (.ok msg))) : P.io.Leaves s s' := by
  have hl := @BttStream.Leaves.nothing _ _ P.io s (by rw [h]; exact hr)
  rwa [h] at hl

theorem reads_next {s s' : S} {msg : PeerMessage} (h : P.io.pollNext s = (.ready (some (.ok msg)), s')) :
    P.name s' = P.name s ∧ P.inbox s = msg :: P.inbox s' := by
  have hr := @Pipes.reads _ _ P s msg (by rw [h])
  rwa [h] at hr

/-- a call that gives no message changes nothing here -/
theorem Terms.Brings.leaves {s s' : S} (h : t.Brings P s) (hl : P.io.Leaves s s') : t.Brings P s' := by
  unfold Brings
  rw [(P.leaves hl).1, (P.leaves hl).2]
  exact h

/-- a kept substream stays kept after a call that gives no message -/
theorem Keeps.leaves {s : SubstreamState S U E V} {stream stream' : S} (hs : Keeps P t s)
    (hstream : s.stream = some stream) (hl : P.io.Leaves stream stream') : Keeps P t (s.onStream fun _ => stream') := by
  refine hs.onStream ?_
  intro x hx
  obtain rfl : stream = x := Option.some.inj (hstream.symm.trans hx)
  exact ⟨(P.leaves hl).1, fun h => h.leaves hl⟩

/-- a message that is read had arrived; the others are still there -/
theorem Terms.Brings.reads {s s' : S} {msg : PeerMessage} (h : t.Brings P s)
    (hr : P.io.pollNext s = (.ready (some (.ok msg)), s')) :
    P.name s' = P.name s ∧ t.incoming (P.name s) msg ∧ t.Brings P s' := by
  obtain ⟨hname, hbox⟩ := reads_next hr
  unfold Brings at h ⊢
  rw [hbox] at h
  rw [hname]
  exact ⟨rfl, h msg List.mem_cons_self, fun m hm => h m (List.mem_cons_of_mem _ hm)⟩

theorem heard_reportIo (err : E) (userData : Option U) :
    Ending P t (some ((none : Option (SubstreamState S U E V)), reportIo err userData)) := by
  cases userData with
  | none => exact nofun
  | some u => exact .fails nofun

/-- a substream that is gone without a word -/
theorem ending_gone : Ending P t (some ((none : Option (SubstreamState S U E V)), none)) := nofun

theorem Keeps.ending {s : SubstreamState S U E V} (hs : Keeps P t s) : Ending P t (some (some s, none)) := by
  rintro _ ⟨⟩
  exact hs

theorem keeps_advance {s : SubstreamState S U E V} (hs : Keeps P t s) :
    Ending P t ((advanceSubstream P.io now s).map fun r => (r.1, r.2.1)) := by
  cases s with
  | outPendingOpen msg userData => exact .opens hs
  | outPendingSend stream msg userData =>
    simp only [advanceSubstream]
    split <;> rename_i hready
    · have hs1 := hs.leaves rfl (leaves_ready hready)
      split <;> rename_i hsend
      · have hs2 := hs1.leaves rfl (leaves_send hsend)
        exact Keeps.ending ⟨⟨msg, hs2.1⟩, hs2.2⟩
      · exact heard_reportIo _ _
    · exact (hs.leaves rfl (leaves_ready hready)).ending
    · exact heard_reportIo _ _
  | outPendingFlush stream userData =>
    simp only [advanceSubstream]
    split <;> rename_i hflush
    · have hs1 := hs.leaves rfl (leaves_flush hflush)
      cases userData with
      | some u => exact Keeps.ending hs1
      | none => exact Keeps.ending trivial
    · exact (hs.leaves rfl (leaves_flush hflush)).ending
    · exact heard_reportIo _ _
  | outWaitingAnswer stream userData since =>
    simp only [advanceSubstream]
    split <;> rename_i hnext
    · rename_i msg stream'
      obtain ⟨⟨q, hopened⟩, hbox⟩ := hs
      obtain ⟨-, hin, -⟩ := hbox.reads hnext
      cases hevent : processBttOut (E := E) (V := V) msg userData with
      | none =>
        cases msg with
        | port port => exact ⟨_, port, hin⟩
        | _ => cases hevent
      | some event => exact .answered hopened hin hevent
    · exact (hs.leaves rfl (leaves_next hnext (by rintro _ ⟨⟩))).ending
    · exact .fails (by rintro _ ⟨⟩)
    · exact .fails (by rintro _ ⟨⟩)
  | outReportError error userData => exact .fails hs
  | outClosing stream =>
    simp only [advanceSubstream]
    split
    · exact ending_gone
    · exact Keeps.ending trivial
  | inWaitingMessage id stream =>
    simp only [advanceSubstream]
    split <;> rename_i hnext
    · rename_i msg stream'
      obtain ⟨hacc, hbox⟩ := hs
      obtain ⟨hname, hin, hrest⟩ := hbox.reads hnext
      cases hevent : processBttIn (U := U) (E := E) (V := V) now msg id with
      | none =>
        cases msg with
        | port port => exact ⟨_, port, hin⟩
        | _ => cases hevent
      | some event =>
        rw [← hname] at hacc hin
        exact .delivered hacc hrest hin hevent
    · exact (hs.leaves rfl (leaves_next hnext (by rintro _ ⟨⟩))).ending
    · exact ending_gone
    · exact ending_gone
  | inWaitingUser id stream => exact hs.ending
  | inPendingSend id stream msg =>
    simp only [advanceSubstream]
    split <;> rename_i hready
    · have hs1 := hs.leaves rfl (leaves_ready hready)
      split <;> rename_i hsend
      · have hs2 := hs1.leaves rfl (leaves_send hsend)
        exact Keeps.ending ⟨hs2.1, hs2.2.1⟩
      · exact ending_gone
    · exact (hs.leaves rfl (leaves_ready hready)).ending
    · exact ending_gone
  | inPendingFlush id stream =>
    simp only [advanceSubstream]
    split <;> rename_i hflush
    · exact Keeps.ending (hs.leaves rfl (leaves_flush hflush))
    · exact (hs.leaves rfl (leaves_flush hflush)).ending
    · exact ending_gone
  | inClosing stream =>
    simp only [advanceSubstream]
    split
    · exact ending_gone
    · exact Keeps.ending trivial

/-! ## polls -/

theorem keeps_advanceWhile {n : Nat} {s : SubstreamState S U E V} (hs : Keeps P t s) :
    Ending P t (advanceWhile P.io now n s) := by
  induction n generalizing s with
  | zero =>
    rintro _ ⟨⟩
    exact hs
  | succ n ih =>
    have hadv : Ending P t ((advanceSubstream P.io now s).map fun r => (r.1, r.2.1)) := keeps_advance hs
    rw [advanceWhile]
    cases h : advanceSubstream P.io now s with
    | none =>
      rw [h] at hadv
      exact hadv
    | some r =>
      rw [h] at hadv
      obtain ⟨_ | s', _ | event, _ | _⟩ := r
      case some.none.true => exact ih (hadv s' rfl)
      all_goals exact hadv

/-- **A substream keeps to the terms**, or reports something that they allow; it panics only on a `Port`. -/
theorem keeps_settle {s : SubstreamState S U E V} (hs : Keeps P t s) : Ending P t (settle P.io now s) :=
  keeps_advanceWhile hs

variable {clock : Nat → Instant}

theorem keeps_scan (clock : Nat → Instant) (k : Nat) {l : List (SubstreamState S U E V)} (hl : ∀ s ∈ l, Keeps P t s) :
    match scan P.io clock k l with
    | none => ∃ k port, t.incoming k (.port port)
    | some (none, l') => ∀ s ∈ l', Keeps P t s
    | some (some report, l') => Heard P t report.event report.left ∧ ∀ s ∈ l', Keeps P t s ∨ report.left = some s := by
  induction l generalizing k with
  | nil => exact List.forall_mem_nil _
  | cons s l ih =>
    obtain ⟨hs, hl⟩ := List.forall_mem_cons.mp hl
    have htail := ih (k + 1) hl
    have hset : Ending P t (settle P.io (clock (k + 1)) s) := keeps_settle hs
    rw [scan]
    cases hscan : scan P.io clock (k + 1) l with
    | none =>
      rw [hscan] at htail
      exact htail
    | some r =>
      rw [hscan] at htail
      obtain ⟨_ | report, l'⟩ := r
      · -- the substreams behind it had nothing to report
        cases hsettle : settle P.io (clock (k + 1)) s with
        | none =>
          rw [hsettle] at hset
          exact hset
        | some r =>
          rw [hsettle] at hset
          obtain ⟨s', _ | event⟩ := r
          · intro x hx
            rcases List.mem_append.mp hx with hx | hx
            · exact hset x (Option.mem_toList.mp hx)
            · exact htail x hx
          · refine ⟨hset, ?_⟩
            intro x hx
            rcases List.mem_append.mp hx with hx | hx
            · exact Or.inr (Option.mem_toList.mp hx)
            · exact Or.inl (htail x hx)
      · refine ⟨htail.1, ?_⟩
        intro x hx
        rcases List.mem_cons.mp hx with rfl | hx
        · exact Or.inl hs
        · exact htail.2 x hx

/-- **A poll keeps to the terms.** -/
theorem keeps_poll {h h' : BitTorrentHandler S U E V} {event : Option (ProtocolsHandlerEvent U E V)}
    (hh : ∀ s ∈ h.substreams, Keeps P t s) (hpoll : h.poll P.io clock = some (event, h')) :
    (event = none → ∀ s ∈ h'.substreams, Keeps P t s) ∧
      ∀ e, event = some e → ∃ left, Heard P t e left ∧ ∀ s ∈ h'.substreams, Keeps P t s ∨ left = some s := by
  obtain ⟨r, l, l', hscan, hperm, rfl, rfl⟩ := poll_some hpoll
  have hkeeps := keeps_scan clock 0 hh
  rw [hscan] at hkeeps
  cases r with
  | none => exact ⟨fun _ s hs => hkeeps s (hperm.mem_iff.mp hs), nofun⟩
  | some report =>
    refine ⟨nofun, ?_⟩
    rintro _ ⟨⟩
    exact ⟨report.left, hkeeps.1, fun s hs => hkeeps.2 s (hperm.mem_iff.mp hs)⟩

/-- a handler to which no `Port` comes does not panic -/
theorem poll_returns (clock : Nat → Instant) {h : BitTorrentHandler S U E V} (hh : ∀ s ∈ h.substreams, Keeps P t s)
    (hport : ∀ k port, ¬ t.incoming k (.port port)) : ∃ r, h.poll P.io clock = some r := by
  have hkeeps := keeps_scan clock 0 hh
  cases hscan : scan P.io clock 0 h.substreams with
  | none =>
    rw [hscan] at hkeeps
    obtain ⟨k, port, hin⟩ := hkeeps
    exact (hport k port hin).elim
  | some r =>
    obtain ⟨l', -, hpoll⟩ := (poll_eq_scan h).2 r.1 r.2 hscan
    exact ⟨_, hpoll⟩

theorem takes_some {io : BttStream S E} {stream : S} {msg : PeerMessage} {w : S × PeerMessage}
    (h : io.takes stream msg = some w) : w = (stream, msg) := by
  unfold BttStream.takes at h
  split at h
  · split at h <;> cases h
    rfl
  · cases h

/-- what is written was asked for: by the user on a substream of its own, or as an answer on one of the remote -/
theorem keeps_writes {s : SubstreamState S U E V} (hs : Keeps P t s) {w : S × PeerMessage}
    (hw : s.writes P.io = some w) : (∃ userData, t.opened (P.name w.1) w.2 userData) ∨
      ∃ id, t.accepted id (P.name w.1) ∧ t.reply (P.name w.1) w.2 := by
  cases s with
  | outPendingSend stream msg userData =>
    obtain rfl := takes_some hw
    exact Or.inl ⟨userData, hs.1⟩
  | inPendingSend id stream msg =>
    obtain rfl := takes_some hw
    exact Or.inr ⟨id, hs.1, hs.2.2⟩
  | _ => cases hw

theorem keeps_scanWrites {k : Nat} {l : List (SubstreamState S U E V)} (hl : ∀ s ∈ l, Keeps P t s) {w : S × PeerMessage}
    (hw : w ∈ scanWrites P.io clock k l) : (∃ userData, t.opened (P.name w.1) w.2 userData) ∨
      ∃ id, t.accepted id (P.name w.1) ∧ t.reply (P.name w.1) w.2 := by
  induction l generalizing k with
  | nil => cases hw
  | cons s l ih =>
    obtain ⟨hs, hl⟩ := List.forall_mem_cons.mp hl
    rcases List.mem_append.mp hw with hw | hw
    · exact ih hl hw
    · split at hw
      · exact keeps_writes hs (Option.mem_toList.mp hw)
      · cases hw

end

end Btt
