import BitTorrent.Handler.Outcome

/-!
# Answers and the requests they are taken for

The first message on an outbound substream is reported as the answer to the request that was sent on it.  What kind of
answer it is, is read off the message alone.

* `Fitting`      a report of an answer is of the kind that was asked for, and any other message is an error;
* `Agreeing`     the remote sends no answer of another kind, and no `Port`, which panics;
* `fitting_iff`  along a run, the first exactly if the second.
-/

namespace Btt
open Run

variable {S U E V : Type}

/-- what a request asks for -/
inductive AnswerKind where
  | handshake
  | bitfield
  | piece
deriving DecidableEq

/-- the messages that are taken for answers -/
def PeerMessage.answerKind : PeerMessage → Option AnswerKind
  | .handshake _ => some .handshake
  | .bitfield _ => some .bitfield
  | .piece _ => some .piece
  | _ => none

def PeerMessage.isPort : PeerMessage → Bool
  | .port _ => true
  | _ => false

namespace BitTorrentHandler

def In.asksFor : In U → Option AnswerKind
  | .handshakeReq _ _ => some .handshake
  | .bitfieldReq _ _ => some .bitfield
  | .getPieceReq _ _ => some .piece
  | _ => none

/-- the answer an event reports, and the data of the request it is taken to answer -/
def Event.answer : Event U E V → Option (AnswerKind × U)
  | .handshakeRes _ userData => some (.handshake, userData)
  | .bitfieldRes _ userData => some (.bitfield, userData)
  | .getPieceRes _ userData => some (.piece, userData)
  | _ => none

end BitTorrentHandler

def LinkOp.asksFor : LinkOp S U V → Option AnswerKind
  | .injectEvent event => event.asksFor
  | _ => none

open BitTorrentHandler

namespace Link

/-- the poll comes to an outbound substream with the data `(u, n)`, and this reads the message `msg` -/
def Hears (io : BttStream S E) (m : Link S (U × Nat) E V) (clock : Nat → Instant) (msg : PeerMessage) (u : U) (n : Nat) :
    Prop :=
  ∃ pre s post, m.handler.substreams = pre ++ s :: post ∧ Quiet io clock (pre.length + 1) post ∧
    s.userData = some (u, n) ∧ hears io (clock (pre.length + 1)) s = some msg

/-- a report of an answer is to a request of its kind, and any other message is reported as unexpected -/
structure Fitting (io : BttStream S E) (ops : List (LinkOp S U V)) (s : Option (Link S (U × Nat) E V))
    (op : LinkOp S (U × Nat) V) : Prop where
  only : ∀ m m' event k u n, s = some m → m.call io op = some (some (.custom event), m') →
    event.answer = some (k, (u, n)) → ops[n]?.bind LinkOp.asksFor = some k
  otherwise : ∀ m clock msg u n, s = some m → op = .poll clock → m.Hears io clock msg u n →
    (∀ k, msg.answerKind = some k → ops[n]?.bind LinkOp.asksFor ≠ some k) →
    ∃ m', m.call io op = some (some (.custom (.torrentErr (.unexpectedMessage msg) (some (u, n)))), m')

/-- a message that is taken for an answer is of the kind that was asked for, and none is a `Port` -/
def Agreeing (io : BttStream S E) (ops : List (LinkOp S U V)) (s : Option (Link S (U × Nat) E V))
    (op : LinkOp S (U × Nat) V) : Prop :=
  ∀ m clock msg u n, s = some m → op = .poll clock → m.Hears io clock msg u n →
    msg.isPort = false ∧ ∀ k, msg.answerKind = some k → ops[n]?.bind LinkOp.asksFor = some k

section
variable {io : BttStream S E}

/-- what is reported about a message depends on its kind only -/
theorem processBttOut_cases {msg : PeerMessage} {u : U} {event : Event U E V} (h : processBttOut msg u = some event) :
    (msg.answerKind = none ∧ event = .torrentErr (.unexpectedMessage msg) (some u)) ∨
      ∃ k, msg.answerKind = some k ∧ event.answer = some (k, u) := by
  cases msg with
  | handshake handshake =>
    cases h
    exact Or.inr ⟨_, rfl, rfl⟩
  | bitfield indexField =>
    cases h
    exact Or.inr ⟨_, rfl, rfl⟩
  | piece piece =>
    cases h
    exact Or.inr ⟨_, rfl, rfl⟩
  | port port => cases h
  | _ =>
    cases h
    exact Or.inl ⟨rfl, rfl⟩

/-- what a substream with data reads is taken for an answer -/
theorem settles_of_hears {s : SubstreamState S U E V} {now : Instant} {s' : Option (SubstreamState S U E V)}
    {ev : Option (ProtocolsHandlerEvent U E V)} {msg : PeerMessage} {u : U} (hs : settle io now s = some (s', ev))
    (hdata : s.userData = some u) (hheard : hears io now s = some msg) :
    ∃ event, processBttOut msg u = some event ∧ ev = some (.custom event) := by
  obtain ⟨heard, hheard', hs⟩ := settle_cases hs
  cases hheard'.symm.trans hheard
  cases hs with
  | answered hid hdata' hout =>
    cases hdata'.symm.trans hdata
    exact ⟨_, hout, rfl⟩
  | delivered hid hwait hin => cases (SubstreamState.userData_of_inId hid).symm.trans hdata

/-- the poll reports about the message that is read, unless it is a `Port` -/
theorem Hears.call {m : Link S (U × Nat) E V} {clock : Nat → Instant} {msg : PeerMessage} {u : U} {n : Nat}
    (h : m.Hears io clock msg u n) (hport : msg.isPort = false) :
    ∃ event m', processBttOut msg (u, n) = some event ∧ m.call io (.poll clock) = some (some (.custom event), m') := by
  obtain ⟨pre, s, post, hl, hquiet, hdata, hheard⟩ := h
  rw [← Nat.zero_add pre.length] at hquiet hheard
  cases hs : settle io (clock (0 + pre.length + 1)) s with
  | none =>
    obtain ⟨port, hp⟩ := settle_none hs
    cases hp.symm.trans hheard
    cases hport
  | some r =>
    obtain ⟨s', ev⟩ := r
    obtain ⟨event, hout, rfl⟩ := settles_of_hears hs hdata hheard
    obtain ⟨rest, hscan⟩ := scan_reached_report hquiet hs
    rw [← hl] at hscan
    obtain ⟨l', -, hpoll⟩ := (poll_eq_scan m.handler).2 _ _ hscan
    exact ⟨event, _, hout, congrArg (Option.map _) hpoll⟩

/-- a `Port` is not reported: the poll panics -/
theorem Hears.panics {m : Link S (U × Nat) E V} {clock : Nat → Instant} {msg : PeerMessage} {u : U} {n : Nat}
    (h : m.Hears io clock msg u n) (hport : msg.isPort = true) : m.call io (.poll clock) = none := by
  obtain ⟨pre, s, post, hl, hquiet, hdata, hheard⟩ := h
  rw [← Nat.zero_add pre.length] at hquiet hheard
  have hs : settle io (clock (0 + pre.length + 1)) s = none := by
    cases hs : settle io (clock (0 + pre.length + 1)) s with
    | none => rfl
    | some r =>
      obtain ⟨event, hout, -⟩ := settles_of_hears hs hdata hheard
      cases msg with
      | port port => cases hout
      | _ => cases hport
  have hscan := scan_reached_none hquiet hs
  rw [← hl] at hscan
  exact congrArg (Option.map _) ((poll_eq_scan m.handler).1 hscan)

/-- an answer that is reported was read by the substream of its request -/
theorem hears_of_answer {m m' : Link S (U × Nat) E V} {op : LinkOp S (U × Nat) V} {event : Event (U × Nat) E V}
    {k : AnswerKind} {u : U} {n : Nat} (hcall : m.call io op = some (some (.custom event), m'))
    (hans : event.answer = some (k, (u, n))) :
    ∃ clock msg, op = .poll clock ∧ m.Hears io clock msg u n ∧ msg.answerKind = some k := by
  cases op with
  | poll clock =>
    obtain ⟨⟨ev, h'⟩, hpoll, heq⟩ := Option.map_eq_some_iff.mp hcall
    cases heq
    obtain ⟨r, rest, rest', hscan, -, hev, -⟩ := poll_some hpoll
    cases r with
    | none => cases hev
    | some report =>
      have hevent : report.event = .custom event := (Option.some.inj hev).symm
      obtain ⟨pre, post, rest'', hl, -, hs, hpost, hnow⟩ := scan_report hscan
      rw [Nat.zero_add] at hpost hnow
      obtain ⟨heard, hheard, hs⟩ := settle_cases hs
      have hread : ∃ msg, heard = some msg ∧ report.source.userData = some (u, n) ∧ msg.answerKind = some k := by
        rw [hevent] at hs
        generalize report.source = s, report.left = s' at hs
        cases hs with
        | fails hid hdata => cases hans
        | @answered _ x msg ev stream hid hdata hout =>
          rcases processBttOut_cases hout with ⟨-, rfl⟩ | ⟨k', hk, hans'⟩
          · cases hans
          · cases hans'.symm.trans hans
            exact ⟨msg, rfl, hdata, hk⟩
        | @delivered _ id msg ev stream hid hwait hin =>
          have hnone : event.answer = none := by
            cases msg <;> cases hin <;> rfl
          cases hnone.symm.trans hans
      obtain ⟨msg, rfl, hdata, hk⟩ := hread
      rw [hnow] at hheard
      exact ⟨clock, msg, rfl, ⟨pre, report.source, post, hl, (quiet_of_scan hpost).1, hdata, hheard⟩, hk⟩
  | injectEvent event =>
    obtain ⟨h', hev, -⟩ := m.handler.injectEvent_cases event
    rw [Link.call, hev] at hcall
    cases hcall
  | _ => cases hcall

/-- one step -/
theorem fitting_iff_agreeing (ops : List (LinkOp S U V)) (s : Option (Link S (U × Nat) E V)) (op : LinkOp S (U × Nat) V) :
    Fitting io ops s op ↔ Agreeing io ops s op := by
  constructor
  · rintro h m clock msg u n rfl rfl hhears
    have hport : msg.isPort = false := by
      by_contra hport
      have hkind : msg.answerKind = none := by
        cases msg with
        | port port => rfl
        | _ => exact (hport rfl).elim
      -- a `Port` is no answer, so it would have to be reported
      obtain ⟨m', hcall⟩ := h.otherwise m clock msg u n rfl rfl hhears (by rw [hkind]; intro k hk; cases hk)
      cases (hhears.panics (Bool.of_not_eq_false hport)).symm.trans hcall
    refine ⟨hport, fun k hk => ?_⟩
    obtain ⟨event, m', hout, hcall⟩ := hhears.call hport
    rcases processBttOut_cases hout with ⟨hnone, -⟩ | ⟨k', hk', hans⟩
    · cases hk.symm.trans hnone
    · cases hk.symm.trans hk'
      exact h.only m m' event k u n rfl hcall hans
  · intro h
    refine ⟨?_, ?_⟩
    · rintro m m' event k u n rfl hcall hans
      obtain ⟨clock, msg, rfl, hhears, hk⟩ := hears_of_answer hcall hans
      exact (h m clock msg u n rfl rfl hhears).2 k hk
    · rintro m clock msg u n rfl rfl hhears hne
      obtain ⟨hport, hasked⟩ := h m clock msg u n rfl rfl hhears
      obtain ⟨event, m', hout, hcall⟩ := hhears.call hport
      rcases processBttOut_cases hout with ⟨-, rfl⟩ | ⟨k, hk, hans⟩
      · exact ⟨m', hcall⟩
      · exact (hne k hk (hasked k hk)).elim

end

/-- **When an answer matches its request.**  Take any run of a handler and its swarm, with the data of every request
marked with the number of its call, which changes nothing in what happens.  In every step an answer is reported only for
a request of its kind, and any other message on the substream of a request is reported as unexpected, if and only if no
remote answers a request with a `Handshake`, `Bitfield` or `Piece` that is not what was asked for, or with a `Port`. -/
theorem fitting_iff (io : BttStream S E) (ops : List (LinkOp S U V)) :
    ((exec (next io) (some (new : Link S (U × Nat) E V)) (marked ops)).map (Link.map Prod.fst) = exec (next io) (some new) ops ∧
      (reports io (some (new : Link S (U × Nat) E V)) (marked ops)).map (ProtocolsHandlerEvent.map Prod.fst)
        = reports io (some new) ops) ∧
    (Along (next io) (Fitting io ops) (some (new : Link S (U × Nat) E V)) (marked ops) ↔
      Along (next io) (Agreeing io ops) (some (new : Link S (U × Nat) E V)) (marked ops)) :=
  ⟨exec_marked io ops, along_congr (fitting_iff_agreeing ops) _ _⟩

/-- a handshake to which the remote answers with `msg` -/
def handshakeWith (msg : PeerMessage) : List (LinkOp (List PeerMessage) Unit Unit) :=
  [.injectEvent (.handshakeReq (.new (.replicate 1) (.replicate 2)) ()), .poll fun _ => 0, .negotiated 0 [msg], .poll fun _ => 0]

theorem eq_of_singleton {α : Type} {x s : α} {pre post : List α} (h : [x] = pre ++ s :: post) : pre = [] ∧ x = s := by
  cases pre with
  | nil =>
    cases h
    exact ⟨rfl, rfl⟩
  | cons t pre => cases pre <;> cases h

/-- the remote shakes hands -/
theorem fitting_handshake :
    Along (next scripted) (Fitting scripted (handshakeWith (.handshake (.new (.replicate 1) (.replicate 3)))))
      (some (new : Link (List PeerMessage) (Unit × Nat) Unit Unit))
      (marked (handshakeWith (.handshake (.new (.replicate 1) (.replicate 3))))) := by
  refine (fitting_iff scripted _).2.mpr ⟨?_, ?_, ?_, ?_, trivial⟩
  · rintro m clock msg u n - ⟨⟩
  · rintro m clock msg u n ⟨⟩ ⟨⟩ ⟨pre, s, post, hl, -, -, hheard⟩
    obtain ⟨-, rfl⟩ := eq_of_singleton hl
    cases hheard
  · rintro m clock msg u n - ⟨⟩
  · rintro m clock msg u n ⟨⟩ ⟨⟩ ⟨pre, s, post, hl, -, hdata, hheard⟩
    obtain ⟨-, rfl⟩ := eq_of_singleton hl
    cases hdata
    cases hheard
    refine ⟨rfl, ?_⟩
    rintro k ⟨⟩
    rfl

/-- a bitfield is reported as the answer to a handshake -/
theorem unfitting_bitfield :
    ¬ Along (next scripted) (Fitting scripted (handshakeWith (.bitfield ⟨[true]⟩)))
      (some (new : Link (List PeerMessage) (Unit × Nat) Unit Unit)) (marked (handshakeWith (.bitfield ⟨[true]⟩))) := by
  rintro ⟨-, -, -, h, -⟩
  have hkind := h.only _ _ _ .bitfield () 0 rfl rfl rfl
  cases hkind

end Link

end Btt
