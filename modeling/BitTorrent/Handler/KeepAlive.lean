import BitTorrent.Handler.Step

/-!
# What becomes of an order to disconnect

`Disconnect` sets `keep_alive`, and so does every poll that has nothing to report.

* `KeepAlive.Honours timeout k`   the connection is kept no longer than the order says;
* `Reporting`        no poll undoes the order: a substream has something to report, or none is left and it ends in time;
* `disconnect_sticks_iff`   after an order, it is honoured along a run exactly if no poll undoes it.
-/

namespace Btt
open Run

variable {S U E V : Type}

/-- with no time given the connection is not kept, else it is kept until then at most -/
def KeepAlive.Honours (timeout : Option Instant) : KeepAlive → Prop
  | .no => True
  | .until_ t => timeout.elim False fun t₀ => t ≤ t₀
  | .yes => False

def BitTorrentHandlerOp.isDisconnect : BitTorrentHandlerOp S U V → Bool
  | .injectEvent (.disconnect _) => true
  | _ => false

namespace BitTorrentHandler

/-- a substream that is polled reports something; if a time was given all may also be over, 20 seconds before -/
def Reporting (io : BttStream S E) (timeout : Option Instant) (s : Option (BitTorrentHandler S U E V))
    (op : BitTorrentHandlerOp S U V) : Prop :=
  ∀ h clock, s = some h → op = .poll clock → Quiet io clock 0 h.substreams →
    Finished io clock 0 h.substreams ∧ ∃ t, timeout = some t ∧ clock 0 + idleTimeout ≤ t

section
variable {io : BttStream S E} {h h' : BitTorrentHandler S U E V} {op : BitTorrentHandlerOp S U V}
  {event : Option (ProtocolsHandlerEvent U E V)}

/-- only a poll with nothing to report changes `keep_alive` -/
theorem keepAlive_call (hop : op.isDisconnect = false) (hcall : h.call io op = some (event, h')) :
    h'.keepAlive = h.keepAlive ∨
      ∃ clock l, op = .poll clock ∧ scan io clock 0 h.substreams = some (none, l) ∧ h'.keepAlive = keptAfter clock l := by
  cases op with
  | injectFullyNegotiatedInbound stream =>
    cases hcall
    exact Or.inl rfl
  | injectFullyNegotiatedOutbound stream info =>
    cases hcall
    exact Or.inl rfl
  | injectDialUpgradeError info error =>
    cases hcall
    unfold injectDialUpgradeError
    split <;> exact Or.inl rfl
  | injectEvent event =>
    obtain ⟨h1, hev, hin⟩ := h.injectEvent_cases event
    rw [call, hev] at hcall
    cases hcall
    cases hin with
    | disconnected => cases hop
    | _ => exact Or.inl rfl
  | poll clock =>
    obtain ⟨r, l, l', hscan, -, -, rfl⟩ := poll_some hcall
    cases r with
    | some report => exact Or.inl rfl
    | none => exact Or.inr ⟨clock, l, rfl, hscan, rfl⟩

/-- what a poll with nothing to report sets is within the order exactly if nothing is left and it is in time -/
theorem honours_keptAfter (timeout : Option Instant) (clock : Nat → Instant) (l : List (SubstreamState S U E V)) :
    (keptAfter clock l).Honours timeout ↔ l = [] ∧ ∃ t, timeout = some t ∧ clock 0 + idleTimeout ≤ t := by
  cases l with
  | nil => cases timeout <;> simp [keptAfter, KeepAlive.Honours]
  | cons s l => simp [keptAfter, KeepAlive.Honours]

end

/-- **When an order to disconnect sticks.**  After `Disconnect(None)` the connection is not kept, and after
`Disconnect(Some(t))` it is kept until `t` at most, in every state of every continuation, if and only if every poll of
the continuation has something to report, or, in the second case, finds no substream left 20 seconds before `t`. -/
theorem disconnect_sticks_iff (io : BttStream S E) (h : BitTorrentHandler S U E V) (timeout : Option Instant)
    (ops : List (BitTorrentHandlerOp S U V)) (hops : ∀ op ∈ ops, op.isDisconnect = false) :
    (∀ pre, pre <+: ops → ∀ h', exec (BitTorrentHandler.next io) (h.injectEvent (.disconnect timeout)) pre = some h' →
        h'.keepAlive.Honours timeout) ↔
      Along (BitTorrentHandler.next io) (Reporting io timeout) (h.injectEvent (.disconnect timeout)) ops := by
  refine safe_iff_along_of (Q := fun op : BitTorrentHandlerOp S U V => op.isDisconnect = false) (I := fun pre => ∀ h',
    exec (BitTorrentHandler.next io) (h.injectEvent (.disconnect timeout)) pre = some h' → h'.keepAlive.Honours timeout)
    ?_ (fun pre hI => hI) ?_ ?_ ops hops
  · intro h' hrun
    cases timeout with
    | none =>
      cases hrun
      trivial
    | some t =>
      cases hrun
      exact Nat.le_refl t
  · intro pre op hop hI hreport h' hrun
    rw [exec_snoc] at hrun
    obtain ⟨h1, h1run, hnext⟩ := Option.bind_eq_some_iff.mp hrun
    obtain ⟨⟨event, h2⟩, hcall, rfl⟩ := Option.map_eq_some_iff.mp hnext
    rcases keepAlive_call hop hcall with hk | ⟨clock, l, rfl, hscan, hk⟩
    · rw [hk]
      exact hI h1 h1run
    · rw [hk]
      obtain ⟨hquiet, hfin⟩ := quiet_of_scan hscan
      obtain ⟨hover, hintime⟩ := hreport h1 clock h1run rfl hquiet
      exact (honours_keptAfter timeout clock l).mpr ⟨hfin.mp hover, hintime⟩
  · intro pre op hop hI hbad hhonours
    unfold Reporting at hbad
    push Not at hbad
    obtain ⟨h1, clock, h1run, rfl, hquiet, hlate⟩ := hbad
    obtain ⟨l, hscan⟩ := scan_of_quiet hquiet
    obtain ⟨l', -, hpoll⟩ := (poll_eq_scan h1).2 _ _ hscan
    have hrun : exec (BitTorrentHandler.next io) (h.injectEvent (.disconnect timeout)) (pre ++ [.poll clock])
        = some { h1 with substreams := l', keepAlive := keptAfter clock l } := by
      rw [exec_snoc, h1run, BitTorrentHandler.next, Option.bind_some, call, hpoll, Option.map_some]
      rfl
    obtain ⟨hnil, t, ht, hle⟩ := (honours_keptAfter timeout clock l).mp (hhonours _ hrun)
    exact absurd hle (Nat.not_le.mpr (hlate ((quiet_of_scan hscan).2.mpr hnil) t ht))

/-- the handler of a remote that has sent a handshake -/
def greeted : Option (BitTorrentHandler (List PeerMessage) Unit Unit Unit) :=
  exec (BitTorrentHandler.next scripted) (some withSeedLeechConfig)
    [.injectFullyNegotiatedInbound [.handshake (.new (.replicate 1) (.replicate 2))], pollNow]

/-- as long as the remote keeps the handler busy the order sticks -/
theorem disconnect_sticks_busy :
    ∃ h, greeted = some h ∧ ∀ h', exec (BitTorrentHandler.next scripted) (h.injectEvent (.disconnect none))
      [.injectFullyNegotiatedInbound [.interested], pollNow] = some h' → h'.keepAlive.Honours none := by
  refine ⟨_, rfl, ?_⟩
  refine (disconnect_sticks_iff scripted _ none [.injectFullyNegotiatedInbound [.interested], pollNow] (by decide)).mpr ?_ _
    (List.prefix_refl _)
  refine ⟨?_, ?_, trivial⟩
  · rintro h clock - ⟨⟩
  · rintro h clock ⟨⟩ ⟨⟩ hquiet
    -- the new substream has a message to hand on
    obtain ⟨s', hs⟩ := hquiet 1 _ rfl
    cases hs

/-- the next poll after the order has nothing to report, and keeps the connection -/
theorem disconnect_undone :
    ∃ h, greeted = some h ∧ ∃ h', exec (BitTorrentHandler.next scripted) (h.injectEvent (.disconnect none)) [pollNow] = some h' ∧
      h'.keepAlive = .yes ∧ ¬ h'.keepAlive.Honours none :=
  ⟨_, rfl, _, rfl, rfl, fun hyes => hyes⟩

end BitTorrentHandler

end Btt
