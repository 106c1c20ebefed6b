import BitTorrent.Behavior.Step

/-!
# Pending handshakes

A handshake with a peer that is known but not connected is kept in `pending_handshakes` until our dial has opened a
connection, and is queued then.  A connection that the peer opened meanwhile does not touch it: the peer is then in
both sets, the handshake is not sent, and no further one is taken.

* `contacts_step`         what a step does to the connected peers and the pending handshakes;
* `Unexpected`            a peer that opens a connection has no handshake pending;
* `HandshakesKept`        no peer is in both sets, handshakes that were asked for are queued, and new ones are taken;
* `handshakes_kept_iff`   the second holds along a run exactly if the first does.
-/

namespace Btt
open Run

/-- a handshake is asked for, or a connection opened or closed -/
def BehaviourOp.isContact : BehaviourOp → Bool
  | .handshakeKnownPeer _ _ => true
  | .injectConnected _ _ _ => true
  | .injectDisconnected _ _ => true
  | _ => false

/-- a connection to the peer is opened, from either side -/
def BehaviourOp.connects (p : PeerId) : BehaviourOp → Bool
  | .injectConnected _ q _ => decide (q = p)
  | _ => false

namespace BitTorrent
variable {File World Err : Type}

/-! ## one step -/

/-- the connected peers and the pending handshakes are left alone -/
def SameContacts (b b' : BitTorrent File World) : Prop :=
  b'.pendingHandshakes = b.pendingHandshakes ∧ b'.connectedPeers = b.connectedPeers

theorem sameContacts_addAddressTorrents (b : BitTorrent File World) (peer : PeerId) (address : Multiaddr)
    (torrents : List ShaHash) : SameContacts b (b.addAddressTorrents peer address torrents).2 := by
  unfold addAddressTorrents
  split <;> exact ⟨rfl, rfl⟩

theorem sameContacts_answerChoke (b : BitTorrent File World) (peer : PeerId) (choke : ChokeType)
    (r : Option TorrentId × TorrentPool) : SameContacts b (b.answerChoke peer choke r) := by
  unfold answerChoke
  split <;> exact ⟨rfl, rfl⟩

theorem sameContacts_addTorrent (b : BitTorrent File World) (torrent : MetaInfo) (config : TorrentConfig)
    (added : TorrentId → TorrentState → TorrentAddedOk) : SameContacts b (b.addTorrent torrent config added) := by
  unfold addTorrent
  split <;> exact ⟨rfl, rfl⟩

theorem sameContacts_injectNodeEvent (b : BitTorrent File World) (w : Walk) (now : Instant) (peer : PeerId)
    (event : BitTorrentHandlerEvent) : SameContacts b (b.injectNodeEvent w now peer event) := by
  cases event with
  | torrentErr => exact ⟨rfl, rfl⟩
  | interest inner => exact ⟨rfl, rfl⟩
  | keepAlive timestamp => exact ⟨rfl, rfl⟩
  | bitfieldRes indexField userData =>
    unfold injectNodeEvent
    simp only
    split
    · split <;> exact ⟨rfl, rfl⟩
    · exact ⟨rfl, rfl⟩
  | _ =>
    unfold injectNodeEvent
    simp only
    split <;> exact ⟨rfl, rfl⟩

theorem sameContacts_pollPool (b : BitTorrent File World) (now : Instant) (e : PoolEnv) :
    SameContacts b (b.pollPool now e).2 := by
  unfold pollPool
  split <;> exact ⟨rfl, rfl⟩

theorem sameContacts_onDiskMessage (b : BitTorrent File World) (peers : Arrangement PeerId) (msg : DiskMessageOut) :
    SameContacts b (b.onDiskMessage peers msg).2 := by
  cases msg with
  | blockRead torrent block =>
    unfold onDiskMessage
    simp only
    split <;> exact ⟨rfl, rfl⟩
  | pieceWritten torrentId block =>
    unfold onDiskMessage
    simp only
    split <;> exact ⟨rfl, rfl⟩
  | _ => exact ⟨rfl, rfl⟩

/-- the handshake that `handshakeKnownPeer p t` asked for, or the report that there is no such torrent -/
inductive Handshakes (p : PeerId) (t : ShaHash) : NetworkBehaviourAction → Prop
  | sent (hash : ShaHash) (id : TorrentId) : Handshakes p t (.sendEvent p (.handshakeReq (.new t hash) id))
  | missing : Handshakes p t (.generateEvent (.handshakeResult (.error (.infoHashNotFound p t))))

theorem sendHandshake_queues (b : BitTorrent File World) (w : Walk) (t : ShaHash) (p : PeerId) :
    ∃ a, b.sendHandshake w t p = b.queue [a] ∧ Handshakes p t a := by
  unfold sendHandshake
  split
  · exact ⟨_, rfl, .sent _ _⟩
  · exact ⟨_, rfl, .missing⟩

/-- what a step does to the connected peers and the pending handshakes -/
inductive Contacts (b b' : BitTorrent File World) : BehaviourOp → Prop
  | asked {p : PeerId} {t : ShaHash} (hok : (b.handshakeKnownPeer p t).1 = .ok ())
      (hpending : p ∉ b.pendingHandshakes) (hconnected : p ∉ b.connectedPeers)
      (hafter : b'.pendingHandshakes = b.pendingHandshakes.insert p t)
      (hsame : b'.connectedPeers = b.connectedPeers) : Contacts b b' (.handshakeKnownPeer p t)
  | refused {p : PeerId} {t : ShaHash} (hno : (b.handshakeKnownPeer p t).1 ≠ .ok ())
      (hsame : SameContacts b b') : Contacts b b' (.handshakeKnownPeer p t)
  | dialed {w : Walk} {p : PeerId} (hafter : b'.pendingHandshakes = b.pendingHandshakes.erase p)
      (hconnected : b'.connectedPeers = insert p b.connectedPeers)
      (hqueued : ∀ t, b.pendingHandshakes.lookup p = some t →
        ∃ a, b'.queuedEvents = b.queuedEvents ++ [a] ∧ Handshakes p t a) : Contacts b b' (.injectConnected w p .dialer)
  | accepted {w : Walk} {p : PeerId} {addr : Multiaddr} (hsame : b'.pendingHandshakes = b.pendingHandshakes)
      (hconnected : b'.connectedPeers = insert p b.connectedPeers) :
      Contacts b b' (.injectConnected w p (.listener addr))
  | closed {w : Walk} {p : PeerId} (hsame : b'.pendingHandshakes = b.pendingHandshakes)
      (hconnected : b'.connectedPeers = b.connectedPeers.erase p) : Contacts b b' (.injectDisconnected w p)
  | other {op : BehaviourOp} (hop : op.isContact = false) (hsame : SameContacts b b') : Contacts b b' op

section
variable {fs : FileSystem File World Err} {sha1 : List UInt8 → ShaHash} {b b' : BitTorrent File World}

theorem contacts_handshakeKnownPeer (b : BitTorrent File World) (p : PeerId) (t : ShaHash) :
    Contacts b (b.handshakeKnownPeer p t).2 (.handshakeKnownPeer p t) := by
  by_cases hbusy : p ∈ b.pendingHandshakes ∨ p ∈ b.connectedPeers
  · have heq : b.handshakeKnownPeer p t = (.error (p, t), b) := if_pos hbusy
    rw [heq]
    refine .refused ?_ ⟨rfl, rfl⟩
    rw [heq]
    intro h
    cases h
  · obtain ⟨hpending, hconnected⟩ := not_or.mp hbusy
    by_cases hknown : p ∈ b.knownPeers
    · have hok : (b.handshakeKnownPeer p t).1 = .ok () := by
        rw [handshakeKnownPeer, if_neg hbusy, if_pos hknown]
      refine .asked hok hpending hconnected ?_ ?_
      · rw [handshakeKnownPeer, if_neg hbusy, if_pos hknown]
      · rw [handshakeKnownPeer, if_neg hbusy, if_pos hknown]
        rfl
    · have heq : b.handshakeKnownPeer p t = (.error (p, t), b) := by
        rw [handshakeKnownPeer, if_neg hbusy, if_neg hknown]
      rw [heq]
      refine .refused ?_ ⟨rfl, rfl⟩
      rw [heq]
      intro h
      cases h

theorem contacts_injectConnected (b : BitTorrent File World) (w : Walk) (p : PeerId) (e : ConnectedPoint) :
    Contacts b (b.injectConnected w p e) (.injectConnected w p e) := by
  cases e with
  | dialer =>
    unfold injectConnected
    simp only
    split
    · rename_i t ht
      obtain ⟨a, hqueue, ha⟩ := sendHandshake_queues
        { b with pendingHandshakes := b.pendingHandshakes.erase p } w t p
      rw [hqueue]
      refine .dialed rfl rfl ?_
      intro t' ht'
      cases ht.symm.trans ht'
      exact ⟨a, rfl, ha⟩
    · rename_i hnone
      refine .dialed ?_ rfl ?_
      · have hnot : p ∉ b.pendingHandshakes.keys := AList.lookup_eq_none.mp hnone
        exact AList.ext (List.kerase_of_notMem_keys hnot).symm
      · intro t ht
        cases hnone.symm.trans ht
  | listener addr =>
    obtain ⟨hpending, hconnected⟩ := sameContacts_addAddressTorrents b p addr []
    refine .accepted hpending ?_
    show insert p (b.addAddressTorrents p addr []).2.connectedPeers = _
    rw [hconnected]

theorem contacts_step {op : BehaviourOp} (h : b.step fs sha1 op = some b') : Contacts b b' op := by
  cases op with
  | handshakeKnownPeer p t =>
    cases h
    exact contacts_handshakeKnownPeer b p t
  | injectConnected w p e =>
    cases h
    exact contacts_injectConnected b w p e
  | injectDisconnected w p =>
    cases h
    exact .closed rfl rfl
  | addAddressTorrents peer address torrents =>
    cases h
    exact .other rfl (sameContacts_addAddressTorrents b peer address torrents)
  | chokePeer w peer =>
    cases h
    exact .other rfl (sameContacts_answerChoke b peer _ _)
  | unchokePeer w peer =>
    cases h
    exact .other rfl (sameContacts_answerChoke b peer _ _)
  | addLeech torrent state =>
    obtain ⟨config, -, rfl⟩ := Option.map_eq_some_iff.mp h
    exact .other rfl (sameContacts_addTorrent b torrent config _)
  | addSeed torrent state =>
    obtain ⟨config, -, rfl⟩ := Option.map_eq_some_iff.mp h
    exact .other rfl (sameContacts_addTorrent b torrent config _)
  | injectNodeEvent w now peer event =>
    cases h
    exact .other rfl (sameContacts_injectNodeEvent b w now peer event)
  | popEvent =>
    cases h
    exact .other rfl ⟨rfl, rfl⟩
  | pollPool now e =>
    cases h
    exact .other rfl (sameContacts_pollPool b now e)
  | pollDisk e =>
    obtain ⟨r, hr, rfl⟩ := Option.map_eq_some_iff.mp h
    rcases pollDisk_cases hr with ⟨msg, dm, -, -, rfl⟩ | ⟨dm, -, -, rfl⟩
    · exact .other rfl (sameContacts_onDiskMessage { b with diskManager := dm } e.peers msg)
    · exact .other rfl ⟨rfl, rfl⟩

/-- a peer that opens a connection has no handshake pending -/
def Unexpected (s : Option (BitTorrent File World)) (op : BehaviourOp) : Prop :=
  ∀ b w p addr, s = some b → op = .injectConnected w p (.listener addr) → p ∉ b.pendingHandshakes

theorem Contacts.apart {op : BehaviourOp} (h : Contacts b b' op) (hop : Unexpected (some b) op)
    (hb : ∀ p ∈ b.pendingHandshakes, p ∉ b.connectedPeers) : ∀ p ∈ b'.pendingHandshakes, p ∉ b'.connectedPeers := by
  intro p hp
  cases h with
  | asked hok hpending hconnected hafter hsame =>
    rw [hsame]
    rw [hafter, AList.mem_insert] at hp
    rcases hp with rfl | hp
    · exact hconnected
    · exact hb p hp
  | refused hno hsame =>
    rw [hsame.2]
    rw [hsame.1] at hp
    exact hb p hp
  | dialed hafter hconnected hqueued =>
    rw [hafter, AList.mem_erase] at hp
    rw [hconnected, Finset.mem_insert]
    exact not_or.mpr ⟨hp.1, hb p hp.2⟩
  | @accepted w q addr hsame hconnected =>
    rw [hsame] at hp
    rw [hconnected, Finset.mem_insert]
    refine not_or.mpr ⟨?_, hb p hp⟩
    rintro rfl
    exact hop b w p addr rfl rfl hp
  | closed hsame hconnected =>
    rw [hsame] at hp
    rw [hconnected]
    exact fun hmem => hb p hp (Finset.mem_of_mem_erase hmem)
  | other hop hsame =>
    rw [hsame.2]
    rw [hsame.1] at hp
    exact hb p hp

/-- a handshake stays pending until it is queued -/
theorem Contacts.stays {op : BehaviourOp} {p : PeerId} {t : ShaHash} (h : Contacts b b' op)
    (hp : b.pendingHandshakes.lookup p = some t) :
    b'.pendingHandshakes.lookup p = some t ∨ ∃ a, b'.queuedEvents = b.queuedEvents ++ [a] ∧ Handshakes p t a := by
  cases h with
  | @asked q t' hok hpending hconnected hafter hsame =>
    have hne : p ≠ q := by
      rintro rfl
      exact hpending (AList.mem_of_lookup hp)
    left
    rw [hafter, AList.lookup_insert_ne hne, hp]
  | refused hno hsame =>
    left
    rw [hsame.1, hp]
  | @dialed w q hafter hconnected hqueued =>
    by_cases hq : p = q
    · subst hq
      exact Or.inr (hqueued t hp)
    · left
      rw [hafter, AList.lookup_erase_ne hq, hp]
  | accepted hsame hconnected =>
    left
    rw [hsame, hp]
  | closed hsame hconnected =>
    left
    rw [hsame, hp]
  | other hop hsame =>
    left
    rw [hsame.1, hp]

/-- a handshake that is pending was asked for just now, or was pending before and no connection opened -/
theorem Contacts.was {op : BehaviourOp} {p : PeerId} {t : ShaHash} (h : Contacts b b' op)
    (hop : Unexpected (some b) op) (hp : b'.pendingHandshakes.lookup p = some t) :
    (op = .handshakeKnownPeer p t ∧ (b.handshakeKnownPeer p t).1 = .ok ()) ∨
      (b.pendingHandshakes.lookup p = some t ∧ op.connects p = false) := by
  cases h with
  | @asked q t' hok hpending hconnected hafter hsame =>
    rw [hafter] at hp
    by_cases hq : p = q
    · subst hq
      rw [AList.lookup_insert] at hp
      cases hp
      exact Or.inl ⟨rfl, hok⟩
    · rw [AList.lookup_insert_ne hq] at hp
      exact Or.inr ⟨hp, rfl⟩
  | refused hno hsame =>
    rw [hsame.1] at hp
    exact Or.inr ⟨hp, rfl⟩
  | @dialed w q hafter hconnected hqueued =>
    rw [hafter] at hp
    by_cases hq : p = q
    · subst hq
      rw [AList.lookup_erase] at hp
      cases hp
    · rw [AList.lookup_erase_ne hq] at hp
      exact Or.inr ⟨hp, decide_eq_false fun h => hq h.symm⟩
  | @accepted w q addr hsame hconnected =>
    rw [hsame] at hp
    refine Or.inr ⟨hp, decide_eq_false ?_⟩
    rintro rfl
    exact hop b w q addr rfl rfl (AList.mem_of_lookup hp)
  | closed hsame hconnected =>
    rw [hsame] at hp
    exact Or.inr ⟨hp, rfl⟩
  | other hother hsame =>
    rw [hsame.1] at hp
    refine Or.inr ⟨hp, ?_⟩
    cases op with
    | injectConnected w q e => cases hother
    | _ => rfl

/-- a handshake that was taken is pending -/
theorem Contacts.taken {p : PeerId} {t : ShaHash} (h : Contacts b b' (.handshakeKnownPeer p t))
    (hok : (b.handshakeKnownPeer p t).1 = .ok ()) : b'.pendingHandshakes.lookup p = some t := by
  cases h with
  | asked _ hpending hconnected hafter hsame => rw [hafter, AList.lookup_insert]
  | refused hno hsame => exact absurd hok hno
  | other hop hsame => cases hop

end

/-! ## runs -/

section
variable (fs : FileSystem File World Err) (sha1 : List UInt8 → ShaHash)

/-- in the run, `handshakeKnownPeer p t` succeeds between `pre` and `post` -/
structure Asks (s : Option (BitTorrent File World)) (ops pre : List BehaviourOp) (p : PeerId) (t : ShaHash)
    (post : List BehaviourOp) : Prop where
  split : ops = pre ++ .handshakeKnownPeer p t :: post
  ok : ∃ b, exec (next fs sha1) s pre = some b ∧ (b.handshakeKnownPeer p t).1 = .ok ()

/-- a step of the run queues the handshake -/
def Answers (s : Option (BitTorrent File World)) (ops : List BehaviourOp) (p : PeerId) (t : ShaHash) : Prop :=
  ∃ pre op post b b' a, ops = pre ++ op :: post ∧ exec (next fs sha1) s pre = some b ∧
    b.step fs sha1 op = some b' ∧ b'.queuedEvents = b.queuedEvents ++ [a] ∧ Handshakes p t a

/-- pending handshakes belong to peers that are not connected -/
structure HandshakesKept (s : Option (BitTorrent File World)) (ops : List BehaviourOp) (b : BitTorrent File World) :
    Prop where
  apart : ∀ p ∈ b.pendingHandshakes, p ∉ b.connectedPeers
  /-- once the peer is connected, a handshake that was asked for has been queued -/
  answered : ∀ pre p t post, Asks fs sha1 s ops pre p t post → p ∈ b.connectedPeers →
    Answers fs sha1 (exec (next fs sha1) s (pre ++ [.handshakeKnownPeer p t])) post p t
  /-- if a connection was opened since the last handshake, the next one can be asked for -/
  again : ∀ p t, p ∈ b.knownPeers → p ∉ b.connectedPeers →
    (∀ pre t' post, Asks fs sha1 s ops pre p t' post → ∃ op ∈ post, op.connects p = true) →
    (b.handshakeKnownPeer p t).1 = .ok ()

/-- the invariant: the pending handshakes are those that no connection was opened for -/
structure Keeping (s : Option (BitTorrent File World)) (ops : List BehaviourOp) (b : BitTorrent File World) :
    Prop where
  apart : ∀ p ∈ b.pendingHandshakes, p ∉ b.connectedPeers
  kept : ∀ pre p t post, Asks fs sha1 s ops pre p t post →
    Answers fs sha1 (exec (next fs sha1) s (pre ++ [.handshakeKnownPeer p t])) post p t ∨
      b.pendingHandshakes.lookup p = some t
  pending : ∀ p t, b.pendingHandshakes.lookup p = some t →
    ∃ pre post, Asks fs sha1 s ops pre p t post ∧ ∀ op ∈ post, op.connects p = false

end

section
variable {fs : FileSystem File World Err} {sha1 : List UInt8 → ShaHash} {s : Option (BitTorrent File World)}
  {ops pre post : List BehaviourOp} {b b' : BitTorrent File World} {op : BehaviourOp} {p : PeerId} {t : ShaHash}

theorem Asks.snoc (h : Asks fs sha1 s ops pre p t post) (op : BehaviourOp) :
    Asks fs sha1 s (ops ++ [op]) pre p t (post ++ [op]) := by
  refine ⟨?_, h.ok⟩
  rw [h.split, List.append_assoc, List.cons_append]

/-- the handshake was asked for before the last step, or is the last step -/
theorem Asks.of_snoc (h : Asks fs sha1 s (ops ++ [op]) pre p t post) :
    (∃ before, post = before ++ [op] ∧ Asks fs sha1 s ops pre p t before) ∨
      post = [] ∧ pre = ops ∧ op = .handshakeKnownPeer p t := by
  rcases List.eq_nil_or_concat post with rfl | ⟨before, last, rfl⟩
  · obtain ⟨rfl, hop⟩ := List.append_inj' h.split rfl
    exact Or.inr ⟨rfl, rfl, List.head_eq_of_cons_eq hop⟩
  · rw [List.concat_eq_append]
    have hsplit : ops ++ [op] = (pre ++ .handshakeKnownPeer p t :: before) ++ [last] := by
      rw [h.split, List.concat_eq_append, List.append_assoc, List.cons_append]
    obtain ⟨hops, hop⟩ := List.append_inj' hsplit rfl
    obtain rfl : op = last := List.head_eq_of_cons_eq hop
    exact Or.inl ⟨before, rfl, hops, h.ok⟩

theorem Answers.snoc (h : Answers fs sha1 s ops p t) (op : BehaviourOp) : Answers fs sha1 s (ops ++ [op]) p t := by
  obtain ⟨pre, o, post, b, b', a, rfl, hb, hstep, hqueue, ha⟩ := h
  refine ⟨pre, o, post ++ [op], b, b', a, ?_, hb, hstep, hqueue, ha⟩
  rw [List.append_assoc, List.cons_append]

/-- the last step is the one that queues -/
theorem answers_last {a : NetworkBehaviourAction} (hb : exec (next fs sha1) s ops = some b)
    (hstep : b.step fs sha1 op = some b') (hqueue : b'.queuedEvents = b.queuedEvents ++ [a])
    (ha : Handshakes p t a) : Answers fs sha1 s (ops ++ [op]) p t :=
  ⟨ops, op, [], b, b', a, rfl, hb, hstep, hqueue, ha⟩

theorem Asks.exec (h : Asks fs sha1 s ops pre p t post) :
    exec (next fs sha1) (exec (next fs sha1) s (pre ++ [.handshakeKnownPeer p t])) post
      = exec (next fs sha1) s ops := by
  rw [← exec_append, h.split, List.append_assoc, List.singleton_append]

/-- the property follows from the invariant -/
theorem Keeping.handshakesKept (h : Keeping fs sha1 s ops b) : HandshakesKept fs sha1 s ops b := by
  refine ⟨h.apart, ?_, ?_⟩
  · intro pre p t post hasks hconnected
    rcases h.kept pre p t post hasks with hanswers | hpending
    · exact hanswers
    · exact absurd hconnected (h.apart p (AList.mem_of_lookup hpending))
  · intro p t hknown hconnected hopened
    have hpending : p ∉ b.pendingHandshakes := by
      intro hp
      obtain ⟨t', ht'⟩ := AList.mem_iff_lookup.mp hp
      obtain ⟨pre, post, hasks, hnone⟩ := h.pending p t' ht'
      obtain ⟨op, hop, hconnects⟩ := hopened pre t' post hasks
      rw [hnone op hop] at hconnects
      cases hconnects
    rw [handshakeKnownPeer, if_neg (not_or.mpr ⟨hpending, hconnected⟩), if_pos hknown]

theorem Keeping.step (h : Keeping fs sha1 s ops b) (hb : exec (next fs sha1) s ops = some b)
    (hop : Unexpected (some b) op) (hstep : b.step fs sha1 op = some b') : Keeping fs sha1 s (ops ++ [op]) b' := by
  have hcontacts := contacts_step hstep
  refine ⟨hcontacts.apart hop h.apart, ?_, ?_⟩
  · intro pre p t post hasks
    rcases hasks.of_snoc with ⟨before, rfl, hbefore⟩ | ⟨rfl, rfl, rfl⟩
    · rcases h.kept pre p t before hbefore with hanswers | hpending
      · exact Or.inl (hanswers.snoc op)
      · rcases hcontacts.stays hpending with hstill | ⟨a, hqueue, ha⟩
        · exact Or.inr hstill
        · exact Or.inl (answers_last (hbefore.exec.trans hb) hstep hqueue ha)
    · obtain ⟨b₀, hb₀, hok⟩ := hasks.ok
      cases hb.symm.trans hb₀
      exact Or.inr (hcontacts.taken hok)
  · intro p t hp
    rcases hcontacts.was hop hp with ⟨rfl, hok⟩ | ⟨hpending, hclosed⟩
    · refine ⟨ops, [], ⟨rfl, b, hb, hok⟩, ?_⟩
      intro o ho
      cases ho
    · obtain ⟨pre, post, hasks, hnone⟩ := h.pending p t hpending
      refine ⟨pre, post ++ [op], hasks.snoc op, ?_⟩
      intro o ho
      rcases List.mem_append.mp ho with ho | ho
      · exact hnone o ho
      · rw [List.mem_singleton.mp ho]
        exact hclosed

/-- a connection that a peer opens while we wait for our own leaves the peer in both sets -/
theorem not_apart_of_expected (hop : ¬ Unexpected (some b) op) :
    ∃ b', b.step fs sha1 op = some b' ∧ ¬ ∀ p ∈ b'.pendingHandshakes, p ∉ b'.connectedPeers := by
  unfold Unexpected at hop
  push Not at hop
  obtain ⟨b₁, w, p, addr, hb, rfl, hp⟩ := hop
  cases hb
  refine ⟨_, rfl, ?_⟩
  intro hapart
  obtain ⟨hpending, -⟩ := sameContacts_addAddressTorrents b p addr []
  refine hapart p ?_ (Finset.mem_insert_self p _)
  show p ∈ (b.addAddressTorrents p addr []).2.pendingHandshakes
  rw [hpending]
  exact hp

end

/-- **Pending handshakes belong to peers that are not connected**, exactly in the runs in which no peer opens a
connection while a handshake with it is pending. -/
theorem handshakes_kept_iff (fs : FileSystem File World Err) (sha1 : List UInt8 → ShaHash) (random : ShaHash)
    (world : World) (config : BitTorrentConfig) (ops : List BehaviourOp) :
    (∀ pre, pre <+: ops → ∀ b, exec (next fs sha1) (some (withConfig random world config)) pre = some b →
      HandshakesKept fs sha1 (some (withConfig random world config)) pre b) ↔
      Along (next fs sha1) Unexpected (some (withConfig random world config)) ops := by
  refine safe_iff_along_some (next fs sha1) (I := Keeping fs sha1 (some (withConfig random world config))) (fun s op => rfl)
    ?_ ?_ ?_ ?_ ?_ ops
  · rintro op b w p addr ⟨⟩
  · rintro b ⟨⟩
    refine ⟨?_, ?_, ?_⟩
    · intro p hp
      cases hp
    · intro pre p t post hasks
      cases pre with
      | nil => cases hasks.split
      | cons op pre => cases hasks.split
    · intro p t hp
      cases hp
  · intro pre b hb h
    exact h.handshakesKept
  · intro pre op b b' hb h hop hstep
    exact h.step hb hop hstep
  · intro pre op b hb h hop
    obtain ⟨b', hstep, hbad⟩ := not_apart_of_expected hop
    exact ⟨b', hstep, fun hkept => hbad hkept.apart⟩

/-- a peer we learn of, and a handshake with it -/
def asking : List BehaviourOp :=
  [.addAddressTorrents ⟨[7]⟩ ⟨[1]⟩ [], .handshakeKnownPeer ⟨[7]⟩ (.replicate 3)]

/-- our own dial succeeds: the torrent is not there, so that is reported, and a next handshake can be asked for -/
theorem handshakes_kept_dialed :
    ∃ b, exec (next instantDisk firstByte) (some (withConfig (.replicate 0) () .default))
        (asking ++ [.injectConnected .same ⟨[7]⟩ .dialer, .injectDisconnected .same ⟨[7]⟩]) = some b ∧
      b.queuedEvents = [.dialPeer ⟨[7]⟩,
        .generateEvent (.handshakeResult (.error (.infoHashNotFound ⟨[7]⟩ (.replicate 3))))] ∧
      HandshakesKept instantDisk firstByte (some (withConfig (.replicate 0) () .default))
        (asking ++ [.injectConnected .same ⟨[7]⟩ .dialer, .injectDisconnected .same ⟨[7]⟩]) b := by
  refine ⟨_, rfl, rfl, ?_⟩
  refine (handshakes_kept_iff instantDisk firstByte (.replicate 0) () .default (asking ++
    [.injectConnected .same ⟨[7]⟩ .dialer, .injectDisconnected .same ⟨[7]⟩])).mpr ?_ _ (List.prefix_refl _) _ rfl
  refine ⟨?_, ?_, ?_, ?_, trivial⟩
  iterate 4 rintro b w p addr - ⟨⟩

/-- The peer opens a connection first: it is in both sets, its handshake is not queued, and after the connection is
gone no other one is taken. -/
theorem crossed_connection :
    ∃ b b', exec (next instantDisk firstByte) (some (withConfig (.replicate 0) () .default))
        (asking ++ [.injectConnected .same ⟨[7]⟩ (.listener ⟨[1]⟩)]) = some b ∧
      (⟨[7]⟩ : PeerId) ∈ b.pendingHandshakes ∧ ⟨[7]⟩ ∈ b.connectedPeers ∧ b.queuedEvents = [.dialPeer ⟨[7]⟩] ∧
      b.step instantDisk firstByte (.injectDisconnected .same ⟨[7]⟩) = some b' ∧
      (⟨[7]⟩ : PeerId) ∈ b'.knownPeers ∧ ⟨[7]⟩ ∉ b'.connectedPeers ∧
      (b'.handshakeKnownPeer ⟨[7]⟩ (.replicate 3)).1 ≠ .ok () ∧
      ¬ HandshakesKept instantDisk firstByte (some (withConfig (.replicate 0) () .default))
        (asking ++ [.injectConnected .same ⟨[7]⟩ (.listener ⟨[1]⟩)]) b := by
  refine ⟨_, _, rfl, by decide, by decide, rfl, rfl, by decide, by decide, ?_, ?_⟩
  · intro h
    cases h
  · intro h
    exact absurd (h.apart ⟨[7]⟩ (by decide)) (by decide)

end BitTorrent

end Btt
