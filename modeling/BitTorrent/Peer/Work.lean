import Mathlib.Algebra.BigOperators.Group.Finset.Basic
import Mathlib.Algebra.Order.BigOperators.Group.Finset
import BitTorrent.Peer.Completion

/-!
# The work left in a pool

A poll that completes a piece leaves less to do: the pieces that are not owned, and the buffer of a piece that
was set as owned while it was being loaded (`work`).

* `TorrentPieceHandler.work_poll`   no poll of a handler adds to its work, and one that finishes a piece takes
                                    from it;
* `TorrentPool.work_poll`           the same for a poll of the pool;
* `Silent`                          a peer whose heartbeat is overdue, while ours is not;
* `timeout_silent`, `poll_silent`   a poll reports such peers only, and one that is walked first.
-/

namespace Btt
open Run

/-! ## one handler -/

namespace TorrentPieceHandler

/-- the piece in the buffer is owned already -/
def stale (h : TorrentPieceHandler) : Nat :=
  match h.pieceBuffer with
  | some b => if h.bitfield.get b.pieceIndex = some false then 0 else 1
  | none => 0

/-- the pieces still to be completed -/
def work (h : TorrentPieceHandler) : Nat := h.bitfield.inner.count false + h.stale

theorem stale_none {h : TorrentPieceHandler} (hb : h.pieceBuffer = none) : h.stale = 0 := by
  unfold stale
  rw [hb]

/-- the work with a buffer: the piece in it counts once -/
theorem work_some {h : TorrentPieceHandler} {b : PieceBuffer} (hb : h.pieceBuffer = some b) :
    h.work = h.bitfield.inner.count false + if h.bitfield.get b.pieceIndex = some false then 0 else 1 := by
  unfold work stale
  rw [hb]

/-- once the piece in the buffer is set and the buffer gone, there is less to do -/
theorem work_set {h h' : TorrentPieceHandler} {b : PieceBuffer} (hb : h.pieceBuffer = some b)
    (hi : b.pieceIndex < h.bitfield.len) (hb' : h'.pieceBuffer = none)
    (hbits : h'.bitfield = h.bitfield.set b.pieceIndex true) : h'.work < h.work := by
  have hcount : (h.bitfield.inner.set b.pieceIndex true).count false
      = h.bitfield.inner.count false - (if h.bitfield.inner[b.pieceIndex] == false then 1 else 0) + 0 :=
    List.count_set hi
  have hget : h.bitfield.get b.pieceIndex = some h.bitfield.inner[b.pieceIndex] := List.getElem?_eq_getElem hi
  rw [work_some hb, work, stale_none hb', hbits, BitField.set]
  cases hbit : h.bitfield.inner[b.pieceIndex] with
  | true =>
    rw [hbit] at hcount hget
    simp only [hcount, hget, Option.some.injEq, Bool.true_eq_false, if_false, beq_false, Bool.not_true,
      Bool.false_eq_true]
    omega
  | false =>
    have hpos : 0 < h.bitfield.inner.count false := by
      refine List.count_pos_iff.mpr ?_
      rw [← hbit]
      exact List.getElem_mem hi
    rw [hbit] at hcount hget
    simp only [hcount, hget, if_true, beq_false, Bool.not_false]
    omega

theorem pieceIndex_next (b : PieceBuffer) : b.next.2.pieceIndex = b.pieceIndex := by
  rcases b.next_cases with ⟨peers, peer, missing, block, -, -, e⟩ | e <;> rw [e]

/-- **A poll of the handler.** -/
theorem work_poll {h : TorrentPieceHandler} (hs : h.Solid) (env : PollEnv) :
    (h.poll env).2.work ≤ h.work ∧
      ∀ r, (h.poll env).1 = .pieceFinished r → (h.poll env).2.work < h.work := by
  have hset : ∀ b block, h.pieceBuffer = some b → b.isFullPiece = true → b.tryFinalizePiece = .ok block →
      ({ h with pieceBuffer := none, bitfield := h.bitfield.set block.metadata.pieceIndex true }
        : TorrentPieceHandler).work < h.work := by
    intro b block hb hfull hfin
    obtain ⟨hsound, -, -, hi⟩ := hs b hb
    obtain ⟨data, hd, -, -⟩ := hsound.finalize hfull
    rw [hd] at hfin
    cases hfin
    exact work_set hb hi rfl rfl
  rcases h.poll_cases env with ⟨b, block, hb, hfull, hfin, e⟩ | ⟨b, err, hb, hfull, hfin, e⟩ |
    ⟨b, hb, -, e⟩ | ⟨b, hb, hnext, e⟩ | ⟨-, st, hst, e⟩ | ⟨-, e⟩ <;> rw [e]
  · have hlt := hset b block hb hfull hfin
    exact ⟨Nat.le_of_lt hlt, fun _ _ => hlt⟩
  · -- a full buffer of a solid handler can be put together
    obtain ⟨data, hd, -, -⟩ := (hs b hb).1.finalize hfull
    rw [hd] at hfin
    cases hfin
  · refine ⟨?_, fun r hr => by cases hr⟩
    rw [work_some hb]
    refine Nat.le_of_eq ((work_some rfl).trans ?_)
    rw [pieceIndex_next]
  · -- the piece that is selected is a missing one
    obtain ⟨i, peers, hi, -, rfl⟩ := nextPieceBuffer_spec hnext
    refine ⟨Nat.le_of_eq ((work_some rfl).trans ?_), fun r hr => by cases hr⟩
    rw [pieceIndex_next, show (h.bufferFor i peers).pieceIndex = i from rfl, work, stale_none hb]
    rw [if_pos hi]
  · refine ⟨Nat.le_refl _, ?_⟩
    intro r hr
    rcases hst with rfl | rfl <;> cases hr
  · exact ⟨Nat.le_refl _, fun r hr => by cases hr⟩

end TorrentPieceHandler

/-! ## one torrent -/

/-- the remote has not been heard of for too long, and it is not our turn to send a heartbeat -/
def BitTorrentPeer.Silent (p : BitTorrentPeer) (now : Instant) : Prop :=
  p.isRemoteTimeout now = true ∧ p.isClientTimeout now = false

namespace Torrent
variable {t : Torrent} {now clock : Instant} {env : PollEnv}

theorem work_poll (hs : t.pieceHandler.Solid) (now clock : Instant) (env : PollEnv) :
    (t.poll now clock env).2.pieceHandler.work ≤ t.pieceHandler.work ∧
      ∀ r, (t.poll now clock env).1 = .pieceReady r →
        (t.poll now clock env).2.pieceHandler.work < t.pieceHandler.work := by
  rcases t.poll_cases now clock env with ⟨p, e⟩ | ⟨p, e⟩ | ⟨sl, e⟩ <;> rw [e]
  · obtain ⟨peers, hp⟩ := t.pieceHandler.replacePeer_eq p (·.clientHeartbeat) ({ · with clientHeartbeat := clock })
    have hsame : (t.act (.setClientHeartbeat p clock)).pieceHandler = { t.pieceHandler with peers := peers } := hp
    rw [hsame]
    exact ⟨Nat.le_refl _, fun r hr => by cases hr⟩
  · exact ⟨Nat.le_refl _, fun r hr => by cases hr⟩
  · obtain ⟨hle, hlt⟩ := TorrentPieceHandler.work_poll hs env
    refine ⟨hle, ?_⟩
    intro r hr
    cases hp : (t.pieceHandler.poll env).1 with
    | pieceFinished res => exact hlt res hp
    | leechBlock next =>
      rw [hp] at hr
      cases next <;> cases hr
    | _ =>
      rw [hp] at hr
      cases hr

/-- a poll changes the record of a peer only if it sends a heartbeat -/
theorem peers_poll (t : Torrent) (now clock : Instant) (env : PollEnv) :
    (∃ p, (t.poll now clock env).1 = .keepAlive t.id p) ∨
      (t.poll now clock env).2.pieceHandler.peers = t.pieceHandler.peers := by
  rcases t.poll_cases now clock env with ⟨p, e⟩ | ⟨p, e⟩ | ⟨sl, e⟩ <;> rw [e]
  · exact Or.inl ⟨p, rfl⟩
  · exact Or.inr rfl
  · exact Or.inr (t.pieceHandler.lookup_poll env)

/-- a peer that is reported is silent -/
theorem timeout_silent {id : TorrentId} {p : PeerId} (h : (t.poll now clock env).1 = .timeout id p) :
    ∃ r, t.pieceHandler.peers.lookup p = some r ∧ r.Silent now := by
  unfold Torrent.poll at h
  split at h
  · rename_i e he
    have htest : (e.2.isClientTimeout now || e.2.isRemoteTimeout now) = true := by simpa using List.find?_some he
    split at h
    · cases h
    · rename_i hclient
      cases h
      have hlookup := AList.mem_entries.mp (env.order.mem_run.mp (List.mem_of_find?_eq_some he))
      rw [Bool.eq_false_iff.mpr hclient, Bool.false_or] at htest
      exact ⟨e.2, hlookup, htest, Bool.eq_false_iff.mpr hclient⟩
  · exfalso
    simp only at h
    split at h <;> cases h

/-- a silent peer that is walked first is reported, and nothing changes -/
theorem poll_silent {p : PeerId} {r : BitTorrentPeer} (hp : t.pieceHandler.peers.lookup p = some r)
    (hr : r.Silent now) (clock : Instant) (shuffle : Arrangement Nat) :
    t.poll now clock ⟨shuffle, .front fun e => e.1 = p⟩ = (.timeout t.id p, t) := by
  obtain ⟨post, hrun⟩ := AList.run_front hp
  have hfind : ((Arrangement.front fun e : Sigma fun _ : PeerId => BitTorrentPeer => decide (e.1 = p)).run
      t.pieceHandler.peers.entries).find? (fun e => e.2.isClientTimeout now || e.2.isRemoteTimeout now)
        = some ⟨p, r⟩ := by
    rw [hrun]
    exact List.find?_cons_of_pos (by rw [hr.1, Bool.or_true])
  unfold Torrent.poll
  simp only [hfind, hr.2]
  rfl

end Torrent

/-! ## the pool -/

namespace TorrentPool

/-- the work of the torrent `id` -/
def workOf (pool : TorrentPool) (id : TorrentId) : Nat :=
  (pool.torrents.lookup id).elim 0 fun T => T.pieceHandler.work

/-- the work of all torrents -/
def work (pool : TorrentPool) : Nat := ∑ i ∈ Finset.range pool.nextUniqueTorrent, pool.workOf ⟨i⟩

/-- no active torrent tracks a silent peer -/
def NoneSilent (pool : TorrentPool) (now : Instant) : Prop :=
  ∀ T ∈ pool.torrents.vals, T.isActive = true → ∀ e ∈ T.pieceHandler.peers.entries,
    e.2.isRemoteTimeout now = true → e.2.isClientTimeout now = true

instance NoneSilent.decidable (pool : TorrentPool) (now : Instant) : Decidable (pool.NoneSilent now) :=
  inferInstanceAs (Decidable (∀ T ∈ pool.torrents.vals, T.isActive = true → ∀ e ∈ T.pieceHandler.peers.entries,
    e.2.isRemoteTimeout now = true → e.2.isClientTimeout now = true))

theorem noneSilent_iff {pool : TorrentPool} {now : Instant} :
    pool.NoneSilent now ↔ ∀ id T p r, pool.torrents.lookup id = some T → T.isActive = true →
      T.pieceHandler.peers.lookup p = some r → ¬ r.Silent now := by
  constructor
  · rintro h id T p r hT hact hp ⟨hremote, hclient⟩
    have hkeep := h T (AList.mem_vals.mpr ⟨id, hT⟩) hact ⟨p, r⟩ (AList.mem_entries.mpr hp) hremote
    rw [show r.isClientTimeout now = true from hkeep] at hclient
    cases hclient
  · intro h T hT hact e he hremote
    obtain ⟨id, hid⟩ := AList.mem_vals.mp hT
    by_contra hclient
    exact h id T e.1 e.2 hid hact (AList.mem_entries.mp he) ⟨hremote, Bool.eq_false_iff.mpr hclient⟩

section
variable {pool : TorrentPool} {w : Walk} {now clock : Instant} {env : TorrentId → PollEnv}

/-- the first torrent of the walk that has something to report answers for the pool -/
theorem poll_eq {pre post : List (Sigma fun _ : TorrentId => Torrent)} {id : TorrentId} {T : Torrent}
    {st : TorrentPoolState} (hrun : w.run pool.torrents.entries = pre ++ ⟨id, T⟩ :: post)
    (hpre : ∀ e ∈ pre, (e.2.visit now clock env).1 = none) (hT : (T.visit now clock env).1 = some st) :
    (pool.poll w now clock env).1 = st := by
  show ((pool.walk w (Torrent.visit now clock env)).1.map Prod.snd).getD .idle = st
  have hfirst : (pool.walk w (Torrent.visit now clock env)).1 = some (T.id, st) := by
    unfold walk
    simp only [AList.walk_fst, hrun]
    refine List.findSome?_eq_some_iff.mpr ⟨pre, ⟨id, T⟩, post, rfl, ?_, ?_⟩
    · rw [hT]
      rfl
    · intro e he
      rw [hpre e he]
      rfl
  rw [hfirst]
  rfl

/-- a torrent after a poll: not reached, or visited -/
theorem lookup_poll {id : TorrentId} {T' : Torrent}
    (h : (pool.poll w now clock env).2.torrents.lookup id = some T') :
    pool.torrents.lookup id = some T' ∨
      ∃ pre T post, w.run pool.torrents.entries = pre ++ ⟨id, T⟩ :: post ∧
        (∀ e ∈ pre, (e.2.visit now clock env).1 = none) ∧ pool.torrents.lookup id = some T ∧
        T' = (T.visit now clock env).2 := by
  have hl := AList.lists_run w pool.torrents
  rcases AList.lookup_walk _ hl id with e | ⟨pre, T, post, hrun, hpre, e⟩
  · exact Or.inl (e.symm.trans h)
  · refine Or.inr ⟨pre, T, post, hrun, ?_, hl.lookup hrun, Option.some.inj (h.symm.trans e)⟩
    intro x hx
    exact Option.map_eq_none_iff.mp (hpre x hx)

/-- a poll that sends no heartbeat leaves the peers alone -/
theorem noneSilent_poll (h : pool.NoneSilent now)
    (hquiet : ∀ id p, (pool.poll w now clock env).1 ≠ .keepAlive id p) :
    (pool.poll w now clock env).2.NoneSilent now := by
  rw [noneSilent_iff] at h ⊢
  intro id T' p r hT' hact hp
  rcases lookup_poll hT' with hT | ⟨pre, T, post, hrun, hpre, hT, rfl⟩
  · exact h id T' p r hT hact hp
  · rcases T.visit_cases now clock env with ⟨-, hv⟩ | ⟨hactive, hv, hans⟩
    · rw [hv] at hact hp
      exact h id T p r hT hact hp
    · rw [hv] at hp
      refine h id T p r hT hactive ?_
      rcases T.peers_poll now clock (env T.id) with ⟨q, hkeep⟩ | hsame
      · rcases hans with hans | ⟨-, hidle | ⟨id', hwait⟩⟩
        · rw [hkeep] at hans
          exact (hquiet T.id q (poll_eq hrun hpre hans)).elim
        · rw [hkeep] at hidle
          cases hidle
        · rw [hkeep] at hwait
          cases hwait
      · rw [← hsame]
        exact hp

theorem workOf_poll (hg : ∀ id T, pool.torrents.lookup id = some T → pool.Grounded id T) (id : TorrentId) :
    (pool.poll w now clock env).2.workOf id ≤ pool.workOf id := by
  unfold workOf
  cases hT' : (pool.poll w now clock env).2.torrents.lookup id with
  | none => exact Nat.zero_le _
  | some T' =>
    rcases lookup_poll hT' with hT | ⟨pre, T, post, -, -, hT, rfl⟩
    · rw [hT]
    · rw [hT, Option.elim_some, Option.elim_some]
      rcases T.visit_cases now clock env with ⟨-, hv⟩ | ⟨-, hv, -⟩ <;> rw [hv]
      exact (Torrent.work_poll (hg id T hT).solid now clock (env T.id)).1

/-- **A poll of the pool** that has a piece ready leaves less work. -/
theorem work_poll (hg : ∀ id T, pool.torrents.lookup id = some T → pool.Grounded id T)
    {r : Except TorrentError (TorrentId × Block)} (h : (pool.poll w now clock env).1 = .pieceReady r) :
    (pool.poll w now clock env).2.work < pool.work := by
  obtain ⟨pre, id, T, post, hrun, hpre, hT, hact, hpoll⟩ := poll_answer h nofun
  have hless : (pool.poll w now clock env).2.workOf id < pool.workOf id := by
    unfold workOf
    rw [lookup_poll_reached hrun hpre, hT, Option.elim_some, Option.elim_some]
    rcases T.visit_cases now clock env with ⟨hinact, -⟩ | ⟨-, hv, -⟩
    · rw [hact] at hinact
      cases hinact
    · rw [hv]
      exact (Torrent.work_poll (hg id T hT).solid now clock (env T.id)).2 r hpoll
  refine Finset.sum_lt_sum (fun i _ => workOf_poll hg ⟨i⟩) ⟨id.val, ?_, hless⟩
  exact Finset.mem_range.mpr (hg id T hT).below

/-- a poll of a pool without silent peers reports no timeout -/
theorem no_timeout (h : pool.NoneSilent now) (id : TorrentId) (p : PeerId) :
    (pool.poll w now clock env).1 ≠ .timeout id p := by
  intro htimeout
  obtain ⟨pre, id', T, post, -, -, hT, hact, hpoll⟩ := poll_answer htimeout nofun
  obtain ⟨r, hr, hsilent⟩ := Torrent.timeout_silent hpoll
  exact noneSilent_iff.mp h id' T p r hT hact hr hsilent

end

/-- a torrent with a silent peer, and that peer, walked first: the peer is reported, and the torrent stays -/
theorem poll_silent {pool : TorrentPool} {now : Instant} {id : TorrentId} {T : Torrent} {p : PeerId}
    {r : BitTorrentPeer} (hT : pool.torrents.lookup id = some T) (hact : T.isActive = true)
    (hp : T.pieceHandler.peers.lookup p = some r) (hr : r.Silent now) (clock : Instant) :
    (pool.poll (.front fun e => e.1 = id) now clock fun _ => ⟨.same, .front fun e => e.1 = p⟩).1
        = .timeout T.id p ∧
      (pool.poll (.front fun e => e.1 = id) now clock fun _ => ⟨.same, .front fun e => e.1 = p⟩).2.torrents.lookup id
        = some T := by
  obtain ⟨post, hfront⟩ := AList.run_front hT
  have hrun : (Arrangement.front fun e : Sigma fun _ : TorrentId => Torrent => decide (e.1 = id)).run
      pool.torrents.entries = [] ++ ⟨id, T⟩ :: post := hfront
  have hvisit : T.visit now clock (fun _ => ⟨.same, .front fun e => e.1 = p⟩) = (some (.timeout T.id p), T) := by
    unfold Torrent.visit
    rw [if_pos hact, Torrent.poll_silent hp hr]
  have hpre : ∀ e ∈ ([] : List (Sigma fun _ : TorrentId => Torrent)),
      (e.2.visit now clock fun _ => ⟨.same, .front fun e => e.1 = p⟩).1 = none := by
    intro e he
    cases he
  constructor
  · refine poll_eq hrun hpre ?_
    rw [hvisit]
  · rw [lookup_poll_reached hrun hpre, hvisit]

end TorrentPool

end Btt
