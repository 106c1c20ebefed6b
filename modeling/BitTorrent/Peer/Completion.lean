import BitTorrent.Peer.Pool

/-!
# Completing a piece

The piece handler marks a piece as owned when its buffer is full, in the poll that takes the piece out of
the buffer.

* `Completes pool w now clock env id`   the poll of the pool reaches the torrent `id` while the buffer of
                                        its piece is full;
* `completes_of_pieceReady`             only then a piece is ready;
* `bitfield_step`                       a bit becomes set by `setPiece`, or by such a poll, or with the
                                        torrent;
* `Completes.owned`                     after such a poll a new piece is owned.
-/

namespace Btt
open Run

namespace TorrentPieceHandler

/-- the buffer of the current piece is full -/
def Full (h : TorrentPieceHandler) : Prop := ∃ b, h.pieceBuffer = some b ∧ b.isFullPiece = true

theorem full_of_pieceFinished {h : TorrentPieceHandler} {env : PollEnv} {res : Except TorrentError Block}
    (hp : (h.poll env).1 = .pieceFinished res) : h.Full := by
  rcases h.poll_cases env with ⟨b, block, hb, hfull, -, e⟩ | ⟨b, err, hb, hfull, -, e⟩ | ⟨b, -, -, e⟩ |
    ⟨b, -, -, e⟩ | ⟨-, st, hst, e⟩ | ⟨-, e⟩
  · exact ⟨b, hb, hfull⟩
  · exact ⟨b, hb, hfull⟩
  · rw [e] at hp
    cases hp
  · rw [e] at hp
    cases hp
  · rw [e] at hp
    rcases hst with rfl | rfl <;> cases hp
  · rw [e] at hp
    cases hp

/-- the own bitfield is changed by `setPiece`, and by a poll that finds the buffer full -/
theorem bitfield_step (h : TorrentPieceHandler) (hop : HandlerOp) :
    (h.step hop).bitfield = h.bitfield ∨
    (∃ i, hop = .setPiece i ∧ (h.step hop).bitfield = h.bitfield.set i true) ∨
    (∃ env, hop = .poll env ∧ h.Full) := by
  rcases h.step_cases hop with ⟨peers, buffer, e⟩ | ⟨p, m, r, rfl⟩ | ⟨test, e⟩ | ⟨i, rfl⟩ | ⟨env, rfl⟩
  · rw [e]
    exact Or.inl rfl
  · exact Or.inl rfl
  · rw [e]
    exact Or.inl rfl
  · refine Or.inr (Or.inl ⟨i, rfl, ?_⟩)
    show (h.setPiece i).bitfield = _
    rw [setPiece_eq]
  · show (h.poll env).2.bitfield = _ ∨ _
    rcases h.poll_cases env with ⟨b, block, hb, hfull, -, -⟩ | ⟨b, err, hb, hfull, -, -⟩ | ⟨b, -, -, e⟩ |
      ⟨b, -, -, e⟩ | ⟨-, st, -, e⟩ | ⟨-, e⟩
    · exact Or.inr (Or.inr ⟨env, rfl, b, hb, hfull⟩)
    · exact Or.inr (Or.inr ⟨env, rfl, b, hb, hfull⟩)
    all_goals
      rw [e]
      exact Or.inl rfl

/-- a poll that finds the buffer of a solid handler full makes its piece owned -/
theorem Solid.owned {h : TorrentPieceHandler} (hs : h.Solid) (hfull : h.Full) (env : PollEnv) :
    ∃ i block, (h.poll env).1 = .pieceFinished (.ok block) ∧ (h.poll env).2.bitfield.get i = some true := by
  obtain ⟨b, hb, hf⟩ := hfull
  obtain ⟨hsound, -, -, hlt⟩ := hs b hb
  obtain ⟨data, hok, -⟩ := hsound.finalize hf
  refine ⟨b.pieceIndex, ⟨⟨b.pieceIndex, 0, b.pieceLength⟩, data⟩, ?_⟩
  unfold poll
  simp only [hb, hf, if_true, hok, setPiece_eq, BitField.get_set, if_pos hlt, and_self]

end TorrentPieceHandler

namespace Torrent

/-- no peer is due for a heartbeat, and none has timed out -/
def Calm (t : Torrent) (now : Instant) : Prop :=
  ∀ id p, t.pieceHandler.peers.lookup id = some p → p.isClientTimeout now = false ∧ p.isRemoteTimeout now = false

/-- the torrent's turn in a poll ends with a completed piece -/
structure Ripe (t : Torrent) (now : Instant) : Prop where
  active : t.isActive = true
  calm : t.Calm now
  full : t.pieceHandler.Full

section
variable {t : Torrent} {now clock : Instant} {env : PollEnv}

/-- a calm torrent polls its piece handler -/
theorem Calm.poll (h : t.Calm now) (clock : Instant) (env : PollEnv) :
    ∃ seedLeech, t.poll now clock env
      = (outcome t.id (t.pieceHandler.poll env).1, { t.act (.poll env) with seedLeech := seedLeech }) := by
  unfold Torrent.poll
  split
  · rename_i e he
    have hp := AList.mem_entries.mp (env.order.mem_run.mp (List.mem_of_find?_eq_some he))
    have htest := List.find?_some he
    rw [(h e.1 e.2 hp).1, (h e.1 e.2 hp).2] at htest
    cases htest
  · simp only
    split <;> rename_i hpoll <;> rw [hpoll] <;> exact ⟨_, rfl⟩

/-- a heartbeat comes before anything else -/
theorem poll_cases_calm (t : Torrent) (now clock : Instant) (env : PollEnv) :
    t.Calm now ∨ (∃ p, t.poll now clock env = (.keepAlive t.id p, t.act (.setClientHeartbeat p clock))) ∨
      ∃ p, t.poll now clock env = (.timeout t.id p, t) := by
  cases hfind : (env.order.run t.pieceHandler.peers.entries).find? fun e =>
      e.2.isClientTimeout now || e.2.isRemoteTimeout now with
  | none =>
    left
    intro id p hp
    have hmem := env.order.mem_run.mpr (AList.mem_entries.mpr hp)
    have := List.find?_eq_none.mp hfind _ hmem
    simpa using this
  | some e =>
    right
    unfold Torrent.poll
    rw [hfind]
    simp only
    split
    · exact Or.inl ⟨e.1, rfl⟩
    · exact Or.inr ⟨e.1, rfl⟩

theorem calm_full_of_pieceReady {id : TorrentId} {block : Block}
    (h : (t.poll now clock env).1 = .pieceReady (.ok (id, block))) :
    t.Calm now ∧ t.pieceHandler.Full ∧ id = t.id := by
  rcases t.poll_cases_calm now clock env with hcalm | ⟨p, e⟩ | ⟨p, e⟩
  · obtain ⟨sl, e⟩ := hcalm.poll clock env
    rw [e] at h
    cases hp : (t.pieceHandler.poll env).1 with
    | pieceFinished r =>
      rw [hp] at h
      refine ⟨hcalm, TorrentPieceHandler.full_of_pieceFinished hp, ?_⟩
      cases r with
      | ok b =>
        cases h
        rfl
      | error err => cases h
    | leechBlock next =>
      rw [hp] at h
      cases next <;> cases h
    | waitingPeers =>
      rw [hp] at h
      cases h
    | finished =>
      rw [hp] at h
      cases h
    | seed =>
      rw [hp] at h
      cases h
  · rw [e] at h
    cases h
  · rw [e] at h
    cases h

/-- a poll changes no bit, unless it finds the torrent calm and its buffer full -/
theorem bitfield_poll (t : Torrent) (now clock : Instant) (env : PollEnv) :
    (t.poll now clock env).2.bitfield = t.bitfield ∨ (t.Calm now ∧ t.pieceHandler.Full) := by
  rcases t.poll_cases_calm now clock env with hcalm | ⟨p, e⟩ | ⟨p, e⟩
  · obtain ⟨sl, e⟩ := hcalm.poll clock env
    rw [e]
    rcases t.pieceHandler.bitfield_step (.poll env) with h | ⟨i, h, -⟩ | ⟨-, -, h⟩
    · exact Or.inl h
    · cases h
    · exact Or.inr ⟨hcalm, h⟩
  · rw [e]
    rcases t.pieceHandler.bitfield_step (.setClientHeartbeat p clock) with h | ⟨i, h, -⟩ | ⟨env, h, -⟩
    · exact Or.inl h
    · cases h
    · cases h
  · rw [e]
    exact Or.inl rfl

end

end Torrent

namespace TorrentPool

/-- the poll reaches the torrent `id` when it is ripe: every torrent before it in the walk has nothing to
report -/
def Completes (pool : TorrentPool) (w : Walk) (now clock : Instant) (env : TorrentId → PollEnv)
    (id : TorrentId) : Prop :=
  ∃ pre T post, w.run pool.torrents.entries = pre ++ ⟨id, T⟩ :: post ∧
    (∀ e ∈ pre, (e.2.visit now clock env).1 = none) ∧ T.Ripe now

section
variable {pool : TorrentPool} {w : Walk} {now clock : Instant} {env : TorrentId → PollEnv} {id : TorrentId}

/-- what a torrent that is reached by the poll becomes -/
theorem lookup_poll_reached {pre post : List (Sigma fun _ : TorrentId => Torrent)} {T : Torrent}
    (hrun : w.run pool.torrents.entries = pre ++ ⟨id, T⟩ :: post)
    (hpre : ∀ e ∈ pre, (e.2.visit now clock env).1 = none) :
    (pool.poll w now clock env).2.torrents.lookup id = some (T.visit now clock env).2 := by
  have hl := AList.lists_run w pool.torrents
  show (AList.walk _ (w.run pool.torrents.entries) pool.torrents).2.lookup id = _
  rw [hrun] at hl ⊢
  refine AList.lookup_walk_reached _ hl ?_
  intro e he
  rw [hpre e he]
  rfl

/-- a piece is ready only if the poll completes it -/
theorem completes_of_pieceReady (hkey : ∀ id T, pool.torrents.lookup id = some T → T.id = id) {block : Block}
    (h : (pool.poll w now clock env).1 = .pieceReady (.ok (id, block))) : pool.Completes w now clock env id := by
  obtain ⟨pre, id', T, post, hrun, hpre, hT, hact, hpoll⟩ := poll_answer h nofun
  obtain ⟨hcalm, hfull, rfl⟩ := Torrent.calm_full_of_pieceReady hpoll
  rw [hkey id' T hT]
  exact ⟨pre, T, post, hrun, hpre, hact, hcalm, hfull⟩

/-- a poll changes no bit of a torrent, unless it completes a piece of it -/
theorem bitfield_poll {T' : Torrent} (h : (pool.poll w now clock env).2.torrents.lookup id = some T') :
    (∃ T, pool.torrents.lookup id = some T ∧ T'.bitfield = T.bitfield) ∨ pool.Completes w now clock env id := by
  have hl := AList.lists_run w pool.torrents
  rcases AList.lookup_walk _ hl id with e | ⟨pre, T, post, hrun, hpre, e⟩
  · exact Or.inl ⟨T', e.symm.trans h, rfl⟩
  · cases e.symm.trans h
    have hT := hl.lookup hrun
    show (∃ T₁ : Torrent, _ ∧ (T.visit now clock env).2.bitfield = T₁.bitfield) ∨ _
    rcases T.visit_cases now clock env with ⟨-, hv⟩ | ⟨hact, hv, -⟩
    · rw [hv]
      exact Or.inl ⟨T, hT, rfl⟩
    · rw [hv]
      rcases T.bitfield_poll now clock (env T.id) with hbit | ⟨hcalm, hfull⟩
      · exact Or.inl ⟨T, hT, hbit⟩
      · refine Or.inr ⟨pre, T, post, hrun, ?_, hact, hcalm, hfull⟩
        intro x hx
        exact Option.map_eq_none_iff.mp (hpre x hx)

/-- after a poll that completes a piece, the torrent owns a piece -/
theorem Completes.owned (h : pool.Completes w now clock env id)
    (hg : ∀ id T, pool.torrents.lookup id = some T → pool.Grounded id T) :
    ∃ T' i, (pool.poll w now clock env).2.torrents.lookup id = some T' ∧ T'.bitfield.get i = some true := by
  obtain ⟨pre, T, post, hrun, hpre, hact, hcalm, hfull⟩ := h
  have hT := (AList.lists_run w pool.torrents).lookup hrun
  obtain ⟨i, block, -, hbit⟩ := (hg id T hT).solid.owned hfull (env T.id)
  refine ⟨_, i, lookup_poll_reached hrun hpre, ?_⟩
  rcases T.visit_cases now clock env with ⟨hinact, -⟩ | ⟨-, hv, -⟩
  · rw [hact] at hinact
    cases hinact
  · rw [hv]
    obtain ⟨sl, e⟩ := hcalm.poll clock (env T.id)
    rw [e]
    exact hbit

end

/-! ## where bits come from -/

theorem does_setPiece {pool : TorrentPool} {id : TorrentId} {op : PoolOp} {i : Nat}
    (h : pool.Does id op (.setPiece i)) : op = .setPiece id i := by
  cases op with
  | setPiece t j =>
    obtain ⟨rfl, e⟩ := h
    cases e
    rfl
  | _ => simp [Does] at h

theorem does_poll {pool : TorrentPool} {id : TorrentId} {op : PoolOp} {env : PollEnv}
    (h : pool.Does id op (.poll env)) : ∃ w now clock env, op = .poll w now clock env := by
  cases op with
  | poll w now clock env => exact ⟨w, now, clock, env, rfl⟩
  | _ => simp [Does] at h

/-- **Where a set bit comes from.**  The torrent had it, or it was set by name, or a poll completed a piece
of the torrent, or the torrent is new. -/
theorem bitfield_step {pool : TorrentPool} {op : PoolOp} {id : TorrentId} {T' : Torrent} {i : Nat}
    (h : (pool.step op).torrents.lookup id = some T') (hbit : T'.bitfield.get i = some true) :
    (∃ T, pool.torrents.lookup id = some T ∧ T.bitfield.get i = some true) ∨ op = .setPiece id i ∨
    (∃ w now clock env, op = .poll w now clock env ∧ pool.Completes w now clock env id) ∨
    (∃ config, op = .addTorrent config ∧ id = ⟨pool.nextUniqueTorrent⟩) := by
  rcases lookup_step h with ⟨T, hT, hfol⟩ | ⟨config, hop, hid, -⟩
  · rcases hfol.handler with e | ⟨hop, hdoes, e⟩
    · refine Or.inl ⟨T, hT, ?_⟩
      rw [← hbit]
      show T.pieceHandler.bitfield.get i = T'.pieceHandler.bitfield.get i
      rw [e]
    · have hbit : (T.pieceHandler.step hop).bitfield.get i = some true := by
        rw [← e]
        exact hbit
      rcases T.pieceHandler.bitfield_step hop with hs | ⟨j, rfl, hs⟩ | ⟨env, rfl, -⟩
      · rw [hs] at hbit
        exact Or.inl ⟨T, hT, hbit⟩
      · rw [hs, BitField.get_set] at hbit
        split at hbit
        · rename_i hij
          rw [← hij]
          exact Or.inr (Or.inl (does_setPiece hdoes))
        · exact Or.inl ⟨T, hT, hbit⟩
      · obtain ⟨w, now, clock, env, rfl⟩ := does_poll hdoes
        rcases bitfield_poll h with ⟨T₁, hT₁, hsame⟩ | hc
        · rw [← e] at hbit
          refine Or.inl ⟨T₁, hT₁, ?_⟩
          rw [← hsame]
          exact hbit
        · exact Or.inr (Or.inr (Or.inl ⟨w, now, clock, env, rfl, hc⟩))
  · exact Or.inr (Or.inr (Or.inr ⟨config, hop, hid⟩))

end TorrentPool

end Btt
