import BitTorrent.Peer.Pool

/-!
# Admitting torrents

`add_torrent` computes the state a torrent is admitted with: a torrent that asks to be active is paused once
the limit is reached.  That state is returned, but the state that was asked for is stored.

* `admitted_iff`           the limit is kept and the stored state is the returned one, exactly as long as
                           no torrent asks to be active when the limit is reached.
-/

namespace Btt
open Run

namespace TorrentPool

/-- `iter_active().count()` -/
def activeCount (pool : TorrentPool) : Nat := (pool.torrents.vals.filter Torrent.isActive).length

/-- the state that a successful `add_torrent` returns is the one it stores -/
def ReturnsStored (pool : TorrentPool) : PoolOp → Prop
  | .addTorrent config => ∀ id st, (pool.addTorrent config).1 = .ok (id, st) →
      ((pool.addTorrent config).2.torrents.lookup id).map Torrent.state = some st
  | _ => True

/-- the limit is kept after `ops`, and the last of them returned what it stored -/
structure Admitted (pool : TorrentPool) (ops : List PoolOp) : Prop where
  limit : (exec step pool ops).activeCount ≤ (exec step pool ops).maxActiveTorrents
  stored : ∀ pre op, ops = pre ++ [op] → (exec step pool pre).ReturnsStored op

/-- a new torrent asks to be active only below the limit -/
def AsksBelowLimit (pool : TorrentPool) : PoolOp → Prop
  | .addTorrent config => config.state = .active →
      (∀ id T, pool.torrents.lookup id = some T → T.infoHash ≠ config.infoHash) →
      pool.activeCount < pool.maxActiveTorrents
  | _ => True

/-! ## counting active torrents -/

/-- the ids of the active torrents -/
def activeIds (pool : TorrentPool) : List TorrentId :=
  (pool.torrents.entries.filter fun e => e.2.isActive).map Sigma.fst

theorem length_activeIds (pool : TorrentPool) : pool.activeIds.length = pool.activeCount := by
  rw [activeIds, activeCount, AList.vals, List.length_map, List.filter_map, List.length_map]
  rfl

theorem mem_activeIds {pool : TorrentPool} {id : TorrentId} :
    id ∈ pool.activeIds ↔ ∃ T, pool.torrents.lookup id = some T ∧ T.isActive = true := by
  unfold activeIds
  rw [List.mem_map]
  constructor
  · rintro ⟨e, he, rfl⟩
    obtain ⟨hmem, hact⟩ := List.mem_filter.mp he
    exact ⟨e.2, AList.mem_entries.mp hmem, hact⟩
  · rintro ⟨T, hT, hact⟩
    exact ⟨⟨id, T⟩, List.mem_filter.mpr ⟨AList.mem_entries.mpr hT, hact⟩, rfl⟩

theorem nodup_activeIds (pool : TorrentPool) : pool.activeIds.Nodup :=
  (List.filter_sublist.map Sigma.fst).nodup pool.torrents.nodupKeys

/-- an operation adds at most the torrent it stores as active -/
theorem activeIds_step {pool : TorrentPool} {op : PoolOp} {id : TorrentId} (h : id ∈ (pool.step op).activeIds) :
    id ∈ pool.activeIds ∨ ∃ config, op = .addTorrent config ∧ config.state = .active ∧
      (∀ id T, pool.torrents.lookup id = some T → T.infoHash ≠ config.infoHash) ∧
      id = ⟨pool.nextUniqueTorrent⟩ := by
  obtain ⟨T', hT', hact⟩ := mem_activeIds.mp h
  rcases lookup_step hT' with ⟨T, hT, hfol⟩ | ⟨config, rfl, hid, -, hnew, rfl⟩
  · left
    refine mem_activeIds.mpr ⟨T, hT, ?_⟩
    unfold Torrent.isActive at hact ⊢
    rw [← hfol.state]
    exact hact
  · refine Or.inr ⟨config, rfl, ?_, hnew, hid⟩
    unfold Torrent.isActive TorrentState.isActive at hact
    split at hact
    · assumption
    · cases hact

theorem activeCount_step {pool : TorrentPool} {op : PoolOp} (hG : pool.AsksBelowLimit op)
    (hI : pool.activeCount ≤ pool.maxActiveTorrents) : (pool.step op).activeCount ≤ pool.maxActiveTorrents := by
  by_cases hadd : ∃ config, op = .addTorrent config ∧ config.state = .active ∧
      ∀ id T, pool.torrents.lookup id = some T → T.infoHash ≠ config.infoHash
  · obtain ⟨config, rfl, hact, hnew⟩ := hadd
    have hlt := hG hact hnew
    have hsub : (pool.step (.addTorrent config)).activeIds ⊆ ⟨pool.nextUniqueTorrent⟩ :: pool.activeIds := by
      intro id hid
      rcases activeIds_step hid with h | ⟨_, -, -, -, rfl⟩
      · exact List.mem_cons_of_mem _ h
      · exact List.mem_cons_self
    have hle := (List.subperm_of_subset (nodup_activeIds _) hsub).length_le
    rw [length_activeIds, List.length_cons, length_activeIds] at hle
    omega
  · have hsub : (pool.step op).activeIds ⊆ pool.activeIds := by
      intro id hid
      rcases activeIds_step hid with h | ⟨config, e, hact, hnew, -⟩
      · exact h
      · exact (hadd ⟨config, e, hact, hnew⟩).elim
    have hle := (List.subperm_of_subset (nodup_activeIds _) hsub).length_le
    rw [length_activeIds, length_activeIds] at hle
    omega

/-! ## the state that is returned -/

theorem returnsStored_of_asksBelowLimit {pool : TorrentPool} {op : PoolOp} (hG : pool.AsksBelowLimit op) :
    pool.ReturnsStored op := by
  cases op with
  | addTorrent config =>
    intro id st hok
    rcases pool.addTorrent_cases config with ⟨e, -⟩ | ⟨hnew, e⟩ <;> rw [e] at hok ⊢
    · cases hok
    · cases hok
      simp only [AList.lookup_insert, Option.map_some]
      cases hst : config.state with
      | active =>
        have hlt : (pool.torrents.vals.filter Torrent.isActive).length < pool.maxActiveTorrents := hG hst hnew
        rw [if_pos hlt]
        rfl
      | paused => rfl
      | stopped => rfl
  | _ => trivial

/-- at the limit the returned state is `Paused` and the stored one `Active` -/
theorem not_returnsStored {pool : TorrentPool} {op : PoolOp} (hG : ¬ pool.AsksBelowLimit op) :
    ¬ pool.ReturnsStored op := by
  cases op with
  | addTorrent config =>
    unfold AsksBelowLimit at hG
    push Not at hG
    obtain ⟨hact, hnew, hge⟩ := hG
    intro hret
    rcases pool.addTorrent_cases config with ⟨-, id, T, hT, hhash⟩ | ⟨-, e⟩
    · exact hnew id T hT hhash
    · have hge : ¬ (pool.torrents.vals.filter Torrent.isActive).length < pool.maxActiveTorrents :=
        Nat.not_lt.mpr hge
      have hst := hret _ _ (congrArg Prod.fst e)
      rw [e] at hst
      simp only [AList.lookup_insert, Option.map_some, hact, TorrentState.isActive, if_true, if_neg hge] at hst
      cases hst
  | _ => exact (hG trivial).elim

/-- **The limit on active torrents.**  In a run of the pool the number of active torrents stays within the
limit, and `add_torrent` returns the state it stores, exactly if no torrent that is not refused asks to be
active when the limit is reached. -/
theorem admitted_iff (random : ShaHash) (config : BitTorrentConfig) (ops : List PoolOp) :
    (∀ pre, pre <+: ops → Admitted (new random config) pre) ↔
      Along step AsksBelowLimit (new random config) ops := by
  refine safe_iff_along (I := Admitted (new random config)) (P := Admitted (new random config)) ?_
    (fun _ h => h) ?_ ?_ ops
  · exact ⟨Nat.zero_le _, by simp⟩
  · intro pre op hI hG
    refine ⟨?_, ?_⟩
    · rw [exec_snoc, maxActiveTorrents_step]
      exact activeCount_step hG hI.limit
    · intro pre' op' e
      obtain ⟨rfl, hop⟩ := List.append_inj' e rfl
      obtain rfl : op = op' := List.head_eq_of_cons_eq hop
      exact returnsStored_of_asksBelowLimit hG
  · intro pre op _ hG hP
    exact not_returnsStored hG (hP.stored pre op rfl)

/-- two torrents that ask to be active, where one is allowed: the second is reported paused, but active -/
theorem second_torrent_active :
    ¬ Admitted (new (.replicate 0) ⟨some 1, none, none⟩)
      [.addTorrent ⟨.replicate 1, .active, ⟨[false]⟩, 1, 1, .seedAndLeech⟩,
        .addTorrent ⟨.replicate 2, .active, ⟨[false]⟩, 1, 1, .seedAndLeech⟩] := by
  intro h
  exact absurd h.limit (by decide)

end TorrentPool

end Btt
