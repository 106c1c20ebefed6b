import BitTorrent.Disk.Moves

/-!
# A torrent is announced before it is used

`Announced t info` says where the disk manager is with a torrent: its files are set up from `info` and only
reads and writes for it are queued, or they are not and the messages queued for it are one `AddTorrent` with
`info`, followed by reads and writes.  No move of `poll` changes that (`Announced.moved`), and no answer to a
message for such a torrent says that the torrent is missing or there already (`Announced.strays`).  In a manager
that is `Registered` all torrents and all messages are of this kind, and a poll keeps it so (`Registered.poll`).
-/

namespace Btt

/-- the torrent a message is about -/
def DiskMessageIn.torrent : DiskMessageIn → TorrentId
  | .addTorrent id _ => id
  | .removeTorrent id => id
  | .moveTorrent id _ => id
  | .syncTorrent id => id
  | .readBlock id _ => id
  | .writeBlock id _ => id

/-- an answer `TorrentNotFound` to a read or write, or `ExistingTorrent` to a new torrent -/
def DiskMessageOut.strays : DiskMessageOut → Bool
  | .readBlockError _ (.torrentNotFound _) => true
  | .writeBlockError _ (.torrentNotFound _) => true
  | .torrentError _ (.existingTorrent _) => true
  | _ => false

namespace DiskManager
variable {File World Err : Type}

/-- the messages of the queue for one torrent -/
def messagesFor (t : TorrentId) (queue : List DiskMessageIn) : List DiskMessageIn :=
  queue.filter fun msg => msg.torrent = t

/-- the torrent is set up and only requests for it are queued, or its `AddTorrent` is, with only requests behind
it -/
def Announced (dm : DiskManager File World) (t : TorrentId) (info : MetaInfo) : Prop :=
  (∃ F, dm.torrents.lookup t = some F ∧ F.metaInfo = info ∧
    ∀ msg ∈ messagesFor t dm.queuedEvents, msg.request.isSome = true) ∨
  (dm.torrents.lookup t = none ∧ ∃ rest, messagesFor t dm.queuedEvents = .addTorrent t info :: rest ∧
    ∀ msg ∈ rest, msg.request.isSome = true)

theorem messagesFor_append (t : TorrentId) (a b : List DiskMessageIn) :
    messagesFor t (a ++ b) = messagesFor t a ++ messagesFor t b := List.filter_append _ _

theorem messagesFor_same {t : TorrentId} {msg : DiskMessageIn} (h : msg.torrent = t) (queue : List DiskMessageIn) :
    messagesFor t (msg :: queue) = msg :: messagesFor t queue := List.filter_cons_of_pos (decide_eq_true h)

theorem messagesFor_other {t : TorrentId} {msg : DiskMessageIn} (h : msg.torrent ≠ t) (queue : List DiskMessageIn) :
    messagesFor t (msg :: queue) = messagesFor t queue :=
  List.filter_cons_of_neg (by rw [decide_eq_false h]; exact Bool.false_ne_true)

section
variable {fs : FileSystem File World Err} {sha1 : List UInt8 → ShaHash} {order : Arrangement FileEntry}
  {dm dm' : DiskManager File World} {t : TorrentId} {info : MetaInfo} {msg : DiskMessageIn}

theorem Announced.congr (h : dm.Announced t info) (htorrents : dm'.torrents.lookup t = dm.torrents.lookup t)
    (hqueue : messagesFor t dm'.queuedEvents = messagesFor t dm.queuedEvents) : dm'.Announced t info := by
  unfold Announced
  rw [htorrents, hqueue]
  exact h

/-- a request for an announced torrent may be queued -/
theorem Announced.push (h : dm.Announced t info) (hmsg : msg.request.isSome = true ∨ msg.torrent ≠ t) :
    (dm.push msg).Announced t info := by
  by_cases ht : msg.torrent = t
  · have hreq := hmsg.resolve_right fun hne => hne ht
    have hqueue : messagesFor t (dm.push msg).queuedEvents = messagesFor t dm.queuedEvents ++ [msg] := by
      show messagesFor t (dm.queuedEvents ++ [msg]) = _
      rw [messagesFor_append, messagesFor_same ht]
      rfl
    have hall : ∀ l : List DiskMessageIn, (∀ m ∈ l, m.request.isSome = true) →
        ∀ m ∈ l ++ [msg], m.request.isSome = true := by
      intro l hl m hm
      rcases List.mem_append.mp hm with hm | hm
      · exact hl m hm
      · rw [List.mem_singleton.mp hm]
        exact hreq
    unfold Announced
    rw [hqueue]
    rcases h with ⟨F, hF, hinfo, hreqs⟩ | ⟨hF, rest, hrest, hreqs⟩
    · exact Or.inl ⟨F, hF, hinfo, hall _ hreqs⟩
    · refine Or.inr ⟨hF, rest ++ [msg], ?_, hall _ hreqs⟩
      rw [hrest, List.cons_append]
  · refine h.congr rfl ?_
    show messagesFor t (dm.queuedEvents ++ [msg]) = _
    rw [messagesFor_append, messagesFor_other ht]
    exact List.append_nil _

/-- a message for another torrent changes nothing here -/
theorem Handled.other {r : Option (Poll DiskMessageOut)} (h : Handled fs sha1 order dm msg r dm')
    (ht : msg.torrent ≠ t) : dm'.torrents.lookup t = dm.torrents.lookup t ∧
      messagesFor t dm'.queuedEvents = messagesFor t dm.queuedEvents := by
  constructor
  · cases hF : dm'.torrents.lookup t with
    | some F =>
      rcases h.lookup hF with h1 | ⟨info, rfl, -, -⟩
      · exact h1.symm
      · exact (ht rfl).elim
    | none =>
      cases hF' : dm.torrents.lookup t with
      | none => rfl
      | some F =>
        have hmsg : msg ≠ .removeTorrent t := by
          rintro rfl
          exact ht rfl
        rw [h.lookup_kept hmsg hF'] at hF
        cases hF
  · rcases h.queue with ⟨-, hq, -⟩ | ⟨-, hq⟩ <;> rw [hq]
    rw [messagesFor_append, messagesFor_other ht]
    exact List.append_nil _

/-- a request does not touch the torrents -/
theorem Handled.torrents_of_request {r : Option (Poll DiskMessageOut)} (h : Handled fs sha1 order dm msg r dm')
    (hmsg : msg.request.isSome = true) : dm'.torrents = dm.torrents := by
  cases h with
  | refused hmsg h => exact h.frame.torrents
  | started hmsg hgood h hjob => exact h.frame.torrents
  | requeued hmsg hgood h => exact h.frame.torrents
  | bad h => rfl
  | _ => cases hmsg

/-- the message at the head is handled -/
theorem Announced.handled {queue : List DiskMessageIn} (h : dm.Announced t info)
    (hq : dm.queuedEvents = msg :: queue) {r : Option (Poll DiskMessageOut)}
    (hm : Handled fs sha1 order { dm with queuedEvents := queue } msg r dm') : dm'.Announced t info := by
  by_cases ht : msg.torrent = t
  · unfold Announced at h
    rw [hq, messagesFor_same ht] at h
    rcases h with ⟨F, hF, hinfo, hreqs⟩ | ⟨hF, rest, hrest, hreqs⟩
    · have hreq := hreqs msg List.mem_cons_self
      have htorrents := hm.torrents_of_request hreq
      have hrest : ({ dm with queuedEvents := queue } : DiskManager File World).Announced t info :=
        Or.inl ⟨F, hF, hinfo, fun m hmem => hreqs m (List.mem_cons_of_mem _ hmem)⟩
      rcases hm.queue with ⟨-, hq, -⟩ | ⟨-, hq⟩
      · refine (hrest.push (Or.inl hreq)).congr ?_ ?_
        · rw [htorrents]
          rfl
        · rw [hq]
          rfl
      · refine hrest.congr ?_ ?_
        · rw [htorrents]
        · rw [hq]
    · -- the torrent is added now
      obtain ⟨rfl, rfl⟩ := List.cons.inj hrest
      cases hm with
      | existing hid => exact (AList.lookup_eq_none.mp hF hid).elim
      | @added _ _ file hid hnew =>
        refine Or.inl ⟨file, ?_, TorrentFile.metaInfo_new hnew, hreqs⟩
        rw [AList.lookup_insert_eq, if_pos rfl]
      | refused hmsg h => cases hmsg
      | started hmsg hgood h hjob => cases hmsg
      | requeued hmsg hgood h => cases hmsg
  · obtain ⟨htorrents, hqueue⟩ := hm.other ht
    refine h.congr htorrents ?_
    rw [hqueue, hq, messagesFor_other ht]

/-- **No move of `poll` changes where a torrent is.** -/
theorem Announced.moved (h : dm.Announced t info) {op : DiskOp} {out : Option DiskMessageOut}
    (hop : op.message = none) (hm : Moved fs sha1 dm op out dm') : dm'.Announced t info := by
  cases hm with
  | call hcall =>
    rw [hop] at hcall
    cases hcall
  | job hjob =>
    refine h.congr ?_ ?_
    · rw [hjob.torrents]
    · rw [hjob.queuedEvents]
  | idle hq => exact h
  | message hq hm => exact h.handled hq hm

/-! ## answers -/

/-- an error that is not about the torrent -/
theorem strays_refusal {e : TorrentError} (he : ∀ id, e ≠ .torrentNotFound id) (hmsg : msg.request.isSome = true) :
    (msg.refusal e).strays = false := by
  cases msg with
  | readBlock id m =>
    cases e with
    | torrentNotFound id' => exact (he id' rfl).elim
    | _ => rfl
  | writeBlock id block =>
    cases e with
    | torrentNotFound id' => exact (he id' rfl).elim
    | _ => rfl
  | _ => cases hmsg

theorem strays_answerOf (job : BlockJob File) : (answerOf job).strays = false := by
  cases job with
  | read r => rcases answerOf_read r with ⟨data, h⟩ | h <;> rw [h] <;> rfl
  | write r => rcases answerOf_write r with ⟨data, h⟩ | h <;> rw [h] <;> rfl

/-- the only error of the search for files that names the torrent is that it is not there -/
theorem PollFiles.error_ne {id : TorrentId} {metadata : BlockMetadata} {e : TorrentError}
    (h : PollFiles fs order dm id metadata (.ready (.error e)) dm') {F : TorrentFile}
    (hF : dm.torrents.lookup id = some F) (id' : TorrentId) : e ≠ .torrentNotFound id' := by
  cases h with
  | unknown hid =>
    rw [hF] at hid
    cases hid
  | outside hid hfiles => exact TorrentFile.filesForBlock_error hfiles id'
  | failed ht htake =>
    rw [takeFiles_error htake]
    nofun

/-- the answer to a message for an announced torrent does not stray -/
theorem Announced.strays {queue : List DiskMessageIn} (h : dm.Announced msg.torrent info)
    (hq : dm.queuedEvents = msg :: queue) {r : Option (Poll DiskMessageOut)}
    (hm : Handled fs sha1 order { dm with queuedEvents := queue } msg r dm') {out : DiskMessageOut}
    (hout : r.bind Poll.answer = some out) : out.strays = false := by
  unfold Announced at h
  rw [hq, messagesFor_same rfl] at h
  rcases h with ⟨F, hF, hinfo, hreqs⟩ | ⟨hF, rest, hrest, hreqs⟩
  · have hreq := hreqs msg List.mem_cons_self
    cases hm with
    | bad h =>
      cases hout
      rfl
    | @refused _ id metadata e dm1 hmsg h =>
      cases hout
      have hid : msg.torrent = id := by
        cases msg <;> cases hmsg <;> rfl
      rw [hid] at hF
      exact strays_refusal (h.error_ne hF) hreq
    | started hmsg hgood h hjob => cases hout
    | requeued hmsg hgood h => cases hout
    | _ => cases hreq
  · obtain ⟨hmsg, -⟩ := List.cons.inj hrest
    cases hm with
    | existing hid => exact (AList.lookup_eq_none.mp hF hid).elim
    | added hid hnew =>
      cases hout
      rfl
    | bad h => cases hmsg
    | removed => cases hmsg
    | synced => cases hmsg
    | moved => cases hmsg
    | refused hreq h =>
      rw [hmsg] at hreq
      cases hreq
    | started hreq hgood h hjob => cases hout
    | requeued hreq hgood h => cases hout

/-! ## all torrents -/

/-- the torrents the manager knows of or was told of are those in the list, and each of them is announced -/
structure Registered (added : List (TorrentId × MetaInfo)) (dm : DiskManager File World) : Prop where
  torrents : ∀ t F, dm.torrents.lookup t = some F → ∃ info, (t, info) ∈ added
  messages : ∀ msg ∈ dm.queuedEvents, ∃ info, (msg.torrent, info) ∈ added
  announced : ∀ x ∈ added, dm.Announced x.1 x.2

theorem registered_withCapacity (world : World) (capacity : Nat) :
    Registered [] (withCapacity world capacity : DiskManager File World) := by
  refine ⟨?_, ?_, ?_⟩
  · intro t F h
    rw [show (withCapacity world capacity : DiskManager File World).torrents = ∅ from rfl, AList.lookup_empty] at h
    cases h
  · intro msg hmsg
    cases hmsg
  · intro x hx
    cases hx

variable {added : List (TorrentId × MetaInfo)}

/-- a request for a registered torrent -/
theorem Registered.request (h : Registered added dm) (hmsg : msg.request.isSome = true)
    (hknown : ∃ info, (msg.torrent, info) ∈ added) : Registered added (dm.push msg) := by
  refine ⟨h.torrents, ?_, fun x hx => (h.announced x hx).push (Or.inl hmsg)⟩
  intro m hm
  rcases List.mem_append.mp hm with hm | hm
  · exact h.messages m hm
  · rw [List.mem_singleton.mp hm]
    exact hknown

/-- a new torrent -/
theorem Registered.add (h : Registered added dm) (hnew : ∀ info, (t, info) ∉ added) :
    Registered (added ++ [(t, info)]) (dm.push (.addTorrent t info)) := by
  refine ⟨?_, ?_, ?_⟩
  · intro t' F hF
    obtain ⟨info', hmem⟩ := h.torrents t' F hF
    exact ⟨info', List.mem_append_left _ hmem⟩
  · intro m hm
    rcases List.mem_append.mp hm with hm | hm
    · obtain ⟨info', hmem⟩ := h.messages m hm
      exact ⟨info', List.mem_append_left _ hmem⟩
    · rw [List.mem_singleton.mp hm]
      exact ⟨info, List.mem_append_right _ List.mem_cons_self⟩
  · intro x hx
    rcases List.mem_append.mp hx with hold | hx
    · refine (h.announced x hold).push (Or.inr ?_)
      rintro (rfl : t = x.1)
      exact hnew x.2 hold
    · rw [List.mem_singleton.mp hx]
      -- nothing was queued for it so far
      have hnone : messagesFor t dm.queuedEvents = [] := by
        refine List.filter_eq_nil_iff.mpr ?_
        intro m hm hmt
        obtain ⟨info', hmem⟩ := h.messages m hm
        rw [of_decide_eq_true hmt] at hmem
        exact hnew info' hmem
      refine Or.inr ⟨?_, [], ?_, fun m hm => by cases hm⟩
      · cases hF : dm.torrents.lookup t with
        | none => exact hF
        | some F =>
          obtain ⟨info', hmem⟩ := h.torrents t F hF
          exact (hnew info' hmem).elim
      · show messagesFor t (dm.queuedEvents ++ [.addTorrent t info]) = _
        rw [messagesFor_append, hnone, messagesFor_same (show (DiskMessageIn.addTorrent t info).torrent = t from rfl)]
        rfl

theorem Registered.moved (h : Registered added dm) {op : DiskOp} (hop : op.message = none)
    {out : Option DiskMessageOut} (hm : Moved fs sha1 dm op out dm') :
    Registered added dm' ∧ ∀ msg ∈ out, msg.strays = false := by
  refine ⟨⟨?_, ?_, fun x hx => (h.announced x hx).moved hop hm⟩, ?_⟩
  · intro t F hF
    rcases hm.lookup hF with h1 | ⟨info, hhead, -, -⟩
    · exact h.torrents t F h1
    · exact h.messages _ (List.mem_of_mem_head? hhead)
  · cases hm with
    | call hcall =>
      rw [hop] at hcall
      cases hcall
    | job hjob =>
      rw [hjob.queuedEvents]
      exact h.messages
    | idle hq => exact h.messages
    | message hq hm =>
      have htail := fun m hmem => h.messages m (by rw [hq]; exact List.mem_cons_of_mem _ hmem)
      rcases hm.queue with ⟨-, hq', -⟩ | ⟨-, hq'⟩ <;> rw [hq']
      · intro m hmem
        rcases List.mem_append.mp hmem with hmem | hmem
        · exact htail m hmem
        · rw [List.mem_singleton.mp hmem]
          exact h.messages _ (by rw [hq]; exact List.mem_cons_self)
      · exact htail
  · intro out' hout
    cases hm with
    | call hcall => cases hout
    | idle hq => cases hout
    | job hjob =>
      cases hjob with
      | finished hjobs hpoll =>
        cases hout
        exact strays_answerOf _
      | pending hjobs hpoll => cases hout
    | message hq hm =>
      obtain ⟨info, hmem⟩ := h.messages _ (by rw [hq]; exact List.mem_cons_self)
      exact (h.announced _ hmem).strays hq hm hout

/-- **A poll keeps the torrents registered**, and its answer does not stray. -/
theorem Registered.poll (h : Registered added dm) {rounds : Nat} {out : Option DiskMessageOut}
    (hpoll : DiskPoll.left (DiskManager.poll fs sha1 order rounds dm) = some (out, dm')) :
    Registered added dm' ∧ ∀ msg ∈ out, msg.strays = false := by
  obtain ⟨ops, hops⟩ := poll_run hpoll
  obtain ⟨h1, h2⟩ := hops.inv (I := Registered added) (A := fun msg => msg.strays = false)
    (fun dm op out dm' hI hop hm => hI.moved hop hm) h
  exact ⟨h1, fun msg hmsg => h2 msg (Option.mem_toList.mpr hmsg)⟩

theorem Registered.ready (h : Registered added dm) {rounds : Nat} {out : DiskMessageOut}
    (hpoll : DiskManager.poll fs sha1 order rounds dm = .ready out dm') :
    Registered added dm' ∧ out.strays = false := by
  have hleft : DiskPoll.left (DiskManager.poll fs sha1 order rounds dm) = some (some out, dm') := by
    rw [hpoll]
    rfl
  obtain ⟨h1, h2⟩ := h.poll hleft
  exact ⟨h1, h2 out rfl⟩

theorem Registered.pending (h : Registered added dm) {rounds : Nat}
    (hpoll : DiskManager.poll fs sha1 order rounds dm = .pending dm') : Registered added dm' := by
  have hleft : DiskPoll.left (DiskManager.poll fs sha1 order rounds dm) = some (none, dm') := by
    rw [hpoll]
    rfl
  exact (h.poll hleft).1

end

end DiskManager

end Btt
