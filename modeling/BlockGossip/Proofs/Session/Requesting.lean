import BlockGossip.Proofs.Session.Pending
import BlockGossip.Proofs.Session.Transcript

/-!
# Requests and their timers

`Tidy` says that whatever waits has a timer; `Strict` says the rest: a timer
runs only for what waits, and the tracker's flags say so. A step that requests
blocks requests those that are neither known nor requested yet (`Requesting`).
-/

namespace BlockGossip

-- ---------------------------------------------------------------------------
-- Entries of the tracker
-- ---------------------------------------------------------------------------

namespace Inventory

variable {κ : Type} [DecidableEq κ] {inv : Inventory κ} {k k' : κ} {peer : NodeId}
  {entry : InventoryEntry}

/-- An entry after an announcement is the new one, or has the flag it had. -/
theorem get?_announce (h : (inv.announce k peer).2.get? k' = some entry) :
    (k = k' ∧ inv.isTracked k = false) ∨
      ∃ old, inv.get? k' = some old ∧ entry.timerArmed = old.timerArmed := by
  unfold announce at h
  cases hk : inv.get? k with
  | none =>
    rw [hk] at h
    by_cases he : k = k'
    · refine .inl ⟨he, ?_⟩
      rw [isTracked, Table.contains, ← get?, hk]
      rfl
    · refine .inr ⟨entry, ?_, rfl⟩
      simpa [get?, he] using h
  | some old =>
    simp only [hk] at h
    split at h
    · exact .inr ⟨entry, h, rfl⟩
    · by_cases he : k = k'
      · subst he
        refine .inr ⟨old, hk, ?_⟩
        obtain rfl : { old with announcers := old.announcers ++ [peer] } = entry := by
          simpa [get?] using h
        rfl
      · refine .inr ⟨entry, ?_, rfl⟩
        simpa [get?, he] using h

/-- Once a request is marked its entry is flagged; no other entry changes. -/
theorem get?_markRequested (h : (inv.markRequested k peer).get? k' = some entry) :
    entry.timerArmed = true ∨ (k ≠ k' ∧ inv.get? k' = some entry) := by
  unfold markRequested at h
  by_cases he : k = k'
  · subst he
    refine .inl ?_
    cases hk : inv.get? k with
    | none =>
      rw [hk] at h
      exact nomatch hk.symm.trans h
    | some old =>
      rw [hk] at h
      simp only [get?, Table.get?_insert, if_true, Option.some.injEq] at h
      rw [← h]
  · refine .inr ⟨he, ?_⟩
    cases hk : inv.get? k with
    | none => rwa [hk] at h
    | some old =>
      rw [hk] at h
      simpa [get?, he] using h

theorem get?_resolve (h : (inv.resolve k).2.get? k' = some entry) :
    k ≠ k' ∧ inv.get? k' = some entry := by
  by_cases he : k = k' <;> simp_all [resolve, get?]

/-- What is given up is forgotten, as if it had come. -/
theorem expire_abandoned {limit : UInt32} (h : (inv.expire k limit).1 = .abandoned) :
    (inv.expire k limit).2 = (inv.resolve k).2 := by
  unfold expire at h ⊢
  split
  · rename_i hk
    rw [hk] at h
    exact nomatch h
  · rename_i entry hk
    rw [hk] at h
    simp only at h ⊢
    split
    · rename_i peer hpeer
      rw [hpeer] at h
      simp only at h ⊢
      split
      · rename_i hl
        rw [if_pos hl] at h
        exact nomatch h
      · rfl
    · rfl

/-- Expiry changes the entry of its item alone. -/
theorem get?_expire {limit : UInt32} (h : (inv.expire k limit).2.get? k' = some entry) :
    k = k' ∨ inv.get? k' = some entry := by
  by_cases he : k = k'
  · exact .inl he
  · refine .inr ?_
    unfold expire at h
    split at h
    · exact h
    · split at h
      · split at h
        · simpa [get?, he] using h
        · simpa [get?, he] using h
      · simpa [get?, he] using h

end Inventory

namespace Session

variable {s t : Session} {id : BlockId} {pending more ids : List BlockId} {peer sender : NodeId}
  {timer : TimerId}

-- ---------------------------------------------------------------------------
-- Timers that wait for something
-- ---------------------------------------------------------------------------

/-- A timer runs only for what waits, and the tracker's flags say so, but for
the ids listed: they are tracked, and their timers are still to come. -/
structure Strict (s : Session) (pending : List BlockId) : Prop where
  distinct : s.armed.Nodup
  pending_distinct : pending.Nodup
  pending_tracked : ∀ id ∈ pending, s.inventory.isTracked id = true
  requests : ∀ id, .inventoryTimeout id ∈ s.armed →
    s.inventory.isTracked id = true ∧ id ∉ pending
  flags : ∀ id entry, s.inventory.get? id = some entry →
    entry.timerArmed = true ∨ id ∈ pending
  validations : ∀ id, .validation id ∈ s.armed → s.staging.isReceived id = true
  next : .nextTransaction ∈ s.armed ↔ s.running = true ∧ s.setup.role.originates = true

theorem fresh_strict (setup : Setup) (config : SessionConfig) :
    Strict (.fresh setup config) [] where
  distinct := List.nodup_nil
  pending_distinct := List.nodup_nil
  pending_tracked := nofun
  requests := nofun
  flags := nofun
  validations := nofun
  next := ⟨nofun, nofun⟩

namespace Strict

/-- Ledger, orphans and partial frames do not matter. -/
theorem of_aside (h : t.core =
    { s.core with ledger := t.ledger, orphans := t.orphans, frames := t.frames })
    (ht : Strict s pending) : Strict t pending := by
  have hs : t.staging = s.staging := congrArg Core.staging h
  have hi : t.inventory = s.inventory := congrArg Core.inventory h
  have ha : t.armed = s.armed := congrArg Core.armed h
  have hr : t.running = s.running := congrArg Core.running h
  have hp : t.setup = s.setup := congrArg Core.setup h
  constructor
  · rw [ha]; exact ht.distinct
  · exact ht.pending_distinct
  · rw [hi]; exact ht.pending_tracked
  · rw [ha, hi]; exact ht.requests
  · rw [hi]; exact ht.flags
  · rw [ha, hs]; exact ht.validations
  · rw [ha, hr, hp]; exact ht.next

theorem of_core (h : t.core = s.core) (ht : Strict s pending) : Strict t pending := by
  refine ht.of_aside ?_
  rw [h, show t.ledger = s.ledger from congrArg Core.ledger h,
    show t.orphans = s.orphans from congrArg Core.orphans h,
    show t.frames = s.frames from congrArg Core.frames h]
  rfl

theorem perm (ht : Strict s pending) (h : pending.Perm more) : Strict s more where
  distinct := ht.distinct
  pending_distinct := h.nodup_iff.mp ht.pending_distinct
  pending_tracked id hid := ht.pending_tracked id (h.mem_iff.mpr hid)
  requests id hid := (ht.requests id hid).imp_right (mt h.mem_iff.mpr)
  flags id entry hid := (ht.flags id entry hid).imp_right h.mem_iff.mp
  validations := ht.validations
  next := ht.next

theorem not_armed (ht : Strict s pending) (h : id ∈ pending) : .inventoryTimeout id ∉ s.armed :=
  fun ha => (ht.requests id ha).2 h

end Strict

-- ---------------------------------------------------------------------------
-- Requests
-- ---------------------------------------------------------------------------

theorem armTimer_of_not_mem (h : timer ∉ s.armed) (after : Duration) :
    s.armTimer timer after =
      ({ s with armed := s.armed ++ [timer] }, [.setTimer timer after]) := by
  rw [armTimer, if_neg (by simpa using h)]

theorem startRequest_eq (h : .inventoryTimeout id ∉ s.armed) :
    startRequest peer s id =
      ({ s with
          inventory := s.inventory.markRequested id peer
          armed := s.armed ++ [.inventoryTimeout id] },
        [.setTimer (.inventoryTimeout id) s.config.invTimeout]) :=
  armTimer_of_not_mem (s := { s with inventory := s.inventory.markRequested id peer }) h _

theorem startRequest_strict (ht : Strict s (id :: pending)) :
    Strict (startRequest peer s id).1 pending := by
  have hid := ht.not_armed (List.mem_cons_self ..)
  obtain ⟨hnot, hdistinct⟩ := List.nodup_cons.mp ht.pending_distinct
  rw [startRequest_eq hid]
  constructor
  · exact ht.distinct.append (List.nodup_singleton _) (by simpa using hid)
  · exact hdistinct
  · intro i hi
    rw [Inventory.isTracked_markRequested]
    exact ht.pending_tracked i (List.mem_cons_of_mem _ hi)
  · intro i hi
    rw [Inventory.isTracked_markRequested]
    rcases List.mem_append.mp hi with hi | hi
    · exact (ht.requests i hi).imp_right (mt (List.mem_cons_of_mem _))
    · obtain rfl := TimerId.inventoryTimeout.inj (List.mem_singleton.mp hi)
      exact ⟨ht.pending_tracked i (List.mem_cons_self ..), hnot⟩
  · intro i entry hi
    rcases Inventory.get?_markRequested hi with hflag | ⟨hne, hold⟩
    · exact .inl hflag
    · refine (ht.flags i entry hold).imp_right fun hmem => ?_
      exact (List.mem_cons.mp hmem).resolve_left (Ne.symm hne)
  · intro i hi
    simpa using ht.validations i (by simpa using hi)
  · simpa using ht.next

theorem startRequests_strict (ht : Strict s (ids ++ pending)) :
    Strict (foldActions (startRequest peer) s ids).1 pending := by
  induction ids generalizing s with
  | nil => exact ht
  | cons id ids ih => exact ih (startRequest_strict ht)

/-- Requests set one timer each, in order. -/
theorem startRequests_eq (ht : Strict s (ids ++ pending)) :
    (foldActions (startRequest peer) s ids).1.armed = s.armed ++ ids.map .inventoryTimeout ∧
      (foldActions (startRequest peer) s ids).2 =
        ids.map fun id => .setTimer (.inventoryTimeout id) s.config.invTimeout := by
  induction ids generalizing s with
  | nil => exact ⟨(List.append_nil _).symm, rfl⟩
  | cons id ids ih =>
    obtain ⟨harmed, hsnd⟩ := ih (startRequest_strict ht)
    rw [(startRequest_asking peer s id).config] at hsnd
    rw [startRequest_eq (ht.not_armed (List.mem_cons_self ..))] at harmed hsnd
    rw [foldActions_cons, startRequest_eq (ht.not_armed (List.mem_cons_self ..)), hsnd]
    exact ⟨harmed.trans (List.append_assoc ..), rfl⟩

/-- Requests set their timers and are sent then. -/
theorem requestBlocks_eq (ht : Strict s ids) (hne : ids ≠ []) (peer : NodeId) (full : Bool) :
    (s.requestBlocks peer ids full).1.armed = s.armed ++ ids.map .inventoryTimeout ∧
      ∃ headersCharge dataCharge, (s.requestBlocks peer ids full).2 =
        ids.map (fun id => .setTimer (.inventoryTimeout id) s.config.invTimeout) ++
          ((if full then sendActions [peer] (Envelope.getHeaders ids) headersCharge else []) ++
            sendActions [peer] (Envelope.getData ids) dataCharge) := by
  have ht : Strict s (ids ++ []) := by simpa using ht
  obtain ⟨harmed, hsnd⟩ := startRequests_eq ht
  refine ⟨(congrArg Core.armed (requestBlocks_core s peer ids full)).trans harmed, ?_⟩
  have hn : ¬(ids.isEmpty = true) := by simpa using hne
  unfold requestBlocks
  rw [if_neg hn, ← hsnd]
  refine ⟨(foldActions (startRequest peer) s ids).1.charge .getHeaders ids.length 0,
    (foldActions (startRequest peer) s ids).1.charge .getData ids.length 0, ?_⟩
  rw [← List.append_assoc]
  cases full <;> rfl

theorem requestBlocks_strict (ht : Strict s ids) (full : Bool) :
    Strict (s.requestBlocks peer ids full).1 [] :=
  .of_core (requestBlocks_core s peer ids full) (startRequests_strict (by simpa using ht))

-- ---------------------------------------------------------------------------
-- Announcements
-- ---------------------------------------------------------------------------

theorem announced_strict (ht : Strict s pending) :
    Strict (s.announced peer id).2
      (if (s.announced peer id).1 then id :: pending else pending) := by
  have hcore := announced_core s peer id
  have hs : (s.announced peer id).2.staging = s.staging := congrArg Core.staging hcore
  have ha : (s.announced peer id).2.armed = s.armed := congrArg Core.armed hcore
  have hr : (s.announced peer id).2.running = s.running := congrArg Core.running hcore
  have hp : (s.announced peer id).2.setup = s.setup := congrArg Core.setup hcore
  have hi : (s.announced peer id).2.inventory = (s.inventory.announce id peer).2 :=
    congrArg Core.inventory hcore
  have htracked (i : BlockId) (h : s.inventory.isTracked i = true) :
      (s.announced peer id).2.inventory.isTracked i = true := by
    rw [hi, Inventory.isTracked_announce, h, Bool.or_true]
  rw [announced_fst]
  cases htr : s.inventory.isTracked id with
  | true =>
    constructor
    · rw [ha]; exact ht.distinct
    · exact ht.pending_distinct
    · exact fun i hmem => htracked i (ht.pending_tracked i hmem)
    · rw [ha]
      exact fun i hmem => (ht.requests i hmem).imp_left (htracked i)
    · intro i entry hentry
      rw [hi] at hentry
      rcases Inventory.get?_announce hentry with ⟨rfl, hnew⟩ | ⟨old, hold, hflag⟩
      · exact Bool.noConfusion (htr.symm.trans hnew)
      · rw [hflag]
        exact ht.flags i old hold
    · rw [ha, hs]; exact ht.validations
    · rw [ha, hr, hp]; exact ht.next
  | false =>
    have hnew (i : BlockId) (h : s.inventory.isTracked i = true) : i ≠ id := by
      rintro rfl
      exact Bool.noConfusion (htr.symm.trans h)
    constructor
    · rw [ha]; exact ht.distinct
    · refine List.nodup_cons.mpr ⟨fun hmem => ?_, ht.pending_distinct⟩
      exact hnew id (ht.pending_tracked id hmem) rfl
    · intro i hmem
      rcases List.mem_cons.mp hmem with rfl | hmem
      · rw [hi, Inventory.isTracked_announce]
        simp
      · exact htracked i (ht.pending_tracked i hmem)
    · rw [ha]
      intro i hmem
      obtain ⟨htracked', hnot⟩ := ht.requests i hmem
      exact ⟨htracked i htracked', List.not_mem_cons_of_ne_of_not_mem (hnew i htracked') hnot⟩
    · intro i entry hentry
      rw [hi] at hentry
      rcases Inventory.get?_announce hentry with ⟨rfl, -⟩ | ⟨old, hold, hflag⟩
      · exact .inr (List.mem_cons_self ..)
      · rw [hflag]
        exact (ht.flags i old hold).imp_right (List.mem_cons_of_mem _)
    · rw [ha, hs]; exact ht.validations
    · rw [ha, hr, hp]; exact ht.next

/-- An id that is noted comes before those noted earlier. -/
theorem perm_noted (isNew : Bool) :
    (ids ++ if isNew then id :: pending else pending).Perm
      ((if isNew then id :: ids else ids) ++ pending) := by
  cases isNew
  · exact .refl _
  · exact List.perm_middle

theorem announceAll_strict (ht : Strict s pending) (peer : NodeId) (ids : List BlockId) :
    Strict (announceAll peer s ids).1 ((announceAll peer s ids).2 ++ pending) := by
  induction ids generalizing s pending with
  | nil => exact ht
  | cons id ids ih =>
    rw [announceAll_cons]
    split
    · exact ih ht
    · exact (ih (announced_strict ht)).perm (perm_noted _)

theorem notingHeader_strict (ht : Strict s pending) (header : Block) :
    Strict (s.notingHeader header) pending := by
  refine ⟨ht.distinct, ht.pending_distinct, ht.pending_tracked, ht.requests, ht.flags,
    fun i hi => ?_, ht.next⟩
  rw [(notingHeader_asking s header).isReceived]
  exact ht.validations i hi

theorem noteHeader_strict (ht : Strict s pending) (header : Block) :
    Strict (noteHeader peer s header).2
      (if (noteHeader peer s header).1 then header.id :: pending else pending) := by
  rw [noteHeader_eq]
  split
  · exact notingHeader_strict ht header
  · exact announced_strict (notingHeader_strict ht header)

theorem noteHeaders_strict (ht : Strict s pending) (peer : NodeId) (headers : List Block) :
    Strict (noteHeaders peer s headers).1 ((noteHeaders peer s headers).2 ++ pending) := by
  induction headers generalizing s pending with
  | nil => exact ht
  | cons header rest ih =>
    rw [noteHeaders_cons]
    split
    · exact ih ht
    · exact (ih (noteHeader_strict ht header)).perm (perm_noted _)

theorem announced_armed (s : Session) (peer : NodeId) (id : BlockId) :
    (s.announced peer id).2.armed = s.armed :=
  congrArg Core.armed (announced_core s peer id)

theorem announceAll_armed (peer : NodeId) (s : Session) (ids : List BlockId) :
    (announceAll peer s ids).1.armed = s.armed := by
  induction ids generalizing s with
  | nil => rfl
  | cons id ids ih =>
    rw [announceAll_cons]
    split
    · exact ih s
    · exact (ih _).trans (announced_armed s peer id)

theorem noteHeaders_armed (peer : NodeId) (s : Session) (headers : List Block) :
    (noteHeaders peer s headers).1.armed = s.armed := by
  induction headers generalizing s with
  | nil => rfl
  | cons header rest ih =>
    rw [noteHeaders_cons]
    split
    · exact ih s
    · refine (ih _).trans ?_
      rw [noteHeader_eq]
      split
      · rfl
      · exact announced_armed (s.notingHeader header) peer header.id

/-- Only what is unknown is to be requested. -/
theorem announceAll_unknown (peer : NodeId) (s : Session) (ids : List BlockId) :
    ∀ i ∈ (announceAll peer s ids).2, s.isKnown i = false := by
  induction ids generalizing s with
  | nil => exact nofun
  | cons id ids ih =>
    rw [announceAll_cons]
    split
    · exact ih s
    · rename_i hk
      have hrest (i : BlockId) (hi : i ∈ (announceAll peer (s.announced peer id).2 ids).2) :
          s.isKnown i = false := by
        rw [← (announced_asking s peer id).isKnown]
        exact ih _ i hi
      intro i hi
      split at hi
      · rcases List.mem_cons.mp hi with rfl | hi
        · exact Bool.eq_false_iff.mpr hk
        · exact hrest i hi
      · exact hrest i hi

theorem noteHeaders_unknown (peer : NodeId) (s : Session) (headers : List Block) :
    ∀ i ∈ (noteHeaders peer s headers).2, s.isKnown i = false := by
  induction headers generalizing s with
  | nil => exact nofun
  | cons header rest ih =>
    rw [noteHeaders_cons]
    split
    · exact ih s
    · rename_i hk
      have hrest (i : BlockId) (hi : i ∈ (noteHeaders peer (noteHeader peer s header).2 rest).2) :
          s.isKnown i = false := by
        rw [← (noteHeader_asking peer s header).isKnown]
        exact ih _ i hi
      intro i hi
      split at hi
      · rcases List.mem_cons.mp hi with rfl | hi
        · exact Bool.eq_false_iff.mpr hk
        · exact hrest i hi
      · exact hrest i hi

/-- The step requests blocks, if any: those not known and not requested yet. -/
def Requesting (s : Session) (o : Outcome Session) : Prop :=
  ∃ (t : Session) (peer : NodeId) (ids : List BlockId) (full : Bool),
    Asking s t ∧ t.armed = s.armed ∧ Strict t ids ∧ (∀ id ∈ ids, s.isKnown id = false) ∧
      o = t.requestBlocks peer ids full

theorem Requesting.none {t : Session} (h : Asking s t) (ha : t.armed = s.armed)
    (ht : Strict t []) : Requesting s (t, []) :=
  ⟨t, 0, [], true, h, ha, ht, nofun, rfl⟩

theorem Requesting.strict {o : Outcome Session} (h : Requesting s o) : Strict o.1 [] := by
  obtain ⟨t, peer, ids, full, -, -, ht, -, rfl⟩ := h
  exact requestBlocks_strict ht full

theorem onInv_requesting (ht : Strict s []) (sender : NodeId) (e : Envelope) :
    Requesting s (s.onInv sender e) := by
  unfold onInv
  split
  · exact .none (.refl s) rfl ht
  · have hcore := countReceived_core s .inv (s.charge .inv e.inv.length 0)
    have hs := announceAll_strict (ht.of_core hcore) sender (parseKeys e.inv)
    rw [List.append_nil] at hs
    refine ⟨_, sender, _, true, (Asking.of_core hcore).trans (announceAll_asking ..),
      announceAll_armed .., hs, fun id hid => ?_, rfl⟩
    rw [← (Asking.of_core hcore).isKnown]
    exact announceAll_unknown _ _ _ id hid

theorem onHeaders_requesting (ht : Strict s []) (sender : NodeId) (e : Envelope) :
    Requesting s (s.onHeaders sender e) := by
  unfold onHeaders
  split
  · exact .none (.refl s) rfl ht
  · have hcore := countReceived_core s .headers (s.charge .headers e.blockRecords.length 0)
    have hs := noteHeaders_strict (ht.of_core hcore) sender e.blockRecords
    rw [List.append_nil] at hs
    refine ⟨_, sender, _, false, (Asking.of_core hcore).trans (noteHeaders_asking ..),
      noteHeaders_armed .., hs, fun id hid => ?_, rfl⟩
    rw [← (Asking.of_core hcore).isKnown]
    exact noteHeaders_unknown _ _ _ id hid

end Session

end BlockGossip
