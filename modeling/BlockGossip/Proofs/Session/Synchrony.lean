import BlockGossip.Proofs.Session.Watching

/-!
# Timers, tracker and staging agree

In a session that events have led to, exactly what waits has a timer, and
exactly as the actions say: whoever replays a transcript, setting, cancelling
and firing timers, has the timers that the session has, sets none twice and
cancels none that does not run.
-/

namespace BlockGossip

/-- The timers that go on running at an event: a timer that fires does not. -/
def Event.leaves (armed : List TimerId) : Event → List TimerId
  | .timerFired timer => armed.erase timer
  | _ => armed

/-- The timers that run after an action; none where it sets a timer that runs,
or cancels one that does not. -/
def replayAction (armed : List TimerId) : Action → Option (List TimerId)
  | .setTimer timer _ => if timer ∈ armed then none else some (armed ++ [timer])
  | .cancelTimer timer => if timer ∈ armed then some (armed.erase timer) else none
  | .send .. => some armed

namespace Session

variable {setup : Setup} {config : SessionConfig} {s : Session} {log : List Entry}
  {armed timers : List TimerId} {ids : List BlockId}

/-- The timers that run at the end of a transcript, by its events and actions alone. -/
def replay (log : List Entry) : Option (List TimerId) :=
  log.foldlM (Entry.watched replayAction fun armed _ e => e.leaves armed) []

/-- The session after events, each at its time. -/
def afterAll (s : Session) (events : List (Time × Event)) : Session :=
  events.foldl (fun s x => s.after x.1 x.2) s

theorem Reachable.afterAll (h : Reachable setup config s) (events : List (Time × Event)) :
    Reachable setup config (s.afterAll events) := by
  induction events generalizing s with
  | nil => exact h
  | cons x events ih => exact ih (h.step x.1 x.2)

-- ---------------------------------------------------------------------------
-- Replay
-- ---------------------------------------------------------------------------

theorem replay_sets (h : ids.Nodup) (hnot : ∀ id ∈ ids, .inventoryTimeout id ∉ armed)
    (after : Duration) :
    (ids.map fun id => .setTimer (.inventoryTimeout id) after).foldlM replayAction armed =
      some (armed ++ ids.map .inventoryTimeout) := by
  induction ids generalizing armed with
  | nil => simp
  | cons id ids ih =>
    obtain ⟨hid, hids⟩ := List.nodup_cons.mp h
    have hrest : ∀ i ∈ ids, .inventoryTimeout i ∉ armed ++ [.inventoryTimeout id] := by
      intro i hi hmem
      rcases List.mem_append.mp hmem with hmem | hmem
      · exact hnot i (List.mem_cons_of_mem _ hi) hmem
      · obtain rfl := TimerId.inventoryTimeout.inj (List.mem_singleton.mp hmem)
        exact hid hi
    rw [List.map_cons, List.foldlM_cons, replayAction, if_neg (hnot id (List.mem_cons_self ..))]
    exact (ih hids hrest).trans (by simp)

/-- Timers are all cancelled in any order. -/
theorem replay_cancels (h : timers.Perm armed) :
    (timers.map .cancelTimer).foldlM replayAction armed = some [] := by
  induction timers generalizing armed with
  | nil =>
    rw [List.nil_perm.mp h]
    rfl
  | cons timer timers ih =>
    have hmem : timer ∈ armed := h.mem_iff.mp (List.mem_cons_self ..)
    rw [List.map_cons, List.foldlM_cons, replayAction, if_pos hmem]
    exact ih (List.cons_perm_iff_perm_erase.mp h).2

theorem replay_watches : Watches replayAction fun s armed => armed = s.armed where
  stable h harmed _ := h.trans harmed.symm
  informs h armed := by
    obtain ⟨receiver, kind, frame, charge, rfl⟩ := h.eq_send
    rfl
  sets after h _ hnot harmed _ := ⟨_, by rw [h, replayAction, if_neg hnot], harmed.symm⟩
  ends h _ hmem harmed _ _ := ⟨_, by rw [h, replayAction, if_pos hmem], harmed.symm⟩
  requests {s ids} ht _ peer full := by
    refine requestBlocks_follows (fun _ _ _ _ _ => rfl) ht peer full ?_
    rintro _ rfl
    refine ⟨_, replay_sets ht.pending_distinct (fun _ hid => ht.not_armed hid) _, ?_⟩
    by_cases hne : ids = []
    · subst hne
      exact List.append_nil _
    · exact (requestBlocks_eq ht hne peer full).1.symm

theorem met_armed (s : Session) (e : Event) : (s.met e).armed = e.leaves s.armed := by
  cases e <;> rfl

theorem onStop_snd (hr : s.running = true) : s.onStop.2 = s.armedTimers.map .cancelTimer := by
  have hn : ¬((!s.running) = true) := by simp [hr]
  unfold onStop
  rw [if_neg hn]

theorem onStop_replayed (hr : s.running = true) :
    s.onStop.2.foldlM replayAction s.armed = some s.onStop.1.armed := by
  have harmed : s.onStop.1.armed = [] := (onStop_resting hr).armed
  rw [harmed, onStop_snd hr]
  exact replay_cancels (List.mergeSort_perm ..)

/-- Each answer of a reachable session says what becomes of its timers. -/
theorem Reachable.replayed (h : Reachable setup config s) (now : Time) (e : Event) :
    (s.answer now e).foldlM replayAction (e.leaves s.armed) = some (s.after now e).armed := by
  by_cases he : e = .stop
  · subst he
    cases hr : s.running with
    | true => exact onStop_replayed (s := s.setTime now) hr
    | false =>
      unfold answer after
      rw [handle, onStop_idle (s := s.setTime now) hr]
      rfl
  · obtain ⟨_, hc, rfl⟩ := h.follows replay_watches now he _ (met_armed (s.setTime now) e).symm
    exact hc

theorem Logged.replayed (h : Logged setup config s log) : replay log = some s.armed := by
  obtain ⟨_, hc, rfl⟩ := h.watched replayAction (fun armed _ e => e.leaves armed)
    (fun s armed => armed = s.armed) rfl (by
      rintro s hs now e _ rfl
      exact ⟨_, hs.replayed now e, rfl⟩)
  exact hc

-- ---------------------------------------------------------------------------
-- Timers are not replaced
-- ---------------------------------------------------------------------------

/-- The timers that have been cancelled; none where one of them is set again. -/
def renewAction (cancelled : List TimerId) : Action → Option (List TimerId)
  | .setTimer timer _ => if timer ∈ cancelled then none else some cancelled
  | .cancelTimer timer => some (timer :: cancelled)
  | .send .. => some cancelled

/-- The timers of requests for blocks that have come. -/
def Settled (s : Session) (cancelled : List TimerId) : Prop :=
  ∀ timer ∈ cancelled, ∃ id, timer = .inventoryTimeout id ∧ s.isKnown id = true

theorem renew_watches : Watches renewAction Settled where
  stable h _ hgrows timer hmem := (h timer hmem).imp fun id hid => hid.imp_right (hgrows id)
  informs h cancelled := by
    obtain ⟨receiver, kind, frame, charge, rfl⟩ := h.eq_send
    rfl
  sets {s t cancelled timer} after h hother _ _ hgrows := by
    have hnot : timer ∉ cancelled := fun hmem => by
      obtain ⟨id, hid, -⟩ := h timer hmem
      exact hother id hid
    exact ⟨cancelled, by rw [renewAction, if_neg hnot],
      fun timer hmem => (h timer hmem).imp fun id hid => hid.imp_right (hgrows id)⟩
  ends {s t cancelled id} h _ _ _ hgrows hknown := by
    refine ⟨.inventoryTimeout id :: cancelled, rfl, fun timer hmem => ?_⟩
    rcases List.mem_cons.mp hmem with rfl | hmem
    · exact ⟨id, rfl, hknown⟩
    · exact (h timer hmem).imp fun id hid => hid.imp_right (hgrows id)
  requests {s ids} ht hunknown peer full := by
    refine requestBlocks_follows (fun _ _ _ _ _ => rfl) ht peer full fun cancelled h => ?_
    refine ⟨cancelled, foldlM_quiet fun a ha => ?_, fun timer hmem => ?_⟩
    · obtain ⟨id, hid, rfl⟩ := List.mem_map.mp ha
      refine if_neg fun hmem => ?_
      obtain ⟨i, hi, hknown⟩ := h _ hmem
      obtain rfl := TimerId.inventoryTimeout.inj hi
      exact Bool.noConfusion (hknown.symm.trans (hunknown id hid))
    · exact (h timer hmem).imp fun id hid =>
        hid.imp_right ((requestBlocks_asking s peer ids full).grows id)

theorem mem_of_renewAction {cancelled cancelled' : List TimerId} {a : Action} {timer : TimerId}
    (hmem : timer ∈ cancelled) (h : renewAction cancelled a = some cancelled') :
    timer ∈ cancelled' := by
  cases a with
  | send => exact Option.some.inj h ▸ hmem
  | setTimer =>
    rw [renewAction] at h
    split at h
    · exact nomatch h
    · exact Option.some.inj h ▸ hmem
  | cancelTimer => exact Option.some.inj h ▸ List.mem_cons_of_mem _ hmem

/-- A timer that has been cancelled stays on record. -/
theorem mem_of_renewed {actions : List Action} {cancelled cancelled' : List TimerId}
    {timer : TimerId} (h : actions.foldlM renewAction cancelled = some cancelled')
    (hmem : timer ∈ cancelled ∨ .cancelTimer timer ∈ actions) : timer ∈ cancelled' := by
  induction actions generalizing cancelled with
  | nil =>
    rw [← Option.some.inj h]
    exact hmem.resolve_right List.not_mem_nil
  | cons a rest ih =>
    rw [List.foldlM_cons, Option.bind_eq_bind, Option.bind_eq_some_iff] at h
    obtain ⟨b, hb, h⟩ := h
    refine ih h ?_
    rcases hmem with hmem | hmem
    · exact .inl (mem_of_renewAction hmem hb)
    · rcases List.mem_cons.mp hmem with rfl | hmem
      · exact .inl (Option.some.inj hb ▸ List.mem_cons_self ..)
      · exact .inr hmem

theorem onStop_cancels : ∀ a ∈ s.onStop.2, ∃ timer, a = .cancelTimer timer := by
  cases hr : s.running with
  | false =>
    rw [onStop_idle hr]
    exact nofun
  | true =>
    rw [onStop_snd hr]
    intro a ha
    obtain ⟨timer, -, rfl⟩ := List.mem_map.mp ha
    exact ⟨timer, rfl⟩

/-- No answer cancels a timer and then sets it. -/
theorem Reachable.not_replaced (h : Reachable setup config s) (now : Time) (e : Event)
    (timer : TimerId) (after : Duration) :
    ¬[Action.cancelTimer timer, .setTimer timer after].Sublist (s.answer now e) := by
  intro hsub
  by_cases he : e = .stop
  · subst he
    obtain ⟨_, hcancel⟩ := onStop_cancels (s := s.setTime now) _
      (hsub.subset (List.mem_cons_of_mem _ (List.mem_singleton_self _)))
    exact nomatch hcancel
  · obtain ⟨c, hc, -⟩ := h.follows renew_watches now he [] nofun
    obtain ⟨first, rest, hanswer, hcancel, hset⟩ := List.cons_sublist_iff.mp hsub
    obtain ⟨first, between, rfl⟩ := List.append_of_mem hcancel
    obtain ⟨between', last, rfl⟩ := List.append_of_mem (List.singleton_sublist.mp hset)
    have hsplit : s.answer now e = first ++ .cancelTimer timer ::
        ((between ++ between') ++ .setTimer timer after :: last) := by simp [hanswer]
    rw [hsplit] at hc
    obtain ⟨_, -, hnever⟩ := exists_release (P := (timer ∈ ·)) (R := fun _ => False) hc
      (fun _ _ hb => Option.some.inj hb ▸ List.mem_cons_self ..) (fun _ hmem => if_pos hmem)
      fun _ _ _ _ hmem hb => mem_of_renewAction hmem hb
    exact hnever

/-- But for a stop only requests are cancelled, and only for blocks that have come. -/
theorem Reachable.cancelled (h : Reachable setup config s) (now : Time) {e : Event}
    {timer : TimerId} (hmem : .cancelTimer timer ∈ s.answer now e) :
    e = .stop ∨ ∃ id, timer = .inventoryTimeout id ∧ (s.after now e).isKnown id = true := by
  by_cases he : e = .stop
  · exact .inl he
  · obtain ⟨c, hc, hsettled⟩ := h.follows renew_watches now he [] nofun
    exact .inr (hsettled timer (mem_of_renewed hc (.inr hmem)))

-- ---------------------------------------------------------------------------
-- Stopped sessions
-- ---------------------------------------------------------------------------

/-- The session does not run, and what is settled is as it was. -/
structure Stopped (s t : Session) : Prop where
  running : t.running = false
  ledger : t.ledger = s.ledger
  orphans : t.orphans = s.orphans
  pool : t.pool = s.pool

theorem stopped_after (s : Session) (now : Time) : Stopped s (s.after now .stop) := by
  show Stopped s (s.setTime now).onStop.1
  unfold onStop
  split
  · rename_i hr
    have hr : (s.setTime now).running = false := by simpa using hr
    exact ⟨hr, rfl, rfl, rfl⟩
  · exact ⟨rfl, rfl, rfl, rfl⟩

theorem Stopped.afterAll {events : List (Time × Event)} {t : Session} (h : Stopped s t)
    (hstart : ∀ x ∈ events, x.2 ≠ .start) : Stopped s (t.afterAll events) := by
  induction events generalizing t with
  | nil => exact h
  | cons x events ih =>
    refine ih ?_ fun y hy => hstart y (List.mem_cons_of_mem _ hy)
    have hidle : t.after x.1 x.2 = t.setTime x.1 :=
      congrArg Prod.fst
        (handle_stopped (s := t.setTime x.1) h.running (hstart x (List.mem_cons_self ..)))
    show Stopped s (t.after x.1 x.2)
    rw [hidle]
    exact ⟨h.running, h.ledger, h.orphans, h.pool⟩

-- ---------------------------------------------------------------------------
-- Agreement
-- ---------------------------------------------------------------------------

/-- Exactly what waits has a timer; where the session does not run, nothing waits. -/
structure Agreeing (s : Session) : Prop where
  distinct : s.armed.Nodup
  requests : ∀ id, .inventoryTimeout id ∈ s.armed ↔ s.inventory.isTracked id = true
  flags : ∀ id entry, s.inventory.get? id = some entry → entry.timerArmed = true
  validations : ∀ id, .validation id ∈ s.armed ↔ s.staging.isReceived id = true
  next : .nextTransaction ∈ s.armed ↔ s.running = true ∧ s.setup.role.originates = true
  resting : s.running = false → Resting s

theorem Reachable.agreeing (h : Reachable setup config s) : Agreeing s where
  distinct := h.strict.distinct
  requests id :=
    ⟨fun hmem => (h.strict.requests id hmem).1,
      fun htracked => (h.tidy.requests id htracked).resolve_right List.not_mem_nil⟩
  flags id entry hentry := (h.strict.flags id entry hentry).resolve_right List.not_mem_nil
  validations id := ⟨h.strict.validations id, h.tidy.validations id⟩
  next := h.strict.next
  resting := h.resting

/-- Timers, tracker and staging agree after every transcript, and the transcript
alone tells the timers: replayed, it never sets a timer that runs, nor cancels
one that does not. No answer replaces a timer, and no request whose time runs
out is found to be stale. From a stop on, until the next start, what is settled
stays as it was. -/
theorem logged_agreeing (h : Logged setup config s log) :
    Agreeing s ∧ replay log = some s.armed ∧
      (∀ now e timer after,
        ¬[Action.cancelTimer timer, .setTimer timer after].Sublist (s.answer now e)) ∧
      (∀ id, .inventoryTimeout id ∈ s.armed →
        (s.inventory.expire id s.config.maxRequestAttempts).1 ≠ .stale) ∧
      ∀ now events, (∀ x ∈ events, x.2 ≠ Event.start) →
        Stopped s ((s.after now .stop).afterAll events) := by
  refine ⟨h.reachable.agreeing, h.replayed, h.reachable.not_replaced, fun id hmem hstale => ?_,
    fun now events hstart => (stopped_after s now).afterAll hstart⟩
  have htracked := (h.reachable.strict.requests id hmem).1
  exact Bool.noConfusion ((Inventory.not_isTracked_of_stale hstale).symm.trans htracked)

/-- A block that is announced is requested, and the request given up at a stop. -/
theorem logged_agreeing_announced :
    let started := (fresh ⟨1, .committer, [2], .standard, .usual, .empty⟩ .usual).after 0.0 .start
    let s := started.after 1.0
      (.bytesReceived 2 "\x7b\"type\":\"blocks\",\"message\":0,\"inv\":[\"5/2\"]\x7d#".toUTF8.toList)
    Agreeing s ∧ s.armed = [.inventoryTimeout ⟨5, 2⟩] ∧
      s.answer 2.0 .stop = [.cancelTimer (.inventoryTimeout ⟨5, 2⟩)] :=
  ⟨(logged_agreeing (.step (.step .fresh 0.0 .start) 1.0 (.bytesReceived 2 _))).1,
    by decide +kernel, by decide +kernel⟩

end Session

end BlockGossip
