import BlockGossip.Proofs.Session.Heard
import BlockGossip.Proofs.Session.Timers

/-!
# Watches that follow a session

What a watch must do to follow every answer of a session but that of a stop:
`Watches` lists it, one clause for each way in which the handlers set, end or
use a timer. The handlers are gone through once, in `handle_follows`.
-/

namespace BlockGossip.Session

variable {β : Type} {watch : β → Action → Option β} {sees : Session → β → Prop}
  {s t : Session} {id : BlockId} {ids : List BlockId} {peer sender : NodeId} {timer : TimerId}

/-- What is known before is known after. -/
def Grows (s t : Session) : Prop := ∀ id, s.isKnown id = true → t.isKnown id = true

theorem Grows.of_core (h : t.core = s.core) : Grows s t := by
  intro id hid
  rwa [isKnown_eq, h]

theorem Asking.grows (h : Asking s t) : Grows s t := fun id hid => (h.isKnown id).trans hid

/-- The watch depends on the timers that run and the blocks that are known, and
objects neither to messages that inform, nor to a timer that is set anew or
ended with its request, nor to requests for blocks that are unknown. -/
structure Watches (watch : β → Action → Option β) (sees : Session → β → Prop) : Prop where
  stable : ∀ {s t : Session} {b : β}, sees s b → t.armed = s.armed → Grows s t → sees t b
  informs : ∀ {a : Action}, Informs a → ∀ b, watch b a = some b
  sets : ∀ {s t : Session} {b : β} {timer : TimerId} (after : Duration), sees s b →
    (∀ id, timer ≠ .inventoryTimeout id) → timer ∉ s.armed → t.armed = s.armed ++ [timer] →
    Grows s t → ∃ c, watch b (.setTimer timer after) = some c ∧ sees t c
  ends : ∀ {s t : Session} {b : β} {id : BlockId}, sees s b → s.armed.Nodup →
    .inventoryTimeout id ∈ s.armed → t.armed = s.armed.erase (.inventoryTimeout id) →
    Grows s t → t.isKnown id = true →
    ∃ c, watch b (.cancelTimer (.inventoryTimeout id)) = some c ∧ sees t c
  requests : ∀ {s : Session} {ids : List BlockId}, Strict s ids →
    (∀ id ∈ ids, s.isKnown id = false) → ∀ peer full,
    Follows watch sees s (s.requestBlocks peer ids full)

/-- Where a watch pays no attention to messages, requests are the timers they set. -/
theorem requestBlocks_follows
    (hsend : ∀ b receiver kind frame charge, watch b (.send receiver kind frame charge) = some b)
    (ht : Strict s ids) (peer : NodeId) (full : Bool)
    (hsets : ∀ b, sees s b → ∃ c,
      (ids.map fun id => .setTimer (.inventoryTimeout id) s.config.invTimeout).foldlM watch b =
        some c ∧ sees (s.requestBlocks peer ids full).1 c) :
    Follows watch sees s (s.requestBlocks peer ids full) := by
  intro b hb
  obtain ⟨c, hc, hsees⟩ := hsets b hb
  refine ⟨c, ?_, hsees⟩
  by_cases hne : ids = []
  · subst hne
    exact hc
  obtain ⟨-, headersCharge, dataCharge, hsnd⟩ := requestBlocks_eq ht hne peer full
  rw [hsnd, List.foldlM_append, hc]
  refine foldlM_quiet fun a ha => ?_
  have hsent : ∃ receiver kind frame charge, a = .send receiver kind frame charge := by
    rcases List.mem_append.mp ha with ha | ha
    · split at ha
      · exact eq_send_of_mem_sendActions ha
      · exact absurd ha List.not_mem_nil
    · exact eq_send_of_mem_sendActions ha
  obtain ⟨receiver, kind, frame, charge, rfl⟩ := hsent
  exact hsend c receiver kind frame charge

-- ---------------------------------------------------------------------------
-- Messages
-- ---------------------------------------------------------------------------

theorem requesting_follows (hw : Watches watch sees) {o : Outcome Session}
    (h : Requesting s o) : Follows watch sees s o := by
  obtain ⟨t, peer, ids, full, hasking, harmed, ht, hunknown, rfl⟩ := h
  intro b hb
  refine hw.requests ht (fun id hid => ?_) peer full b (hw.stable hb harmed hasking.grows)
  exact (hasking.isKnown id).trans (hunknown id hid)

theorem receiveBlock_follows (hw : Watches watch sees) (ht : Strict s []) (sender : NodeId)
    (record : Block) : Follows watch sees s (receiveBlock sender s record) := by
  cases hk : s.isKnown record.id with
  | true =>
    rw [receiveBlock_known hk]
    exact .nil fun _ hb => hb
  | false =>
    have hnot := validation_not_armed ht hk
    rw [resolving_armed ht] at hnot
    have hknown (i : BlockId) :
        (s.holding sender record).isKnown i = true ↔ s.isKnown i = true ∨ record.id = i := by
      have h : (receiveBlock sender s record).1.isKnown i = true ↔ _ := isKnown_receiveBlock record
      rwa [receiveBlock_unknown ht hk] at h
    have hgrows : Grows s (s.holding sender record) := fun i hi => (hknown i).mpr (.inl hi)
    rw [receiveBlock_unknown ht hk]
    -- The request ends and the block is held; then its validation is set.
    have hended : Follows watch sees s
        ({ s.holding sender record with armed := s.armed.erase (.inventoryTimeout record.id) },
          if .inventoryTimeout record.id ∈ s.armed then
            [.cancelTimer (.inventoryTimeout record.id)] else []) := by
      intro b hb
      by_cases hmem : .inventoryTimeout record.id ∈ s.armed
      · obtain ⟨c, hc, hsees⟩ := hw.ends hb ht.distinct hmem
          (t := { s.holding sender record with
            armed := s.armed.erase (.inventoryTimeout record.id) })
          rfl hgrows ((hknown record.id).mpr (.inr rfl))
        exact ⟨c, by simp [hmem, hc], hsees⟩
      · refine ⟨b, by simp [hmem], hw.stable hb (List.erase_of_not_mem hmem) hgrows⟩
    have hset : Follows watch sees
        { s.holding sender record with armed := s.armed.erase (.inventoryTimeout record.id) }
        ({ s.holding sender record with
          armed := s.armed.erase (.inventoryTimeout record.id) ++ [.validation record.id] },
          [.setTimer (.validation record.id) s.config.validationDelay]) := by
      intro b hb
      obtain ⟨c, hc, hsees⟩ := hw.sets s.config.validationDelay hb (fun _ => by simp) hnot
        (t := { s.holding sender record with
          armed := s.armed.erase (.inventoryTimeout record.id) ++ [.validation record.id] })
        rfl fun _ hi => hi
      exact ⟨c, by simp [hc], hsees⟩
    exact hended.append hset

theorem answered_follows (hw : Watches watch sees) (ht : Strict s []) {o : Outcome Session}
    (h : Answered sender s o) : Follows watch sees s o := by
  cases h with
  | informs hcore h =>
    exact .quiet (fun a ha => hw.informs (h a ha)) fun b hb =>
      hw.stable hb (congrArg Core.armed hcore) (.of_core hcore)
  | requests h => exact requesting_follows hw h
  | receives hcore records =>
    intro b hb
    exact foldActions_follows (I := (Strict · []))
      (fun s r _ h => ⟨receiveBlock_strict h sender r, receiveBlock_follows hw h sender r⟩)
      (ht.of_core hcore) b (hw.stable hb (congrArg Core.armed hcore) (.of_core hcore))

theorem onBytes_follows (hw : Watches watch sees) (ht : Strict s []) (sender : NodeId)
    (bytes : Bytes) : Follows watch sees s (s.onBytes sender bytes) := by
  intro b hb
  exact foldActions_follows (I := (Strict · []))
    (fun _ e _ h => ⟨(onEnvelope_answered h sender e).strict h,
      answered_follows hw h (onEnvelope_answered h sender e)⟩)
    (ht.of_aside (t := { s with frames := (s.frames.feed sender bytes).2 }) rfl) b
    (hw.stable hb rfl fun _ hi => hi)

-- ---------------------------------------------------------------------------
-- Events
-- ---------------------------------------------------------------------------

/-- The session that an event meets: a timer that fires no longer runs. -/
def met (s : Session) : Event → Session
  | .timerFired timer => s.disarm timer
  | _ => s

theorem armTimer_follows (hw : Watches watch sees) (h : ∀ id, timer ≠ .inventoryTimeout id)
    (hnot : timer ∉ s.armed) (after : Duration) :
    Follows watch sees s (s.armTimer timer after) := by
  intro b hb
  rw [armTimer_of_not_mem hnot]
  obtain ⟨c, hc, hsees⟩ := hw.sets after hb h hnot
    (t := { s with armed := s.armed ++ [timer] }) rfl fun _ hi => hi
  exact ⟨c, by simp [hc], hsees⟩

theorem onNextTransaction_follows (hw : Watches watch sees) (ht : Strict s [])
    (h : .nextTransaction ∈ s.armed) :
    Follows watch sees (s.disarm .nextTransaction)
      (s.disarm .nextTransaction).onNextTransaction := by
  obtain ⟨t, offers, after, hcore, hinforms, heq⟩ :=
    onNextTransaction_offers (s := s.disarm .nextTransaction) (ht.next.mp h).2
  have harmed : t.armed = s.armed.erase .nextTransaction := congrArg Core.armed hcore
  have hnot : .nextTransaction ∉ t.armed := harmed ▸ ht.distinct.not_mem_erase
  have hoffers : Follows watch sees (s.disarm .nextTransaction) (t, offers) :=
    .quiet (fun a ha => hw.informs (hinforms a ha)) fun b hb =>
      hw.stable hb harmed (.of_core hcore)
  rw [heq]
  exact hoffers.append (armTimer_follows hw (fun _ => by simp) hnot after)

theorem onValidation_informs : ∀ a ∈ (s.onValidation id).2, Informs a := by
  unfold onValidation
  split
  · exact List.forall_mem_nil _
  · exact acceptBlock_informs _

theorem onStart_follows (hw : Watches watch sees) (h : s.running = false → Resting s) :
    Follows watch sees s s.onStart := by
  unfold onStart
  split
  · exact .nil fun _ hb => hb
  · rename_i hr
    have harmed := (h (Bool.eq_false_iff.mpr hr)).armed
    have hnot : .nextTransaction ∉ s.armed := harmed ▸ List.not_mem_nil
    simp only
    split
    · intro b hb
      refine armTimer_follows hw (fun _ => by simp) ?_ _ b (hw.stable hb ?_ fun _ hi => hi)
      · exact hnot
      · rfl
    · exact .nil fun b hb => hw.stable hb rfl fun _ hi => hi

/-- A watch follows the answer of a session to every event but a stop. -/
theorem handle_follows (hw : Watches watch sees) (ht : Strict s [])
    (h : s.running = false → Resting s) {e : Event} (hgrows : Grows s (s.handle e).1)
    (he : e ≠ .stop) : Follows watch sees (s.met e) (s.handle e) := by
  cases e with
  | start => exact onStart_follows hw h
  | stop => exact absurd rfl he
  | bytesReceived sender bytes =>
    simp only [handle]
    split
    · exact onBytes_follows hw ht sender bytes
    · exact .nil fun _ hb => hb
  | blockMinted b =>
    simp only [handle] at hgrows ⊢
    split
    · rename_i hr
      rw [if_pos hr] at hgrows
      exact .quiet (fun a ha => hw.informs (acceptBlock_informs _ a ha)) fun b hb =>
        hw.stable hb (congrArg Core.armed (acceptBlock_core ..)) hgrows
    · exact .nil fun _ hb => hb
  | timerFired timer =>
    by_cases hf : s.running = true ∧ timer ∈ s.armed
    · rw [handle_timerFired hf.1 hf.2] at hgrows ⊢
      cases timer with
      | inventoryTimeout id =>
        exact requesting_follows hw
          (onInventoryTimeout_requesting (disarm_inventoryTimeout_strict ht hf.2))
      | validation id =>
        exact .quiet (fun a ha => hw.informs (onValidation_informs a ha)) fun b hb =>
          hw.stable hb (onValidation_asked _ id).2 hgrows
      | nextTransaction => exact onNextTransaction_follows hw ht hf.2
    · have hnot : timer ∉ s.armed := fun hmem => hf ⟨running_of_armed h hmem, hmem⟩
      rw [handle_timerFired_idle hf]
      exact .nil fun b hb => hw.stable hb (List.erase_of_not_mem hnot).symm fun _ hi => hi

section
variable {setup : Setup} {config : SessionConfig}

theorem Reachable.staged (h : Reachable setup config s) :
    Staged (fun _ => True) (fun _ => True) s.staging := by
  induction h with
  | fresh => exact .empty
  | @step s _ now e ih =>
    refine handle_staged (s := s.setTime now) ih ?_
    cases e <;> simp [Brings, Bearing]

/-- What a reachable session knows it goes on knowing, unless it stops. -/
theorem Reachable.grows (h : Reachable setup config s) (now : Time) {e : Event}
    (he : e ≠ .stop) : Grows s (s.after now e) := fun _ hi =>
  handle_known (s := s.setTime now) h.sound.anchored h.staged hi he

/-- A watch follows the answers of a reachable session, but that to a stop. -/
theorem Reachable.follows (h : Reachable setup config s) (hw : Watches watch sees) (now : Time)
    {e : Event} (he : e ≠ .stop) :
    Follows watch sees ((s.setTime now).met e) (s.after now e, s.answer now e) :=
  handle_follows hw (h.strict.of_core (setTime_core s now)) (fun hr => (h.resting hr).setTime now)
    (h.grows now he) he

end

end BlockGossip.Session
