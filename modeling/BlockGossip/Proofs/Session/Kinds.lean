import BlockGossip.Proofs.Session.Transcript

/-!
# Kinds of messages that a session sends

Which kinds of messages can stand in an answer, by the event that is answered
(`handle_sends`) and by the message that is (`onEnvelope_sends`). Blocks are
advertised only as they are stored, and requests for transactions come only of
requests for transactions and of nodes that originate them.
-/

namespace BlockGossip

/-- The kind of message that an action sends. -/
def Action.kind? : Action → Option MessageKind
  | .send _ kind _ _ => some kind
  | _ => none

/-- The messages among the actions are of these kinds. -/
def Sends (kinds : List MessageKind) (actions : List Action) : Prop :=
  ∀ a ∈ actions, ∀ kind, a.kind? = some kind → kind ∈ kinds

/-- The kinds of message that an event may have a session send. -/
def Event.sends : Event → List MessageKind
  | .start | .stop => []
  | .bytesReceived .. => [.getHeaders, .headers, .getData, .block, .requestTrans, .replyTrans]
  | .timerFired (.inventoryTimeout _) => [.getHeaders, .getData]
  | .timerFired (.validation _) | .blockMinted _ => [.inv, .headers]
  | .timerFired .nextTransaction => [.requestTrans]

/-- The kinds of message that may answer one of a kind. -/
def MessageKind.answers : MessageKind → List MessageKind
  | .inv | .headers => [.getHeaders, .getData]
  | .getHeaders => [.headers]
  | .getData => [.block]
  | .requestTrans => [.requestTrans, .replyTrans]
  | .block | .replyTrans | .noMessage | .msgTrans | .resultTrans => []

def Envelope.answers (e : Envelope) : List MessageKind :=
  (e.kind?.map MessageKind.answers).getD []

theorem Envelope.answers_subset (e : Envelope) (sender : NodeId) (bytes : Bytes) :
    e.answers ⊆ (Event.bytesReceived sender bytes).sends := by
  simp only [answers, Event.sends]
  cases e.kind? with
  | none => exact List.nil_subset _
  | some kind => cases kind <;> decide

theorem Envelope.answers_of_no_request (e : Envelope) (h : e.kind? ≠ some .requestTrans) :
    e.answers ⊆ [.getHeaders, .headers, .getData, .block] := by
  simp only [answers]
  cases hk : e.kind? with
  | none => exact List.nil_subset _
  | some kind =>
    cases kind with
    | requestTrans => exact absurd hk h
    | _ => decide

variable {kinds more : List MessageKind} {actions actions' : List Action}

namespace Sends

theorem nil : Sends kinds [] := nofun

theorem append (h : Sends kinds actions) (h' : Sends kinds actions') :
    Sends kinds (actions ++ actions') :=
  fun a ha => (List.mem_append.mp ha).elim (h a) (h' a)

theorem mono (h : Sends kinds actions) (hsub : kinds ⊆ more) : Sends more actions :=
  fun a ha kind hk => hsub (h a ha kind hk)

theorem foldActions {step : σ → α → Outcome σ} {xs : List α}
    (hstep : ∀ s, ∀ x ∈ xs, Sends kinds (step s x).2) (s : σ) :
    Sends kinds (BlockGossip.foldActions step s xs).2 :=
  (foldActions_induct (I := fun _ => True) (fun s x hx _ => ⟨trivial, hstep s x hx⟩) trivial).2

end Sends

namespace Session

variable {s : Session} {sender peer : NodeId} {e : Envelope}

-- ---------------------------------------------------------------------------
-- Single steps
-- ---------------------------------------------------------------------------

theorem sendActions_sends (kind : MessageKind) {receivers : List NodeId} {bytes : UInt64}
    (hk : e.kind? = some kind) (hmem : kind ∈ kinds) :
    Sends kinds (sendActions receivers e bytes) := by
  unfold sendActions
  split
  · rename_i kind' frame hk' hencode
    intro a ha other hother
    obtain ⟨receiver, -, rfl⟩ := List.mem_map.mp ha
    obtain rfl := Option.some.inj hother
    obtain rfl := Option.some.inj (hk.symm.trans hk')
    exact hmem
  · exact .nil

theorem armTimer_sends (s : Session) (timer : TimerId) (after : Duration) :
    Sends kinds (s.armTimer timer after).2 := by
  unfold armTimer
  split <;> simp [Sends, Action.kind?]

theorem cancelTimer_sends (s : Session) (timer : TimerId) :
    Sends kinds (s.cancelTimer timer).2 := by
  unfold cancelTimer
  split <;> simp [Sends, Action.kind?]

theorem requestBlocks_sends (s : Session) (peer : NodeId) (ids : List BlockId) (full : Bool) :
    Sends [.getHeaders, .getData] (s.requestBlocks peer ids full).2 := by
  unfold requestBlocks
  split
  · exact .nil
  · refine .append (.append ?_ ?_) (sendActions_sends .getData rfl (by decide))
    · exact .foldActions (fun s id _ => armTimer_sends _ _ _) _
    · cases full with
      | true => exact sendActions_sends .getHeaders rfl (by decide)
      | false => exact .nil

theorem receiveBlock_sends (sender : NodeId) (s : Session) (record : Block) :
    Sends [] (receiveBlock sender s record).2 := by
  unfold receiveBlock
  simp only
  split
  · exact .nil
  · refine .append ?_ (armTimer_sends _ _ _)
    split
    · exact cancelTimer_sends _ _
    · exact .nil

theorem advertise_sends (s : Session) (b : Block) : Sends [.inv, .headers] (s.advertise b).2 := by
  unfold advertise
  split
  · exact sendActions_sends .inv rfl (by decide)
  · exact sendActions_sends .headers rfl (by decide)

theorem acceptBlock_sends (s : Session) (b : Block) :
    Sends [.inv, .headers] (s.acceptBlock b).2 := by
  intro a ha
  rw [(acceptBlock_eq s b).2] at ha
  obtain ⟨c, -, ha⟩ := List.mem_flatMap.mp ha
  exact advertise_sends s c a ha

-- ---------------------------------------------------------------------------
-- Messages
-- ---------------------------------------------------------------------------

theorem onInv_sends : Sends [.getHeaders, .getData] (s.onInv sender e).2 := by
  unfold onInv
  split
  · exact .nil
  · exact requestBlocks_sends _ _ _ _

theorem onHeaders_sends : Sends [.getHeaders, .getData] (s.onHeaders sender e).2 := by
  unfold onHeaders
  split
  · exact .nil
  · exact requestBlocks_sends _ _ _ _

theorem onGetHeaders_sends : Sends [.headers] (s.onGetHeaders sender e).2 := by
  unfold onGetHeaders
  simp only
  split
  · exact .nil
  · exact sendActions_sends .headers rfl (by decide)

theorem onGetData_sends : Sends [.block] (s.onGetData sender e).2 := by
  unfold onGetData
  simp only
  split
  · exact .nil
  · exact sendActions_sends .block rfl (by decide)

theorem onBlock_sends : Sends [] (s.onBlock sender e).2 := by
  unfold onBlock
  split
  · exact .nil
  · exact .foldActions (fun s r _ => receiveBlock_sends sender s r) _

theorem onRequestTrans_sends :
    Sends [.requestTrans, .replyTrans] (s.onRequestTrans sender e).2 := by
  unfold onRequestTrans
  split
  · exact .nil
  · refine .append ?_ ?_
    · split
      · exact .nil
      · exact sendActions_sends .replyTrans rfl (by decide)
    · split
      · exact .nil
      · exact sendActions_sends .requestTrans rfl (by decide)

/-- A message is answered by messages of the kinds that answer its own. -/
theorem onEnvelope_sends (sender : NodeId) (s : Session) (e : Envelope) :
    Sends e.answers (onEnvelope sender s e).2 := by
  unfold onEnvelope
  split <;> rename_i hk <;> rw [Envelope.answers, hk]
  · exact .nil
  · exact onInv_sends
  · exact onGetHeaders_sends
  · exact onHeaders_sends
  · exact onGetData_sends
  · exact onBlock_sends
  · exact onRequestTrans_sends
  all_goals exact .nil

-- ---------------------------------------------------------------------------
-- Events
-- ---------------------------------------------------------------------------

theorem onInventoryTimeout_sends (s : Session) (id : BlockId) :
    Sends [.getHeaders, .getData] (s.onInventoryTimeout id).2 := by
  unfold onInventoryTimeout
  split
  · exact .nil
  · split
    · exact .nil
    · exact requestBlocks_sends _ _ _ _
    · exact .nil

theorem onValidation_sends (s : Session) (id : BlockId) :
    Sends [.inv, .headers] (s.onValidation id).2 := by
  unfold onValidation
  split
  · exact .nil
  · exact acceptBlock_sends _ _

theorem onNextTransaction_sends (s : Session) : Sends [.requestTrans] s.onNextTransaction.2 := by
  unfold onNextTransaction
  split
  · exact .nil
  · exact .append (sendActions_sends .requestTrans rfl (by decide)) (armTimer_sends _ _ _)

theorem onStart_sends (s : Session) : Sends [] s.onStart.2 := by
  unfold onStart
  split
  · exact .nil
  · simp only
    split
    · exact armTimer_sends _ _ _
    · exact .nil

theorem onStop_sends (s : Session) : Sends [] s.onStop.2 := by
  unfold onStop
  split
  · exact .nil
  · intro a ha
    obtain ⟨timer, -, rfl⟩ := List.mem_map.mp ha
    exact nofun

theorem handle_sends (s : Session) (e : Event) : Sends e.sends (s.handle e).2 := by
  cases e with
  | start => exact onStart_sends s
  | stop => exact onStop_sends s
  | bytesReceived sender bytes =>
    simp only [handle]
    split
    · exact .foldActions
        (fun s m _ => (onEnvelope_sends sender s m).mono (m.answers_subset sender bytes)) _
    · exact .nil
  | blockMinted b =>
    simp only [handle]
    split
    · exact acceptBlock_sends _ _
    · exact .nil
  | timerFired timer =>
    by_cases h : s.running = true ∧ timer ∈ s.armed
    · rw [handle_timerFired h.1 h.2]
      cases timer with
      | inventoryTimeout id => exact onInventoryTimeout_sends _ id
      | validation id => exact onValidation_sends _ id
      | nextTransaction => exact onNextTransaction_sends _
    · rw [handle_timerFired_idle h]
      exact .nil

/-- Where nobody asks it to take transactions, a session asks nobody either. -/
theorem handle_received_sends {bytes : Bytes}
    (h : ∀ m ∈ (s.frames.feed sender bytes).1, m.kind? ≠ some .requestTrans) :
    Sends [.getHeaders, .headers, .getData, .block] (s.handle (.bytesReceived sender bytes)).2 := by
  simp only [handle]
  split
  · exact .foldActions
      (fun t m hm => (onEnvelope_sends sender t m).mono (m.answers_of_no_request (h m hm))) _
  · exact .nil

end Session

end BlockGossip
