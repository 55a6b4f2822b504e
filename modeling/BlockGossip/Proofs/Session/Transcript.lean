import BlockGossip.Proofs.Session.Reachable

/-!
# Transcripts

What a session took in and what it asked for, in one list. A watch reads
actions one by one and objects to some; `Follows` says that it does not object
to the answer of a step, and that it ends with what it should see of the
session then.
-/

namespace BlockGossip

inductive Entry where
  /-- An event, and the session that it found. -/
  | event (found : Session) (e : Event)
  | action (a : Action)

namespace Session

variable {setup : Setup} {config : SessionConfig} {s : Session} {log : List Entry}

/-- What a session asks for at an event at a time. -/
def answer (s : Session) (now : Time) (e : Event) : List Action := ((s.setTime now).handle e).2

/-- What a fresh session becomes under events, each at any time, and the
transcript of it. -/
inductive Logged (setup : Setup) (config : SessionConfig) : Session → List Entry → Prop
  | fresh : Logged setup config (.fresh setup config) []
  | step {s : Session} {log : List Entry} (h : Logged setup config s log) (now : Time)
    (e : Event) :
    Logged setup config (s.after now e)
      (log ++ .event (s.setTime now) e :: (s.answer now e).map .action)

/-- The actions of a transcript. -/
def actions (log : List Entry) : List Action :=
  log.filterMap fun
    | .event .. => none
    | .action a => some a

theorem actions_step (log : List Entry) (s : Session) (e : Event) (answer : List Action) :
    actions (log ++ .event s e :: answer.map .action) = actions log ++ answer := by
  simp [actions, List.filterMap_append, List.filterMap_map]

theorem Logged.reachable (h : Logged setup config s log) : Reachable setup config s := by
  induction h with
  | fresh => exact .fresh
  | step _ now e ih => exact .step ih now e

-- ---------------------------------------------------------------------------
-- Watches
-- ---------------------------------------------------------------------------

section
variable {β : Type} {watch : β → Action → Option β} {sees : Session → β → Prop} {b : β}
  {actions : List Action}

/-- From all that the watch may see of the session before a step, it goes through
the answer without objection to something it may see of the session after. -/
def Follows (watch : β → Action → Option β) (sees : Session → β → Prop) (s : Session)
    (o : Outcome Session) : Prop :=
  ∀ b, sees s b → ∃ c, o.2.foldlM watch b = some c ∧ sees o.1 c

/-- A watch that no action moves stays where it is. -/
theorem foldlM_quiet (h : ∀ a ∈ actions, watch b a = some b) :
    actions.foldlM watch b = some b := by
  induction actions with
  | nil => rfl
  | cons a rest ih =>
    rw [List.foldlM_cons, h a (List.mem_cons_self ..)]
    exact ih fun a ha => h a (List.mem_cons_of_mem _ ha)

theorem Follows.quiet {o : Outcome Session} (h : ∀ a ∈ o.2, ∀ b, watch b a = some b)
    (hsees : ∀ b, sees s b → sees o.1 b) : Follows watch sees s o :=
  fun b hb => ⟨b, foldlM_quiet fun a ha => h a ha b, hsees b hb⟩

theorem Follows.nil {t : Session} (hsees : ∀ b, sees s b → sees t b) :
    Follows watch sees s (t, []) :=
  fun b hb => ⟨b, rfl, hsees b hb⟩

theorem Follows.append {o o' : Outcome Session} (h : Follows watch sees s o)
    (h' : Follows watch sees o.1 o') : Follows watch sees s (o'.1, o.2 ++ o'.2) := by
  intro b hb
  obtain ⟨c, hc, hsees⟩ := h b hb
  obtain ⟨d, hd, hsees⟩ := h' c hsees
  refine ⟨d, ?_, hsees⟩
  rw [List.foldlM_append, hc]
  exact hd

/-- What each step of a sequence keeps and follows, the sequence does. -/
theorem foldActions_follows {step : Session → α → Outcome Session} {I : Session → Prop}
    {xs : List α}
    (hstep : ∀ s, ∀ x ∈ xs, I s → I (step s x).1 ∧ Follows watch sees s (step s x)) (hs : I s) :
    Follows watch sees s (foldActions step s xs) := by
  induction xs generalizing s with
  | nil => exact .nil fun _ hb => hb
  | cons x xs ih =>
    obtain ⟨hx, hfollows⟩ := hstep s x (List.mem_cons_self ..) hs
    exact hfollows.append (ih (fun s y hy => hstep s y (List.mem_cons_of_mem _ hy)) hx)

/-- A watch of whole transcripts: at an event it goes on from what it meets. -/
def Entry.watched (watch : β → Action → Option β) (meets : β → Session → Event → β) (b : β) :
    Entry → Option β
  | .event found e => some (meets b found e)
  | .action a => watch b a

/-- A watch that follows each answer of a reachable session follows a transcript. -/
theorem Logged.watched (h : Logged setup config s log) (watch : β → Action → Option β)
    (meets : β → Session → Event → β) (sees : Session → β → Prop)
    (hfresh : sees (.fresh setup config) b)
    (hstep : ∀ s, Reachable setup config s → ∀ now e b, sees s b →
      ∃ c, (s.answer now e).foldlM watch (meets b (s.setTime now) e) = some c ∧
        sees (s.after now e) c) :
    ∃ c, log.foldlM (Entry.watched watch meets) b = some c ∧ sees s c := by
  induction h with
  | fresh => exact ⟨b, rfl, hfresh⟩
  | @step s log h now e ih =>
    obtain ⟨c, hc, hsees⟩ := ih
    obtain ⟨d, hd, hsees⟩ := hstep s h.reachable now e c hsees
    refine ⟨d, ?_, hsees⟩
    rw [List.foldlM_append, hc]
    show ((s.answer now e).map Entry.action).foldlM (Entry.watched watch meets) _ = some d
    rw [List.foldlM_map]
    exact hd

/-- Between an item that brings a watch into a state and one that it objects to
there, something has released it. -/
theorem exists_release {γ : Type} {watch : β → γ → Option β} {P : β → Prop} {R : γ → Prop}
    {first between last : List γ} {x y : γ} {c : β}
    (h : (first ++ x :: (between ++ y :: last)).foldlM watch b = some c)
    (hin : ∀ b c, watch b x = some c → P c) (hout : ∀ b, P b → watch b y = none)
    (hstay : ∀ z, ¬R z → ∀ b c, P b → watch b z = some c → P c) :
    ∃ z ∈ between, R z := by
  rw [List.foldlM_append, Option.bind_eq_bind, Option.bind_eq_some_iff] at h
  obtain ⟨a, -, h⟩ := h
  rw [List.foldlM_cons, Option.bind_eq_bind, Option.bind_eq_some_iff] at h
  obtain ⟨d, hx, h⟩ := h
  have hd := hin a d hx
  clear hx
  -- From here on it is held, as long as nothing releases it.
  induction between generalizing d with
  | nil => simp [hout d hd] at h
  | cons z rest ih =>
    by_cases hz : R z
    · exact ⟨z, List.mem_cons_self .., hz⟩
    · rw [List.cons_append, List.foldlM_cons, Option.bind_eq_bind, Option.bind_eq_some_iff] at h
      obtain ⟨d', hz', h⟩ := h
      obtain ⟨w, hw, hreleased⟩ := ih d' h (hstay z hz d d' hd hz')
      exact ⟨w, List.mem_cons_of_mem _ hw, hreleased⟩

end

-- ---------------------------------------------------------------------------
-- Messages that inform
-- ---------------------------------------------------------------------------

/-- The action sends a message that does not request blocks. -/
def Informs : Action → Prop
  | .send _ kind _ _ => kind ≠ .getHeaders ∧ kind ≠ .getData
  | _ => False

theorem Informs.eq_send {a : Action} (h : Informs a) :
    ∃ receiver kind frame charge, a = .send receiver kind frame charge := by
  cases a with
  | send receiver kind frame charge => exact ⟨receiver, kind, frame, charge, rfl⟩
  | setTimer => exact h.elim
  | cancelTimer => exact h.elim

section
variable {e : Envelope} {sender : NodeId}

theorem eq_send_of_mem_sendActions {receivers : List NodeId} {bytes : UInt64} {a : Action}
    (h : a ∈ sendActions receivers e bytes) :
    ∃ receiver kind frame charge, a = .send receiver kind frame charge := by
  unfold sendActions at h
  split at h
  · obtain ⟨receiver, -, rfl⟩ := List.mem_map.mp h
    exact ⟨_, _, _, _, rfl⟩
  · exact absurd h List.not_mem_nil

theorem sendActions_informs (kind : MessageKind) {receivers : List NodeId} {bytes : UInt64}
    (hk : e.kind? = some kind) (hkind : kind ≠ .getHeaders ∧ kind ≠ .getData) :
    ∀ a ∈ sendActions receivers e bytes, Informs a := by
  unfold sendActions
  split
  · rename_i kind' frame hk' hencode
    intro a ha
    obtain ⟨receiver, -, rfl⟩ := List.mem_map.mp ha
    obtain rfl := Option.some.inj (hk.symm.trans hk')
    exact hkind
  · exact nofun

theorem onGetHeaders_informs : ∀ a ∈ (s.onGetHeaders sender e).2, Informs a := by
  unfold onGetHeaders
  simp only
  split
  · exact nofun
  · exact sendActions_informs .headers rfl ⟨nofun, nofun⟩

theorem onGetData_informs : ∀ a ∈ (s.onGetData sender e).2, Informs a := by
  unfold onGetData
  simp only
  split
  · exact nofun
  · exact sendActions_informs .block rfl ⟨nofun, nofun⟩

theorem onRequestTrans_informs : ∀ a ∈ (s.onRequestTrans sender e).2, Informs a := by
  unfold onRequestTrans
  split
  · exact nofun
  · intro a ha
    rcases List.mem_append.mp ha with ha | ha
    · split at ha
      · exact absurd ha List.not_mem_nil
      · exact sendActions_informs .replyTrans rfl ⟨nofun, nofun⟩ a ha
    · split at ha
      · exact absurd ha List.not_mem_nil
      · exact sendActions_informs .requestTrans rfl ⟨nofun, nofun⟩ a ha

theorem advertise_informs (b : Block) : ∀ a ∈ (s.advertise b).2, Informs a := by
  unfold advertise
  split
  · exact sendActions_informs .inv rfl ⟨nofun, nofun⟩
  · exact sendActions_informs .headers rfl ⟨nofun, nofun⟩

theorem acceptBlock_informs (b : Block) : ∀ a ∈ (s.acceptBlock b).2, Informs a := by
  intro a ha
  rw [(acceptBlock_eq s b).2] at ha
  obtain ⟨c, -, ha⟩ := List.mem_flatMap.mp ha
  exact advertise_informs c a ha

end

end Session

end BlockGossip
