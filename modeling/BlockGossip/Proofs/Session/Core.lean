import BlockGossip.Session.Handle
import BlockGossip.Proofs.Ledger.Anchored

/-!
# The core of a session

What the block gossip of a session depends on: everything but the counters,
the means, the transactions and the clock. Each handler is described once by
what it does to the core; all that holds of sessions later is read off these
descriptions, and no handler is opened again.
-/

namespace BlockGossip

structure Core where
  setup : Setup
  config : SessionConfig
  ledger : Ledger
  orphans : OrphanPool
  staging : Staging
  inventory : Inventory BlockId
  frames : FrameDecoder
  armed : List TimerId
  running : Bool

def Session.core (s : Session) : Core :=
  ⟨s.setup, s.config, s.ledger, s.orphans, s.staging, s.inventory, s.frames, s.armed, s.running⟩

/-- The block is stored, parked as an orphan, or waits for its validation. -/
def Core.isKnown (c : Core) (id : BlockId) : Bool :=
  c.ledger.contains id || c.orphans.contains id || c.staging.isReceived id

-- ---------------------------------------------------------------------------
-- Sequences of steps
-- ---------------------------------------------------------------------------

theorem foldActions_cons {step : σ → α → Outcome σ} (s : σ) (x : α) (xs : List α) :
    foldActions step s (x :: xs) =
      ((foldActions step (step s x).1 xs).1,
        (step s x).2 ++ (foldActions step (step s x).1 xs).2) := rfl

/-- What each step keeps and what each of its actions is, a sequence keeps and
all its actions are. -/
theorem foldActions_induct {step : σ → α → Outcome σ} {I : σ → Prop} {A : Action → Prop}
    {xs : List α}
    (hstep : ∀ s, ∀ x ∈ xs, I s → I (step s x).1 ∧ ∀ a ∈ (step s x).2, A a) {s : σ} (hs : I s) :
    I (foldActions step s xs).1 ∧ ∀ a ∈ (foldActions step s xs).2, A a := by
  induction xs generalizing s with
  | nil => exact ⟨hs, by simp [foldActions]⟩
  | cons x xs ih =>
    obtain ⟨hx, hax⟩ := hstep s x (List.mem_cons_self ..) hs
    obtain ⟨hrest, harest⟩ := ih (fun s y hy => hstep s y (List.mem_cons_of_mem _ hy)) hx
    rw [foldActions_cons]
    refine ⟨hrest, fun a ha => ?_⟩
    rcases List.mem_append.mp ha with ha | ha
    · exact hax a ha
    · exact harest a ha

/-- What each step keeps, a sequence keeps. -/
theorem foldActions_keeps {step : σ → α → Outcome σ} {I : σ → Prop} {xs : List α}
    (hstep : ∀ s, ∀ x ∈ xs, I s → I (step s x).1) {s : σ} (hs : I s) :
    I (foldActions step s xs).1 :=
  (foldActions_induct (A := fun _ => True)
    (fun s x hx h => ⟨hstep s x hx h, fun _ _ => trivial⟩) hs).1

/-- Where each step adds its own key to what holds, a sequence adds all of them. -/
theorem foldActions_gains {step : σ → α → Outcome σ} {I : σ → Prop} {key : α → κ} {k : κ}
    (hstep : ∀ s x, I (step s x).1 ↔ I s ∨ key x = k) (s : σ) (xs : List α) :
    I (foldActions step s xs).1 ↔ I s ∨ k ∈ xs.map key := by
  induction xs generalizing s with
  | nil => simp [foldActions]
  | cons x xs ih =>
    rw [foldActions_cons, ih, hstep, List.map_cons, List.mem_cons]
    constructor
    · rintro ((h | rfl) | h)
      · exact .inl h
      · exact .inr (.inl rfl)
      · exact .inr (.inr h)
    · rintro (h | rfl | h)
      · exact .inl (.inl h)
      · exact .inl (.inr rfl)
      · exact .inr h

/-- What one of the items brings about and every other keeps, a sequence with
that item brings about. -/
theorem foldActions_reaches {step : σ → α → Outcome σ} {I J : σ → Prop} {x : α} {xs : List α}
    (hx : x ∈ xs) (hinv : ∀ s y, J s → J (step s y).1) (hgain : ∀ s, J s → I (step s x).1)
    (hkeep : ∀ s y, I s → I (step s y).1) {s : σ} (hs : J s) :
    I (foldActions step s xs).1 := by
  induction xs generalizing s with
  | nil => exact absurd hx List.not_mem_nil
  | cons y ys ih =>
    rcases List.mem_cons.mp hx with rfl | hx
    · rw [foldActions_cons]
      exact foldActions_keeps (fun s y _ => hkeep s y) (hgain s hs)
    · exact ih hx (hinv s y hs)

-- ---------------------------------------------------------------------------
-- The tracker
-- ---------------------------------------------------------------------------

namespace Inventory

variable {κ : Type} [DecidableEq κ]

@[simp] theorem isTracked_announce (inv : Inventory κ) (k k' : κ) (peer : NodeId) :
    (inv.announce k peer).2.isTracked k' = (decide (k = k') || inv.isTracked k') := by
  unfold announce
  cases hk : inv.get? k with
  | none =>
    by_cases h : k = k' <;> simp [isTracked, Table.contains, h]
  | some entry =>
    have htracked : inv.isTracked k = true := by
      simp only [get?] at hk
      simp [isTracked, Table.contains, hk]
    simp only
    split
    · by_cases h : k = k'
      · subst h; simp [htracked]
      · simp [h]
    · by_cases h : k = k' <;> simp [isTracked, Table.contains, h]

/-- An announcement asks for a request exactly where nothing was tracked. -/
theorem announce_fst (inv : Inventory κ) (k : κ) (peer : NodeId) :
    (inv.announce k peer).1 = if inv.isTracked k then .alreadyTracked else .request := by
  unfold announce
  cases hk : inv.get? k with
  | none =>
    simp only [get?] at hk
    simp [isTracked, Table.contains, hk]
  | some entry =>
    simp only [get?] at hk
    simp only [isTracked, Table.contains, hk, Option.isSome_some, if_true]
    split <;> rfl

@[simp] theorem isTracked_markRequested (inv : Inventory κ) (k k' : κ) (peer : NodeId) :
    (inv.markRequested k peer).isTracked k' = inv.isTracked k' := by
  unfold markRequested
  cases hk : inv.get? k with
  | none => rfl
  | some entry =>
    simp only [get?] at hk
    by_cases h : k = k'
    · subst h; simp [isTracked, Table.contains, hk]
    · simp [isTracked, Table.contains, h]

@[simp] theorem isTracked_resolve (inv : Inventory κ) (k k' : κ) :
    (inv.resolve k).2.isTracked k' = (decide (k ≠ k') && inv.isTracked k') := by
  by_cases h : k = k' <;> simp [resolve, isTracked, Table.contains, h]

theorem resolve_fst_isSome (inv : Inventory κ) (k : κ) :
    (inv.resolve k).1.isSome = inv.isTracked k := rfl

/-- Expiry keeps every other item, and the item itself exactly for a retry. -/
theorem isTracked_expire (inv : Inventory κ) (k k' : κ) (limit : UInt32) :
    (inv.expire k limit).2.isTracked k' =
      (inv.isTracked k' && decide (k ≠ k' ∨ (inv.expire k limit).1 ≠ .abandoned)) := by
  unfold expire
  cases hk : inv.get? k with
  | none =>
    simp only [get?] at hk
    by_cases h : k = k'
    · subst h; simp [isTracked, Table.contains, hk]
    · simp [h]
  | some entry =>
    simp only [get?] at hk
    by_cases h : k = k'
    · subst h
      cases hx : entry.announcers[entry.attempts.toNat]? with
      | none => simp [isTracked, Table.contains, hx]
      | some peer =>
        by_cases hl : entry.attempts < limit <;> simp [isTracked, Table.contains, hx, hl, hk]
    · cases hx : entry.announcers[entry.attempts.toNat]? with
      | none => simp [isTracked, Table.contains, hx, h]
      | some peer =>
        by_cases hl : entry.attempts < limit <;> simp [isTracked, Table.contains, hx, hl, h]

/-- A time that ran out is stale where nothing is tracked. -/
theorem not_isTracked_of_stale {inv : Inventory κ} {k : κ} {limit : UInt32}
    (h : (inv.expire k limit).1 = .stale) : inv.isTracked k = false := by
  unfold expire at h
  cases hk : inv.get? k with
  | none =>
    simp only [get?] at hk
    simp [isTracked, Table.contains, hk]
  | some entry =>
    simp only [hk] at h
    split at h
    · split at h <;> exact nomatch h
    · exact nomatch h

end Inventory

-- ---------------------------------------------------------------------------
-- Steps that leave the core alone
-- ---------------------------------------------------------------------------

namespace Session

variable {s s' : Session} {id : BlockId}

theorem isKnown_eq (s : Session) (id : BlockId) : s.isKnown id = s.core.isKnown id := rfl

@[simp] theorem setTime_core (s : Session) (now : Time) : (s.setTime now).core = s.core := rfl

@[simp] theorem countReceived_core (s : Session) (kind : MessageKind) (bytes : UInt64) :
    (s.countReceived kind bytes).core = s.core := rfl

@[simp] theorem countTimeout_core (s : Session) : s.countTimeout.core = s.core := rfl

@[simp] theorem sendAll_core (s : Session) (kind : MessageKind) (receivers : List NodeId)
    (e : Envelope) (bytes : UInt64) : (s.sendAll kind receivers e bytes).1.core = s.core := rfl

@[simp] theorem advertise_core (s : Session) (b : Block) : (s.advertise b).1.core = s.core := by
  unfold advertise
  split <;> rfl

@[simp] theorem recordStored_core (s : Session) (b : Block) :
    (s.recordStored b).core = s.core := by
  unfold recordStored
  split <;> rfl

theorem foldl_recordStored_core (s : Session) (bs : List Block) :
    (bs.foldl recordStored s).core = s.core := by
  induction bs generalizing s with
  | nil => rfl
  | cons b bs ih => exact (ih _).trans (recordStored_core s b)

@[simp] theorem onGetHeaders_core (s : Session) (sender : NodeId) (e : Envelope) :
    (s.onGetHeaders sender e).1.core = s.core := by
  unfold onGetHeaders
  simp only
  split <;> rfl

@[simp] theorem onGetData_core (s : Session) (sender : NodeId) (e : Envelope) :
    (s.onGetData sender e).1.core = s.core := by
  unfold onGetData
  simp only
  split <;> rfl

@[simp] theorem onRequestTrans_core (s : Session) (sender : NodeId) (e : Envelope) :
    (s.onRequestTrans sender e).1.core = s.core := by
  unfold onRequestTrans
  split
  · rfl
  · simp only
    split <;> split <;> rfl

@[simp] theorem onReplyTrans_core (s : Session) (e : Envelope) :
    (s.onReplyTrans e).core = s.core := rfl

-- ---------------------------------------------------------------------------
-- Timers
-- ---------------------------------------------------------------------------

/-- Arming a timer touches the timers alone. -/
theorem armTimer_core (s : Session) (timer : TimerId) (after : Duration) :
    (s.armTimer timer after).1.core =
      { s.core with armed := (s.armTimer timer after).1.armed } := by
  unfold armTimer
  split <;> rfl

theorem armTimer_staging (s : Session) (timer : TimerId) (after : Duration) :
    (s.armTimer timer after).1.staging = s.staging :=
  congrArg Core.staging (armTimer_core s timer after)

theorem armTimer_inventory (s : Session) (timer : TimerId) (after : Duration) :
    (s.armTimer timer after).1.inventory = s.inventory :=
  congrArg Core.inventory (armTimer_core s timer after)

theorem mem_armTimer {t timer : TimerId} {after : Duration} :
    t ∈ (s.armTimer timer after).1.armed ↔ t ∈ s.armed ∨ t = timer := by
  unfold armTimer
  split
  · rename_i h
    have h : timer ∈ s.armed := by simpa using h
    refine ⟨.inl, ?_⟩
    rintro (ht | rfl)
    · exact ht
    · exact h
  · simp

theorem cancelTimer_core (s : Session) (timer : TimerId) :
    (s.cancelTimer timer).1.core = { s.core with armed := s.armed.erase timer } := by
  unfold cancelTimer
  split
  · rfl
  · rename_i h
    rw [List.erase_of_not_mem (by simpa using h)]
    rfl

end Session

end BlockGossip
