import BlockGossip.Proofs.Session.Turns

/-!
# Announcers are asked in their order

While a block is tracked its announcers are asked for it one after another, in
the order in which they first announced it, none twice and no more than the
configuration allows. The tracker keeps no cursor but the number of attempts:
`Disciplined` is what keeps it aligned with the announcers, and `Lifetime` ties
both to the announcements and requests since the block was last untracked.
-/

namespace BlockGossip

-- ---------------------------------------------------------------------------
-- Entries
-- ---------------------------------------------------------------------------

namespace InventoryEntry

variable {limit : UInt32} {e : InventoryEntry} {peer : NodeId}

structure Disciplined (limit : UInt32) (e : InventoryEntry) : Prop where
  announced : e.announcers ≠ []
  distinct : e.announcers.Nodup
  attempted : 1 ≤ e.attempts.toNat
  bounded : e.attempts.toNat ≤ min e.announcers.length (max 1 limit.toNat)
  current : e.requestedFrom = e.announcers[e.attempts.toNat - 1]?

/-- The announcers that were asked, if they were asked in order. -/
def tried (e : InventoryEntry) : List NodeId := e.announcers.take e.attempts.toNat

theorem next?_eq_some :
    e.next? limit = some peer ↔
      e.attempts < limit ∧ e.announcers[e.attempts.toNat]? = some peer := by
  by_cases h : e.attempts < limit <;> simp [next?, h]

theorem next?_eq_none (h : e.attempts.toNat ≤ e.announcers.length) :
    e.next? limit = none ↔ e.attempts.toNat = e.announcers.length ∨ limit ≤ e.attempts := by
  by_cases hl : e.attempts < limit
  · have hnot : ¬limit ≤ e.attempts := UInt32.not_le.mpr hl
    simp only [next?, hl, if_true, List.getElem?_eq_none_iff, hnot, or_false]
    omega
  · simp [next?, hl, UInt32.not_lt.mp hl]

theorem attempts_requested (h : e.next? limit = some peer) :
    (e.requested peer).attempts.toNat = e.attempts.toNat + 1 := by
  have hlt : e.attempts.toNat < limit.toNat := UInt32.lt_iff_toNat_lt.mp (next?_eq_some.mp h).1
  have hlimit := limit.toNat_lt
  show (e.attempts + 1).toNat = _
  rw [UInt32.toNat_add]
  exact Nat.mod_eq_of_lt (show e.attempts.toNat + 1 < 2 ^ 32 by omega)

theorem tried_requested (h : e.next? limit = some peer) :
    (e.requested peer).tried = e.tried ++ [peer] := by
  rw [tried, attempts_requested h]
  show e.announcers.take (e.attempts.toNat + 1) = _
  rw [List.take_add_one, (next?_eq_some.mp h).2]
  rfl

namespace Disciplined

theorem within (h : e.Disciplined limit) : e.attempts.toNat ≤ e.announcers.length :=
  h.bounded.trans (Nat.min_le_left ..)

theorem first (limit : UInt32) (peer : NodeId) : ((new peer).requested peer).Disciplined limit where
  announced := List.cons_ne_nil peer []
  distinct := List.nodup_singleton peer
  attempted := Nat.le_refl 1
  bounded := Nat.le_min.mpr ⟨Nat.le_refl 1, Nat.le_max_left ..⟩
  current := rfl

/-- An announcer that joins comes behind those that were asked. -/
theorem heardFrom (h : e.Disciplined limit) (peer : NodeId) :
    (e.heardFrom peer).Disciplined limit ∧ (e.heardFrom peer).tried = e.tried := by
  have hwithin := h.within
  unfold InventoryEntry.heardFrom
  split
  · exact ⟨h, rfl⟩
  · rename_i hp
    refine ⟨⟨?_, ?_, h.attempted, ?_, ?_⟩, ?_⟩
    · exact List.append_ne_nil_of_right_ne_nil _ (List.cons_ne_nil peer [])
    · exact h.distinct.append (List.nodup_singleton _) (List.disjoint_singleton.mpr hp)
    · refine h.bounded.trans (Nat.le_min.mpr ⟨?_, Nat.min_le_right ..⟩)
      exact (Nat.min_le_left ..).trans (by simp [announcedBy])
    · have hlast : e.attempts.toNat - 1 < e.announcers.length :=
        Nat.lt_of_lt_of_le (Nat.sub_one_lt_of_lt h.attempted) hwithin
      exact h.current.trans (List.getElem?_append_left hlast).symm
    · exact List.take_append_of_le_length hwithin

/-- The next announcer is asked. -/
theorem requested (h : e.Disciplined limit) (hnext : e.next? limit = some peer) :
    (e.requested peer).Disciplined limit := by
  have hattempts := attempts_requested hnext
  obtain ⟨hlimit, hpeer⟩ := next?_eq_some.mp hnext
  have hlt := (List.getElem?_eq_some_iff.mp hpeer).1
  have hbound : e.attempts.toNat < limit.toNat := UInt32.lt_iff_toNat_lt.mp hlimit
  refine ⟨h.announced, h.distinct, ?_, ?_, ?_⟩
  · rw [hattempts]
    exact Nat.le_add_left 1 _
  · rw [hattempts]
    exact Nat.le_min.mpr ⟨hlt, Nat.le_trans hbound (Nat.le_max_right ..)⟩
  · rw [hattempts]
    exact hpeer.symm

end Disciplined

end InventoryEntry

-- ---------------------------------------------------------------------------
-- Lifetimes
-- ---------------------------------------------------------------------------

/-- Who has announced a block, in the order of their first announcements, and
who was asked for it, in order, since it was last untracked. -/
structure Account where
  heard : List NodeId
  asked : List NodeId
deriving DecidableEq

/-- What an account shows while the tracker has an entry, and while it has none. -/
def Lifetime (limit : UInt32) (c : Account) : Option InventoryEntry → Prop
  | none => c = ⟨[], []⟩
  | some e => e.Disciplined limit ∧ c = ⟨e.announcers, e.tried⟩

/-- The announcers are asked in their order, none twice, and not too many. -/
structure Account.Orderly (limit : UInt32) (c : Account) : Prop where
  ordered : c.asked <+: c.heard
  distinct : c.heard.Nodup
  bounded : c.asked.length ≤ max 1 limit.toNat

theorem Lifetime.orderly {limit : UInt32} {c : Account} {entry : Option InventoryEntry}
    (h : Lifetime limit c entry) : c.Orderly limit := by
  cases entry with
  | none =>
    obtain rfl := h
    exact ⟨List.prefix_rfl, List.nodup_nil, Nat.zero_le _⟩
  | some e =>
    obtain ⟨hd, rfl⟩ := h
    refine ⟨List.take_prefix .., hd.distinct, ?_⟩
    exact (List.length_take_le ..).trans (hd.bounded.trans (Nat.min_le_right ..))

namespace Turn

variable {x : Turn} {id : BlockId} {c : Account} {entry : InventoryEntry}

/-- The peer that announces a block in a turn; nobody does where it is known. -/
def announcer? (x : Turn) (id : BlockId) : Option NodeId :=
  match x.cause with
  | .message sender e =>
    if id ∈ x.found.announcedIn e ∧ x.found.isKnown id = false then some sender else none
  | .event _ => none

def asked (x : Turn) (id : BlockId) : List NodeId := Session.askedFor id x.outcome.2

/-- The account of a block after a turn: a block that is not tracked then has none. -/
def account (id : BlockId) (c : Account) (x : Turn) : Account :=
  if x.outcome.1.inventory.isTracked id then
    { heard := match x.announcer? id with
        | some peer => if peer ∈ c.heard then c.heard else c.heard ++ [peer]
        | none => c.heard
      asked := c.asked ++ x.asked id }
  else ⟨[], []⟩

theorem account_untracked (h : x.outcome.1.inventory.get? id = none) :
    account id c x = ⟨[], []⟩ := by
  have htracked : x.outcome.1.inventory.isTracked id = false :=
    Option.isSome_eq_false_iff.mpr (Option.isNone_iff_eq_none.mpr h)
  rw [account, if_neg (Bool.eq_false_iff.mp htracked)]

theorem account_tracked (h : x.outcome.1.inventory.get? id = some entry) :
    account id c x =
      { heard := match x.announcer? id with
          | some peer => if peer ∈ c.heard then c.heard else c.heard ++ [peer]
          | none => c.heard
        asked := c.asked ++ x.asked id } :=
  if_pos (Option.isSome_iff_exists.mpr ⟨entry, h⟩)

end Turn

/-- The account of a block after the turns of a story. -/
def account (id : BlockId) (story : List Turn) : Account :=
  story.foldl (Turn.account id) ⟨[], []⟩

theorem account_snoc (id : BlockId) (story : List Turn) (x : Turn) :
    account id (story ++ [x]) = Turn.account id (account id story) x := by
  simp [account]

namespace Session

variable {setup : Setup} {config : SessionConfig} {s : Session} {log : List Entry}
  {limit : UInt32} {id : BlockId} {cause : Cause} {o : Outcome Session} {c : Account}
  {sender : NodeId} {announced : List BlockId}

-- ---------------------------------------------------------------------------
-- One turn
-- ---------------------------------------------------------------------------

/-- A turn keeps the account of a block, and asks for it only where it is
tracked then. -/
def Keeps (limit : UInt32) (id : BlockId) (c : Account) (x : Turn) : Prop :=
  Lifetime limit (x.account id c) (x.outcome.1.inventory.get? id) ∧
    (x.outcome.1.inventory.get? id = none → x.asked id = [])

section
variable {x : Turn} {entry : InventoryEntry}

theorem keeps_untracked (hget : x.outcome.1.inventory.get? id = none) (hasked : x.asked id = []) :
    Keeps limit id c x := by
  refine ⟨?_, fun _ => hasked⟩
  rw [Turn.account_untracked hget, hget]
  rfl

theorem keeps_tracked (hget : x.outcome.1.inventory.get? id = some entry)
    (hd : entry.Disciplined limit)
    (haccount : x.account id c = ⟨entry.announcers, entry.tried⟩) : Keeps limit id c x := by
  refine ⟨?_, fun hnot => nomatch hget.symm.trans hnot⟩
  rw [hget]
  exact ⟨hd, haccount⟩

theorem keeps_unchanged (hl : Lifetime limit c (x.outcome.1.inventory.get? id))
    (hnobody : x.announcer? id = none) (hasked : x.asked id = []) : Keeps limit id c x := by
  cases hget : x.outcome.1.inventory.get? id with
  | none => exact keeps_untracked hget hasked
  | some entry =>
    rw [hget] at hl
    refine keeps_tracked hget hl.1 ?_
    rw [Turn.account_tracked hget, hnobody, hasked, List.append_nil]
    exact hl.2

end

theorem quiet_keeps (hl : Lifetime limit c (s.inventory.get? id)) (h : Quiet s o)
    (hnobody : Turn.announcer? ⟨s, cause, o⟩ id = none) : Keeps limit id c ⟨s, cause, o⟩ := by
  have hasked : Turn.asked ⟨s, cause, o⟩ id = [] := askedFor_of_none h.asks id
  cases hget : o.1.inventory.get? id with
  | none => exact keeps_untracked hget hasked
  | some entry => exact keeps_unchanged (hget ▸ h.forgets id entry hget ▸ hl) hnobody hasked

/-- The sender joins the announcers of what it announces, and is asked at once
for what was not tracked before. -/
theorem informed_keeps (hl : Lifetime limit c (s.inventory.get? id)) {e : Envelope}
    (h : Informed s sender (s.announcedIn e) o) :
    Keeps limit id c ⟨s, .message sender e, o⟩ := by
  cases h with
  | quiet hnone hquiet => exact quiet_keeps hl hquiet (by simp [Turn.announcer?, hnone])
  | @requests t ids ht heach full =>
    obtain ⟨hinventory, hids⟩ := Prod.mk.inj heach
    have hget := requestBlocks_get? ht sender full id
    have hasked : Turn.asked ⟨s, .message sender e, t.requestBlocks sender ids full⟩ id = _ :=
      requestBlocks_asked ht sender full id
    have hmem := Inventory.mem_announceEach s.isKnown sender s.inventory (s.announcedIn e) id
    rw [hinventory, Inventory.get?_announceEach] at hget
    rw [← hids] at hmem
    have hannouncer : Turn.announcer? ⟨s, .message sender e, t.requestBlocks sender ids full⟩ id =
        if id ∈ s.announcedIn e ∧ s.isKnown id = false then some sender else none := rfl
    by_cases hnew : id ∈ s.announcedIn e ∧ s.isKnown id = false
    · rw [if_pos hnew] at hget hannouncer
      cases hold : s.inventory.get? id with
      | none =>
        -- the block is tracked from now on, and its first announcer is asked
        have hid : id ∈ ids := hmem.mpr ⟨hnew, hold⟩
        rw [hold] at hget hl
        rw [if_pos hid] at hget hasked
        obtain rfl : c = ⟨[], []⟩ := hl
        refine keeps_tracked hget (.first limit sender) ?_
        rw [Turn.account_tracked hget, hannouncer, hasked]
        rfl
      | some entry =>
        have hid : id ∉ ids := fun hid => Option.some_ne_none entry (hold ▸ (hmem.mp hid).2)
        rw [hold] at hget hl
        rw [if_neg hid] at hget hasked
        obtain ⟨hd, rfl⟩ := hl
        obtain ⟨hdisciplined, htried⟩ := hd.heardFrom sender
        refine keeps_tracked hget hdisciplined ?_
        rw [Turn.account_tracked hget, hannouncer, hasked, Option.elim_some, htried,
          List.append_nil, InventoryEntry.heardFrom]
        congr 1
        simp only
        split <;> rfl
    · have hid : id ∉ ids := fun hid => hnew (hmem.mp hid).1
      rw [if_neg hnew] at hget hannouncer
      rw [if_neg hid] at hget hasked
      exact keeps_unchanged (hget ▸ hl) hannouncer hasked

theorem retried_keeps (hl : Lifetime s.config.maxRequestAttempts c (s.inventory.get? id))
    {e : Event} {i : BlockId} {entry : InventoryEntry} {peer : NodeId}
    (h : Retried s i o entry peer) :
    Keeps s.config.maxRequestAttempts id c ⟨s, .event e, o⟩ := by
  have hget := h.entries id
  have hasked : Turn.asked ⟨s, .event e, o⟩ id = _ := h.asks id
  by_cases hi : i = id
  · subst hi
    rw [h.entry_eq] at hl
    rw [if_pos rfl] at hget hasked
    obtain ⟨hd, rfl⟩ := hl
    refine keeps_tracked hget (hd.requested h.next_eq) ?_
    rw [Turn.account_tracked hget, hasked, InventoryEntry.tried_requested h.next_eq]
    rfl
  · rw [if_neg hi] at hget hasked
    exact keeps_unchanged (hget ▸ hl) rfl hasked

theorem turned_keeps (hl : Lifetime s.config.maxRequestAttempts c (s.inventory.get? id))
    (h : Turned s cause o) : Keeps s.config.maxRequestAttempts id c ⟨s, cause, o⟩ := by
  cases h with
  | message sender e h => exact informed_keeps hl h
  | quiet e h => exact quiet_keeps hl h rfl
  | retried e i h => exact retried_keeps hl h

-- ---------------------------------------------------------------------------
-- A run
-- ---------------------------------------------------------------------------

/-- The account of every block is kept, as the tracker shows it. -/
def Kept (limit : UInt32) (s : Session) (story : List Turn) : Prop :=
  ∀ id, Lifetime limit (account id story) (s.inventory.get? id)

/-- Every one of the turns that come after a story keeps the account of every
block. -/
def Keeping (limit : UInt32) (story turns : List Turn) : Prop :=
  ∀ before x after, turns = before ++ x :: after →
    ∀ id, Keeps limit id (account id (story ++ before)) x

theorem Keeping.nil (limit : UInt32) (story : List Turn) : Keeping limit story [] := by
  intro before x after h
  simp at h

theorem Keeping.cons {story turns : List Turn} {x : Turn}
    (hx : ∀ id, Keeps limit id (account id story) x)
    (h : Keeping limit (story ++ [x]) turns) : Keeping limit story (x :: turns) := by
  intro before y after heq
  cases before with
  | nil =>
    obtain ⟨rfl, -⟩ := List.cons.inj heq
    simpa using hx
  | cons z before =>
    obtain ⟨rfl, hrest⟩ := List.cons.inj heq
    simpa using h before y after hrest

theorem Keeping.append {story turns more : List Turn} (h : Keeping limit story turns)
    (h' : Keeping limit (story ++ turns) more) : Keeping limit story (turns ++ more) := by
  induction turns generalizing story with
  | nil => simpa using h'
  | cons x turns ih =>
    have hx (id : BlockId) : Keeps limit id (account id story) x := by
      simpa using h [] x turns rfl id
    refine .cons hx (ih (fun before y after heq => ?_) ?_)
    · simpa using h (x :: before) y after (by rw [heq]; rfl)
    · simpa using h'

theorem Kept.turned {story : List Turn} (hk : Kept s.config.maxRequestAttempts s story)
    (h : Turned s cause o) :
    Kept s.config.maxRequestAttempts o.1 (story ++ [⟨s, cause, o⟩]) ∧
      ∀ id, Keeps s.config.maxRequestAttempts id (account id story) ⟨s, cause, o⟩ := by
  have hkeeps (id : BlockId) := turned_keeps (hk id) h
  refine ⟨fun id => ?_, hkeeps⟩
  rw [account_snoc]
  exact (hkeeps id).1

theorem messageTurns_kept {story : List Turn} (ht : Strict s [])
    (hk : Kept s.config.maxRequestAttempts s story) (sender : NodeId) (es : List Envelope) :
    Kept s.config.maxRequestAttempts (foldActions (onEnvelope sender) s es).1
        (story ++ messageTurns sender s es) ∧
      Keeping s.config.maxRequestAttempts story (messageTurns sender s es) := by
  induction es generalizing s story with
  | nil => exact ⟨by simpa [messageTurns, foldActions] using hk, .nil _ _⟩
  | cons e es ih =>
    obtain ⟨hnext, hkeeps⟩ := hk.turned (.message sender e (onEnvelope_informed ht sender e))
    have hconfig : (onEnvelope sender s e).1.config = s.config :=
      (onEnvelope_aside sender s e).config
    have hrest := ih ((onEnvelope_answered ht sender e).strict ht) (hconfig ▸ hnext)
    rw [hconfig, List.append_assoc] at hrest
    exact ⟨hrest.1, .cons hkeeps hrest.2⟩

theorem turns_kept {story : List Turn} (ht : Strict s [])
    (hk : Kept s.config.maxRequestAttempts s story) (e : Event) :
    Kept s.config.maxRequestAttempts (s.handle e).1 (story ++ s.turns e) ∧
      Keeping s.config.maxRequestAttempts story (s.turns e) := by
  have hone (hbytes : ∀ sender bytes, e ≠ .bytesReceived sender bytes) :
      Kept s.config.maxRequestAttempts (s.handle e).1 (story ++ [⟨s, .event e, s.handle e⟩]) ∧
        Keeping s.config.maxRequestAttempts story [⟨s, .event e, s.handle e⟩] := by
    obtain ⟨hnext, hkeeps⟩ := hk.turned (handle_turned ht hbytes)
    exact ⟨hnext, .cons hkeeps (.nil _ _)⟩
  cases e with
  | bytesReceived sender bytes =>
    simp only [turns, handle]
    split
    · exact messageTurns_kept (s := { s with frames := (s.frames.feed sender bytes).2 })
        (ht.of_aside rfl) hk sender _
    · exact ⟨by simpa using hk, .nil _ _⟩
  | _ => exact hone (by simp)

theorem Logged.kept (h : Logged setup config s log) :
    Kept config.maxRequestAttempts s (story log) ∧
      Keeping config.maxRequestAttempts [] (story log) := by
  induction h with
  | fresh => exact ⟨fun id => rfl, .nil _ _⟩
  | @step s log h now e ih =>
    have hconfig : (s.setTime now).config = config := h.reachable.sound.config_eq
    have hturns := turns_kept (h.reachable.strict.of_core (setTime_core s now))
      (hconfig.symm ▸ ih.1) e
    rw [hconfig] at hturns
    show Kept _ (s.after now e) (story (log ++ .event (s.setTime now) e ::
      (s.answer now e).map .action)) ∧ _
    rw [story_step]
    exact ⟨hturns.1, ih.2.append (by simpa using hturns.2)⟩

theorem Logged.story_actions (h : Logged setup config s log) :
    (story log).flatMap (·.outcome.2) = actions log := by
  induction h with
  | fresh => rfl
  | @step s log h now e ih =>
    rw [story_step, List.flatMap_append, ih, turns_actions, actions_step]
    rfl

-- ---------------------------------------------------------------------------
-- Timeouts
-- ---------------------------------------------------------------------------

theorem requestBlocks_blockTimeouts (s : Session) (peer : NodeId) (ids : List BlockId)
    (full : Bool) :
    (s.requestBlocks peer ids full).1.counted.blockTimeouts = s.counted.blockTimeouts := by
  have hstart (s : Session) (ids : List BlockId) :
      (foldActions (startRequest peer) s ids).1.counted = s.counted := by
    refine foldActions_keeps (I := fun t : Session => t.counted = s.counted)
      (fun t id _ ht => ?_) rfl
    rw [← ht]
    simp only [startRequest, armTimer]
    split <;> rfl
  unfold requestBlocks
  split
  · rfl
  · have hcounted := congrArg NodeStatistics.blockTimeouts (hstart s ids)
    cases full <;> exact hcounted

/-- What the end of a request's time leads to: the first announcer that was not
asked yet is, or the block is given up because there is none or because all the
requests were made. -/
structure TimedOut (s : Session) (id : BlockId) (entry : InventoryEntry) (o : Outcome Session) :
    Prop where
  counted : o.1.counted.blockTimeouts = s.counted.blockTimeouts + 1
  retried : ∀ peer, entry.attempts < s.config.maxRequestAttempts →
    entry.announcers[entry.attempts.toNat]? = some peer →
      o.1.inventory.get? id = some (entry.requested peer) ∧
        ∃ headersFrame headersCharge dataFrame dataCharge,
          named headersFrame = [id] ∧ named dataFrame = [id] ∧
            o.2 = [.setTimer (.inventoryTimeout id) s.config.invTimeout,
              .send peer .getHeaders headersFrame headersCharge,
              .send peer .getData dataFrame dataCharge]
  dropped : (o.1.inventory.get? id = none ∧ o.2 = []) ↔
    entry.attempts.toNat = entry.announcers.length ∨ s.config.maxRequestAttempts ≤ entry.attempts

theorem onInventoryTimeout_timedOut {entry : InventoryEntry} (ht : Strict s [id])
    (hk : s.isKnown id = false) (hentry : s.inventory.get? id = some entry)
    (hwithin : entry.attempts.toNat ≤ entry.announcers.length) :
    TimedOut s id entry (s.onInventoryTimeout id) := by
  rw [onInventoryTimeout_unknown hk hentry]
  cases hnext : entry.next? s.config.maxRequestAttempts with
  | none =>
    have hover := (InventoryEntry.next?_eq_none hwithin).mp hnext
    refine ⟨rfl, fun peer hlimit hpeer => ?_, iff_of_true ⟨?_, rfl⟩ hover⟩
    · rw [InventoryEntry.next?_eq_some.mpr ⟨hlimit, hpeer⟩] at hnext
      cases hnext
    · show (s.inventory.resolve id).2.get? id = none
      simp [Inventory.resolve, Inventory.get?]
  | some first =>
    have hs := retrying ht hentry hnext
    have hnever : ¬(entry.attempts.toNat = entry.announcers.length ∨
        s.config.maxRequestAttempts ≤ entry.attempts) := by
      rw [← InventoryEntry.next?_eq_none hwithin, hnext]
      exact Option.some_ne_none first
    obtain ⟨headersFrame, headersCharge, dataFrame, dataCharge, hheaders, hdata, hsnd⟩ :=
      requestBlocks_sent hs (List.cons_ne_nil id []) first true
    refine ⟨requestBlocks_blockTimeouts .., fun peer _ hpeer => ⟨?_, ?_⟩, iff_of_false ?_ hnever⟩
    · obtain rfl : first = peer :=
        Option.some.inj ((InventoryEntry.next?_eq_some.mp hnext).2.symm.trans hpeer)
      rw [requestBlocks_get? hs]
      show (if id ∈ [id] then
        (Inventory.get? ⟨s.inventory.entries.insert id { entry with timerArmed := false }⟩ id).map
          (·.requested first) else _) = _
      simp [Inventory.get?_insert, requested_disarmed]
    · obtain rfl : first = peer :=
        Option.some.inj ((InventoryEntry.next?_eq_some.mp hnext).2.symm.trans hpeer)
      exact ⟨headersFrame, headersCharge, dataFrame, dataCharge, hheaders, hdata, hsnd⟩
    · rintro ⟨-, hnothing⟩
      rw [hsnd] at hnothing
      cases hnothing

theorem Logged.timedOut (h : Logged setup config s log) (now : Time)
    (harmed : .inventoryTimeout id ∈ s.armed) (hk : s.isKnown id = false) :
    ∃ entry, s.inventory.get? id = some entry ∧
      TimedOut (s.setTime now) id entry
        ((s.setTime now).handle (.timerFired (.inventoryTimeout id))) := by
  have hs : Strict (s.setTime now) [] := h.reachable.strict.of_core (setTime_core s now)
  have hr : (s.setTime now).running = true := running_of_armed (s := s) h.reachable.resting harmed
  obtain ⟨entry, hentry⟩ := Option.isSome_iff_exists.mp (hs.requests id harmed).1
  have hentry : s.inventory.get? id = some entry := hentry
  have hl := h.kept.1 id
  rw [hentry] at hl
  have htimedOut := onInventoryTimeout_timedOut
    (s := (s.setTime now).disarm (.inventoryTimeout id))
    (disarm_inventoryTimeout_strict hs harmed) hk hentry hl.1.within
  refine ⟨entry, hentry, ?_⟩
  rw [handle_timerFired hr harmed]
  exact ⟨htimedOut.counted, htimedOut.retried, htimedOut.dropped⟩

/-- Every entry of the tracker is disciplined. Since a block was last untracked,
its entry lists those who announced it, and of these the first so many were
asked, in order; whoever is asked at all is asked in a turn that leaves the
block tracked. A timeout of a block that is unknown asks the first announcer not
asked yet, or gives the block up. -/
theorem logged_retries (h : Logged setup config s log) :
    (∀ id entry, s.inventory.get? id = some entry →
        entry.Disciplined config.maxRequestAttempts) ∧
      (story log).flatMap (·.outcome.2) = actions log ∧
      (∀ before x after, story log = before ++ x :: after → ∀ id,
        Lifetime config.maxRequestAttempts (account id (before ++ [x]))
            (x.outcome.1.inventory.get? id) ∧
          (account id (before ++ [x])).Orderly config.maxRequestAttempts ∧
          (x.outcome.1.inventory.get? id = none → x.asked id = [])) ∧
      ∀ now id, .inventoryTimeout id ∈ s.armed → s.isKnown id = false →
        ∃ entry, s.inventory.get? id = some entry ∧
          TimedOut (s.setTime now) id entry
            ((s.setTime now).handle (.timerFired (.inventoryTimeout id))) := by
  obtain ⟨hkept, hkeeping⟩ := h.kept
  refine ⟨fun id entry hentry => ?_, h.story_actions, fun before x after heq id => ?_,
    fun now id harmed hk => h.timedOut now harmed hk⟩
  · have hl := hkept id
    rw [hentry] at hl
    exact hl.1
  · obtain ⟨hl, hnobody⟩ := hkeeping before x after heq id
    rw [List.nil_append, ← account_snoc] at hl
    exact ⟨hl, hl.orderly, hnobody⟩

/-- Two peers announce a block and both are asked for it; when the second
request's time runs out too, nobody is left to ask. -/
theorem logged_retries_exhausted :
    let frame := "\x7b\"type\":\"blocks\",\"message\":0,\"inv\":[\"5/2\"]\x7d#".toUTF8.toList
    let timeout := Event.timerFired (.inventoryTimeout ⟨5, 2⟩)
    let setup : Setup := ⟨1, .committer, [2, 3], .standard, .usual, .empty⟩
    let s := ((((fresh setup .usual).after 0.0 .start).after 1.0 (.bytesReceived 2 frame)).after
      2.0 (.bytesReceived 3 frame)).after 122.0 timeout
    ∃ log, Logged setup .usual s log ∧ account ⟨5, 2⟩ (story log) = ⟨[2, 3], [2, 3]⟩ ∧
      (∀ id entry, s.inventory.get? id = some entry → entry.Disciplined 3) ∧
      (∃ entry, s.inventory.get? ⟨5, 2⟩ = some entry ∧
        TimedOut (s.setTime 242.0) ⟨5, 2⟩ entry ((s.setTime 242.0).handle timeout)) ∧
      s.answer 242.0 timeout = [] := by
  intro frame timeout setup s
  have h : Logged setup .usual s _ :=
    .step (.step (.step (.step .fresh 0.0 .start) 1.0 (.bytesReceived 2 frame)) 2.0
      (.bytesReceived 3 frame)) 122.0 timeout
  obtain ⟨hentries, -, -, htimeout⟩ := logged_retries h
  exact ⟨_, h, by decide +kernel, hentries,
    htimeout 242.0 ⟨5, 2⟩ (by decide +kernel) (by decide +kernel), by decide +kernel⟩

end Session

end BlockGossip
