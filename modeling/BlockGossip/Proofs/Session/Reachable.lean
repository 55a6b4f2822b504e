import BlockGossip.Proofs.Session.Effects

/-!
# Reachable sessions are rooted

Whatever events come, in whatever order and with whatever bytes, the ledger of
a session stays a tree of parents above the genesis block and its pool holds no
block whose parent is stored. `Anchored` carries the induction; `Rooted` is
what it says to a reader of the ledger.
-/

namespace BlockGossip

-- ---------------------------------------------------------------------------
-- Rooted ledgers
-- ---------------------------------------------------------------------------

structure Rooted (l : Ledger) (pool : OrphanPool) : Prop where
  root : l.level 0 = [Block.genesis]
  parent : ∀ b ∈ l.toList, b ≠ Block.genesis →
    ∃ p ∈ l.toList, l.parent? b = some p ∧ p.height.toNat + 1 = b.height.toNat
  /-- The chain of parents meets the genesis block after as many steps as the
  block is high, and at no other step. -/
  chain : ∀ b ∈ l.toList, ∀ k, l.ancestor k b = some Block.genesis ↔ k = b.height.toNat
  filled : ∀ k ≤ l.height, l.level k ≠ []
  low : l.height < l.size
  waiting : ∀ o ∈ pool.blocks, l.hasParent o = false

namespace Anchored

variable {l : Ledger} {pool : OrphanPool} {b : Block}

theorem parent?_genesis (l : Ledger) : l.parent? Block.genesis = none := rfl

theorem ancestor_genesis_iff (h : Anchored l pool) (hb : b ∈ l.toList) (k : Nat) :
    l.ancestor k b = some Block.genesis ↔ k = b.height.toNat := by
  induction k generalizing b with
  | zero =>
    rw [Ledger.ancestor, Option.some_inj]
    constructor
    · rintro rfl; rfl
    · exact fun h0 => h.eq_genesis_of_height hb h0.symm
  | succ k ih =>
    by_cases hg : b = Block.genesis
    · subst hg
      rw [Ledger.ancestor, parent?_genesis]
      constructor
      · exact fun hk => absurd hk.symm (Option.some_ne_none _)
      · exact fun hk => absurd hk (Nat.succ_ne_zero k)
    · obtain ⟨p, hp, hparent, hheight⟩ := h.parent?_of_ne_genesis hb hg
      rw [Ledger.ancestor, hparent, Option.bind_some, ih hp, ← hheight]
      exact Nat.succ_inj.symm

theorem rooted (h : Anchored l pool) : Rooted l pool where
  root := h.level_zero
  parent _ hb hg := h.parent?_of_ne_genesis hb hg
  chain _ hb k := h.ancestor_genesis_iff hb k
  filled _ hk := h.level_ne_nil hk
  low := h.height_lt_size
  waiting := h.waiting

end Anchored

namespace Session

variable {setup : Setup} {config : SessionConfig} {s : Session}

-- ---------------------------------------------------------------------------
-- Reachable sessions
-- ---------------------------------------------------------------------------

/-- The session after an event at a time. -/
def after (s : Session) (now : Time) (e : Event) : Session := ((s.setTime now).handle e).1

/-- What a fresh session becomes under events, each at any time. -/
inductive Reachable (setup : Setup) (config : SessionConfig) : Session → Prop
  | fresh : Reachable setup config (.fresh setup config)
  | step {s : Session} (h : Reachable setup config s) (now : Time) (e : Event) :
    Reachable setup config (s.after now e)

/-- The settled part of a session is in order. -/
structure Sound (setup : Setup) (config : SessionConfig) (s : Session) : Prop where
  setup_eq : s.setup = setup
  config_eq : s.config = config
  linkage : s.ledger.linkage = s.config.ledger.linkage
  anchored : Anchored s.ledger s.orphans

theorem fresh_sound (setup : Setup) (config : SessionConfig) :
    Sound setup config (.fresh setup config) := ⟨rfl, rfl, rfl, genesis_anchored _⟩

theorem setTime_sound (h : Sound setup config s) (now : Time) :
    Sound setup config (s.setTime now) := ⟨h.setup_eq, h.config_eq, h.linkage, h.anchored⟩

theorem acceptance_anchored (h : Anchored s.ledger s.orphans) (e : Event) :
    Anchored (s.acceptance e).ledger (s.acceptance e).orphans := by
  unfold acceptance
  split
  · exact h.accept _
  · exact h

theorem acceptance_linkage (h : Anchored s.ledger s.orphans) (e : Event) :
    (s.acceptance e).ledger.linkage = s.ledger.linkage := by
  unfold acceptance
  split
  · exact h.accept_linkage _
  · rfl

theorem acceptance_toList (h : Anchored s.ledger s.orphans) (e : Event) :
    (s.acceptance e).ledger.toList = s.ledger.toList ++ (s.acceptance e).stored := by
  unfold acceptance
  split
  · exact h.accept_toList _
  · simp

theorem handle_sound (h : Sound setup config s) (e : Event) :
    Sound setup config (s.handle e).1 where
  setup_eq := (handle_setup s e).trans h.setup_eq
  config_eq := (handle_config s e).trans h.config_eq
  linkage := by rw [handle_ledger, handle_config, acceptance_linkage h.anchored, h.linkage]
  anchored := by
    rw [handle_ledger, handle_orphans]
    exact acceptance_anchored h.anchored e

theorem Reachable.sound {s : Session} (h : Reachable setup config s) : Sound setup config s := by
  induction h with
  | fresh => exact fresh_sound setup config
  | step _ now e ih => exact handle_sound (setTime_sound ih now) e

-- ---------------------------------------------------------------------------
-- Heights that are counted up from
-- ---------------------------------------------------------------------------

/-- The blocks whose height is counted up by one while an event is handled: the
stored blocks, among which a parent is looked for; each block that is stored,
to open its level; and each block whose children promotion asks the pool for. -/
def countedUp (s : Session) (e : Event) : List Block :=
  s.ledger.toList ++ (s.acceptance e).stored ++
    match s.accepting? e, (s.acceptance e).stored with
    | some b, _ :: _ =>
      Promotion.asked (s.orphans.size + 1) ⟨s.ledger.stored b, s.orphans, []⟩ [b]
    | _, _ => []

/-- Every one of them ends in the ledger. -/
theorem countedUp_stored (h : Anchored s.ledger s.orphans) (e : Event) :
    ∀ b ∈ s.countedUp e, b ∈ (s.handle e).1.ledger.toList := by
  intro b hb
  rw [handle_ledger, acceptance_toList h]
  rw [countedUp, List.append_assoc] at hb
  rcases List.mem_append.mp hb with hb | hb
  · exact List.mem_append_left _ hb
  refine List.mem_append_right _ ?_
  unfold acceptance at hb ⊢
  cases ha : s.accepting? e with
  | none => simp [ha] at hb
  | some r =>
    simp only [ha] at hb ⊢
    cases hk : s.ledger.contains r.id || s.orphans.contains r.id with
    | true => simp [accept_held hk] at hb
    | false =>
      obtain ⟨hl, ho⟩ := Bool.or_eq_false_iff.mp hk
      cases hp : s.ledger.hasParent r with
      | false => simp [accept_parked hk hp] at hb
      | true =>
        rw [accept_stored hk hp] at hb ⊢
        rcases List.mem_append.mp hb with hb | hb
        · exact hb
        · exact (h.starting hl ho).asked b hb

/-- In every reachable session the ledger is rooted, whatever came before, and
whatever comes next counts up only from heights below the number of blocks then
stored. That number is a machine word, so no such sum overflows. -/
theorem reachable_rooted (h : Reachable setup config s) :
    Rooted s.ledger s.orphans ∧
      ∀ now e, ∀ b ∈ (s.setTime now).countedUp e,
        b.height.toNat + 1 ≤ (s.after now e).ledger.size ∧
          ((s.after now e).ledger.size < UInt64.size →
            (b.height + 1).toNat = b.height.toNat + 1) := by
  refine ⟨h.sound.anchored.rooted, fun now e b hb => ?_⟩
  have hs := setTime_sound h.sound now
  have hstored := countedUp_stored hs.anchored e b hb
  have hle := (handle_sound hs e).anchored.height_succ_le_size hstored
  refine ⟨hle, fun hsize => ?_⟩
  rw [UInt64.toNat_add]
  exact Nat.mod_eq_of_lt (Nat.lt_of_le_of_lt hle hsize)

/-- The highest block there can be opens no level: it waits as an orphan. -/
theorem reachable_rooted_highest :
    let started := (fresh ⟨1, .committer, [2], .standard, .usual, .empty⟩ .usual).after 0.0 .start
    let s := started.after 1.0
      (.blockMinted { Block.genesis with height := 0xFFFFFFFFFFFFFFFF, minerId := 1 })
    Rooted s.ledger s.orphans ∧ s.orphans.size = 1 ∧ s.ledger.height = 0 :=
  ⟨(reachable_rooted (.step (.step .fresh 0.0 .start) 1.0 (.blockMinted _))).1,
    by decide +kernel, by decide +kernel⟩

end Session

end BlockGossip
