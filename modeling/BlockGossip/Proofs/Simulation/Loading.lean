import BlockGossip.Proofs.Simulation.Assignment
import BlockGossip.Proofs.Text.Decimals
import BlockGossip.Proofs.Time.Durations
import BlockGossip.Simulation.Environment

/-!
# Which variable is blamed

The variables are read one after another, each with a form of its own
(`reading`). The first one that is set to a value of another form (`FirstFault`)
is blamed, with that value; where there is none, the configuration is valid or
refused as a whole. One value is not blamed: an interval whose seconds are of
the form, but too many for a duration (`Overlong`).
-/

namespace BlockGossip.SimulationConfig

variable {vars : Variables} {key key' value value' : String} {x : Time} {c : SimulationConfig}

-- ---------------------------------------------------------------------------
-- Forms
-- ---------------------------------------------------------------------------

/-- The forms that values have to be of. -/
inductive Form where
  /-- A whole number below the limit. -/
  | word (limit : Nat)
  | protocol
  | linkage
  | decimal
  /-- A number of seconds, more than none, that there is a duration for. -/
  | interval

/-- The value is of the form. -/
def Form.Accepts (value : String) : Form → Prop
  | word limit => ∃ n, Numeral.Spells value.toList n ∧ n < limit
  | protocol => Text.joined (Text.lower value) ∈ ["standard", "sendheaders"]
  | linkage =>
    Text.joined (Text.lower value) ∈ ["mineridentity", "miner", "sharedparent", "parent"]
  | decimal => ∃ x, Decimal.Spells value.toList x
  | interval =>
    ∃ x, Decimal.Spells value.toList x ∧ x.isFinite = true ∧ 0.0 < x ∧ x < Duration.beyond

abbrev intervalKey : String := "GL_BLOCK_INTERVAL_SECS"

/-- The variables in the order in which they are read, each with its form. -/
def reading : List (String × Form) := [
  ("GL_NODES", .word UInt32.size),
  ("GL_CONNECTIONS", .word UInt64.size),
  ("GL_ORDERERS", .word UInt32.size),
  ("GL_ENDORSERS", .word UInt32.size),
  ("GL_CLIENTS", .word UInt32.size),
  ("GL_MINERS", .word UInt32.size),
  ("GL_PROTOCOL", .protocol),
  ("GL_LINKAGE", .linkage),
  ("GL_BANDWIDTH_MBPS", .decimal),
  ("GL_LATENCY_MS", .word UInt64.size),
  ("GL_CHUNK_SIZE", .word UInt64.size),
  (intervalKey, .interval),
  ("GL_BLOCK_SIZE", .word UInt64.size),
  ("GL_BLOCKS", .word UInt64.size),
  ("GL_DURATION_SECS", .word UInt64.size),
  ("GL_INV_TIMEOUT_SECS", .word UInt64.size),
  ("GL_SEED", .word UInt64.size)]

-- ---------------------------------------------------------------------------
-- Faults
-- ---------------------------------------------------------------------------

/-- The variable is not set, or to a value of its form. -/
def Fine (vars : Variables) (entry : String × Form) : Prop :=
  ∀ value, setting vars entry.1 = some value → entry.2.Accepts value

/-- The first variable that is set to a value of another form, and that value. -/
inductive FirstFault (vars : Variables) : List (String × Form) → String → String → Prop where
  | here {key value : String} {form : Form} {rest : List (String × Form)} :
      setting vars key = some value → ¬form.Accepts value →
      FirstFault vars ((key, form) :: rest) key value
  | later {key value : String} {entry : String × Form} {rest : List (String × Form)} :
      Fine vars entry → FirstFault vars rest key value → FirstFault vars (entry :: rest) key value

theorem FirstFault.unique {entries : List (String × Form)} (h : FirstFault vars entries key value)
    (h' : FirstFault vars entries key' value') : key = key' ∧ value = value' := by
  induction h with
  | here hset hnot =>
    cases h' with
    | here hset' => exact ⟨rfl, Option.some.inj (hset.symm.trans hset')⟩
    | later hfine => exact absurd (hfine _ hset) hnot
  | later hfine _ ih =>
    cases h' with
    | here hset hnot => exact absurd (hfine _ hset) hnot
    | later _ h' => exact ih h'

/-- There is a first fault exactly where a variable is not fine. -/
theorem FirstFault.exists_iff {entries : List (String × Form)} :
    (∃ key value, FirstFault vars entries key value) ↔ ∃ entry ∈ entries, ¬Fine vars entry := by
  constructor
  · rintro ⟨key, value, h⟩
    induction h with
    | here hset hnot => exact ⟨_, .head _, fun hfine => hnot (hfine _ hset)⟩
    | later _ _ ih =>
      obtain ⟨entry, hmem, hnot⟩ := ih
      exact ⟨entry, .tail _ hmem, hnot⟩
  · rintro ⟨entry, hmem, hnot⟩
    induction entries with
    | nil => cases hmem
    | cons first rest ih =>
      by_cases hfirst : Fine vars first
      · have hrest : entry ∈ rest := by
          cases hmem with
          | head => exact absurd hfirst hnot
          | tail _ hmem => exact hmem
        obtain ⟨key, value, h⟩ := ih hrest
        exact ⟨key, value, .later hfirst h⟩
      · unfold Fine at hfirst
        obtain ⟨value, hfirst⟩ := not_forall.mp hfirst
        obtain ⟨hset, hvalue⟩ := Classical.not_imp.mp hfirst
        exact ⟨first.1, value, .here hset hvalue⟩

/-- The interval is a finite positive number of seconds, but too many for a
duration. -/
structure Overlong (key value : String) (x : Time) : Prop where
  key : key = intervalKey
  spells : Decimal.Spells value.toList x
  isFinite : x.isFinite = true
  positive : 0.0 < x
  beyond : ¬x < Duration.beyond

/-- What is answered to a fault. -/
inductive Blamed (key value : String) : LoadError → Prop where
  | refused : (∀ x, ¬Overlong key value x) → Blamed key value (.refused (.invalidValue key value))
  | overflow {x : Time} : Overlong key value x → Blamed key value (.intervalOverflow x)

-- ---------------------------------------------------------------------------
-- One variable after another
-- ---------------------------------------------------------------------------

/-- What comes of reading the variables: a configuration with the property where
all are fine, and else the answer to the first fault. -/
inductive Follows (vars : Variables) (P : SimulationConfig → Prop) :
    List (String × Form) → Except LoadError SimulationConfig → Prop where
  | loaded {entries : List (String × Form)} {c : SimulationConfig} :
      (∀ entry ∈ entries, Fine vars entry) → P c → Follows vars P entries (.ok c)
  | blamed {entries : List (String × Form)} {key value : String} {e : LoadError} :
      FirstFault vars entries key value → Blamed key value e → Follows vars P entries (.error e)

variable {P : SimulationConfig → Prop} {form : Form} {rest : List (String × Form)}
  {r : Except LoadError SimulationConfig}

theorem Follows.after_fine {entry : String × Form} (hfine : Fine vars entry)
    (h : Follows vars P rest r) : Follows vars P (entry :: rest) r := by
  cases h with
  | loaded hrest hc => exact .loaded (List.forall_mem_cons.mpr ⟨hfine, hrest⟩) hc
  | blamed hfault hblamed => exact .blamed (.later hfine hfault) hblamed

theorem fine_of_none (h : setting vars key = none) : Fine vars (key, form) := by
  intro value hset
  simp [h] at hset

theorem fine_of_accepts (h : setting vars key = some value) (hvalue : form.Accepts value) :
    Fine vars (key, form) := by
  intro value' hset
  obtain rfl := Option.some.inj (h.symm.trans hset)
  exact hvalue

/-- What is read has no blanks around it. -/
theorem trim_setting (h : setting vars key = some value) : Text.trim value = value := by
  obtain ⟨hvalue, -⟩ := Option.filter_eq_some_iff.mp h
  obtain ⟨s, -, rfl⟩ := Option.map_eq_some_iff.mp hvalue
  exact Text.trim_trim s

variable {f : SimulationConfig → Except LoadError SimulationConfig}

/-- One variable, and then the others. -/
theorem load_follows {α : Type} {read : String → Option α}
    {put : SimulationConfig → α → SimulationConfig}
    (hread : ∀ value, Text.trim value = value → ((read value).isSome ↔ form.Accepts value))
    (hkey : key ≠ intervalKey) (hrest : ∀ c, Follows vars P rest (f c)) :
    Follows vars P ((key, form) :: rest) (load vars key read put c >>= f) := by
  unfold load
  cases hset : setting vars key with
  | none => exact (hrest c).after_fine (fine_of_none hset)
  | some value =>
    have hread := hread value (trim_setting hset)
    dsimp only
    cases hvalue : read value with
    | some a =>
      have haccepts : form.Accepts value := hread.mp (by simp [hvalue])
      exact (hrest _).after_fine (fine_of_accepts hset haccepts)
    | none =>
      have hnot : ¬form.Accepts value := fun haccepts => by simpa [hvalue] using hread.mpr haccepts
      exact .blamed (.here hset hnot) (.refused fun x h => hkey h.key)

/-- The check that a number of seconds passes before it is turned into a duration. -/
theorem checked_iff {x : Float} :
    ((Decimal.read? value).filter fun x => x.isFinite && x > 0.0) = some x ↔
      Decimal.Spells value.toList x ∧ x.isFinite = true ∧ 0.0 < x := by
  rw [Option.filter_eq_some_iff, Decimal.read?_eq_some_iff, Bool.and_eq_true_iff,
    decide_eq_true_iff]

/-- The interval is checked and then turned into a duration; only the check
blames the variable. -/
theorem loadInterval_follows (hrest : ∀ c, Follows vars P rest (f c)) :
    Follows vars P ((intervalKey, .interval) :: rest) (loadInterval vars c >>= f) := by
  -- The conversion stays closed: only which seconds it refuses is needed.
  obtain ⟨duration?, hduration⟩ : ∃ read, Duration.ofPositiveSeconds? = read := ⟨_, rfl⟩
  have hlong := @Duration.ofPositiveSeconds?_eq_none_iff
  rw [hduration] at hlong
  rw [loadInterval, hduration]
  cases hset : setting vars intervalKey with
  | none => exact (hrest c).after_fine (fine_of_none hset)
  | some value =>
    dsimp only
    cases hread : (Decimal.read? value).filter fun x => x.isFinite && x > 0.0 with
    | none =>
      have hnone {x : Time} (hspells : Decimal.Spells value.toList x) (hfinite : x.isFinite = true)
          (hpos : 0.0 < x) : False :=
        Option.some_ne_none x ((checked_iff.mpr ⟨hspells, hfinite, hpos⟩).symm.trans hread)
      refine .blamed (.here hset ?_) (.refused ?_)
      · rintro ⟨x, hspells, hfinite, hpos, -⟩
        exact hnone hspells hfinite hpos
      · intro x h
        exact hnone h.spells h.isFinite h.positive
    | some x =>
      obtain ⟨hspells, hfinite, hpos⟩ := checked_iff.mp hread
      have hlong := hlong hfinite hpos
      dsimp only
      cases hinterval : duration? x with
      | some interval =>
        have hlt : x < Duration.beyond := by
          by_contra h
          exact Option.some_ne_none _ (hinterval.symm.trans (hlong.mpr h))
        exact (hrest _).after_fine (fine_of_accepts hset ⟨x, hspells, hfinite, hpos, hlt⟩)
      | none =>
        have hbeyond := hlong.mp hinterval
        refine .blamed (.here hset ?_) (.overflow ⟨rfl, hspells, hfinite, hpos, hbeyond⟩)
        rintro ⟨y, hspells', -, -, hlt⟩
        obtain rfl := hspells.unique hspells'
        exact hbeyond hlt

-- ---------------------------------------------------------------------------
-- What each variable is read with
-- ---------------------------------------------------------------------------

theorem read?_accepts (limit : Nat) (value : String) :
    (Numeral.read? limit value.toList).isSome ↔ (Form.word limit).Accepts value := by
  simp [Form.Accepts, Option.isSome_iff_exists, Numeral.read?_eq_some_iff]

theorem word32?_accepts (value : String) :
    (Numeral.word32? value).isSome ↔ (Form.word UInt32.size).Accepts value := by
  rw [Numeral.word32?, Option.isSome_map, read?_accepts]

theorem word64?_accepts (value : String) :
    (Numeral.word64? value).isSome ↔ (Form.word UInt64.size).Accepts value := by
  rw [Numeral.word64?, Option.isSome_map, read?_accepts]

theorem seconds?_accepts (value : String) :
    (seconds? value).isSome ↔ (Form.word UInt64.size).Accepts value := by
  rw [seconds?, Option.isSome_map, word64?_accepts]

theorem milliseconds?_accepts (value : String) :
    (milliseconds? value).isSome ↔ (Form.word UInt64.size).Accepts value := by
  rw [milliseconds?, Option.isSome_map, word64?_accepts]

theorem decimal_accepts (value : String) :
    (Decimal.read? value).isSome ↔ Form.decimal.Accepts value := by
  simp [Form.Accepts, Option.isSome_iff_exists, Decimal.read?_eq_some_iff]

theorem linkage?_accepts (value : String) :
    (linkage? value).isSome ↔ Form.linkage.Accepts value := by
  unfold linkage? Form.Accepts
  split <;> simp_all

theorem protocol?_accepts (htrim : Text.trim value = value) :
    (protocol? value).isSome ↔ Form.protocol.Accepts value := by
  unfold protocol? Protocol.parse Form.Accepts
  rw [htrim]
  split <;> simp_all [Except.toOption]

theorem loadAll_follows (vars : Variables) :
    Follows vars (fun c => c.session.ledger.linkage = c.linkage) reading (loadAll vars) := by
  unfold loadAll reading
  refine load_follows (fun value _ => word32?_accepts value) (by decide) fun c => ?_
  refine load_follows (fun value _ => word64?_accepts value) (by decide) fun c => ?_
  iterate 4
    refine load_follows (fun value _ => word32?_accepts value) (by decide) fun c => ?_
  refine load_follows (fun value => protocol?_accepts) (by decide) fun c => ?_
  refine load_follows (fun value _ => linkage?_accepts value) (by decide) fun c => ?_
  refine load_follows (fun value _ => decimal_accepts value) (by decide) fun c => ?_
  refine load_follows (fun value _ => milliseconds?_accepts value) (by decide) fun c => ?_
  refine load_follows (fun value _ => word64?_accepts value) (by decide) fun c => ?_
  refine loadInterval_follows fun c => ?_
  iterate 2
    refine load_follows (fun value _ => word64?_accepts value) (by decide) fun c => ?_
  iterate 2
    refine load_follows (fun value _ => seconds?_accepts value) (by decide) fun c => ?_
  refine load_follows (fun value _ => word64?_accepts value) (by decide) fun c => ?_
  exact .loaded (by simp) rfl

-- ---------------------------------------------------------------------------
-- The configuration as a whole
-- ---------------------------------------------------------------------------

/-- Whatever is wrong with a configuration as a whole, no variable is blamed. -/
theorem fault?_ne_invalidValue : c.fault? ≠ some (.invalidValue key value) := by
  unfold fault?
  dsimp only
  repeat' split
  all_goals simp

/-- What comes of the variables: a configuration, a refusal of the configuration
as a whole, or the answer to the first fault. -/
inductive Outcome (vars : Variables) : Except LoadError SimulationConfig → Prop where
  | valid {c : SimulationConfig} : (∀ entry ∈ reading, Fine vars entry) → c.validate = .ok () →
      c.session.ledger.linkage = c.linkage → Outcome vars (.ok c)
  | refused {e : ConfigError} : (∀ entry ∈ reading, Fine vars entry) →
      (∀ key value, e ≠ .invalidValue key value) → Outcome vars (.error (.refused e))
  | blamed {key value : String} {e : LoadError} :
      FirstFault vars reading key value → Blamed key value e → Outcome vars (.error e)

theorem ofVariables_outcome (vars : Variables) : Outcome vars (ofVariables vars) := by
  have hfollows := loadAll_follows vars
  unfold ofVariables
  generalize loadAll vars = r at hfollows
  cases hfollows with
  | blamed hfault hblamed => exact .blamed hfault hblamed
  | @loaded c hfine hlinkage =>
    dsimp only [bind, Except.bind]
    split
    · rename_i e hfault
      refine .refused hfine ?_
      rintro key value rfl
      exact fault?_ne_invalidValue hfault
    · rename_i hfault
      exact .valid hfine (validate_ok_iff_fault.mpr hfault) hlinkage

/-- What loading a configuration from the variables does. -/
structure Loaded (vars : Variables) (r : Except LoadError SimulationConfig) : Prop where
  valid : ∀ c, r = .ok c → c.validate = .ok () ∧ c.session.ledger.linkage = c.linkage
  /-- With all variables fine, and only then, it is loaded or refused as a whole. -/
  fine : (∀ entry ∈ reading, Fine vars entry) ↔
    (∃ c, r = .ok c) ∨ ∃ e, r = .error (.refused e) ∧ ∀ key value, e ≠ .invalidValue key value
  /-- The first fault is blamed, with the value as it was set but for the blanks around it. -/
  blamed : ∀ key value, r = .error (.refused (.invalidValue key value)) ↔
    FirstFault vars reading key value ∧ ∀ x, ¬Overlong key value x
  /-- Too long an interval is the one fault that no variable is blamed for. -/
  overflow : ∀ x, r = .error (.intervalOverflow x) ↔
    ∃ key value, FirstFault vars reading key value ∧ Overlong key value x

theorem FirstFault.not_fine (h : FirstFault vars reading key value) :
    ¬∀ entry ∈ reading, Fine vars entry := by
  intro hfine
  obtain ⟨entry, hmem, hnot⟩ := exists_iff.mp ⟨key, value, h⟩
  exact hnot (hfine entry hmem)

/-- Whatever the variables are, the first fault is blamed, unless it is too long
an interval; without a fault there is a valid configuration or none at all. -/
theorem ofVariables_loaded (vars : Variables) : Loaded vars (ofVariables vars) := by
  have houtcome := ofVariables_outcome vars
  generalize ofVariables vars = r at houtcome
  cases houtcome with
  | @valid c hfine hvalid hlinkage =>
    have hnone {key value : String} : ¬FirstFault vars reading key value := (·.not_fine hfine)
    exact ⟨by simp [hvalid, hlinkage], iff_of_true hfine (.inl ⟨c, rfl⟩), by simp [hnone],
      by simp [hnone]⟩
  | @refused e hfine hother =>
    have hnone {key value : String} : ¬FirstFault vars reading key value := (·.not_fine hfine)
    exact ⟨by simp, iff_of_true hfine (.inr ⟨e, rfl, hother⟩), by simp [hnone, hother],
      by simp [hnone]⟩
  | @blamed key value e hfault hblamed =>
    have hnotfine := hfault.not_fine
    cases hblamed with
    | refused hnot =>
      refine ⟨by simp, iff_of_false hnotfine (by simp), fun key' value' => ⟨?_, ?_⟩, fun x => ?_⟩
      · rintro ⟨⟩
        exact ⟨hfault, hnot⟩
      · rintro ⟨hfault', -⟩
        obtain ⟨rfl, rfl⟩ := hfault.unique hfault'
        rfl
      · refine iff_of_false (by simp) ?_
        rintro ⟨key', value', hfault', hover⟩
        obtain ⟨rfl, rfl⟩ := hfault.unique hfault'
        exact hnot x hover
    | @overflow x hover =>
      refine ⟨by simp, iff_of_false hnotfine (by simp), fun key' value' => ?_, fun y => ⟨?_, ?_⟩⟩
      · refine iff_of_false (by simp) ?_
        rintro ⟨hfault', hnot⟩
        obtain ⟨rfl, rfl⟩ := hfault.unique hfault'
        exact hnot x hover
      · rintro ⟨⟩
        exact ⟨key, value, hfault, hover⟩
      · rintro ⟨key', value', hfault', hover'⟩
        obtain ⟨rfl, rfl⟩ := hfault.unique hfault'
        rw [hover.spells.unique hover'.spells]

/-- An interval that is the only variable set, and too long. -/
def longInterval : Variables := fun key => if key = intervalKey then some "1e20" else none

/-- The interval is at fault, and yet it is not blamed. -/
theorem longInterval_unblamed : FirstFault longInterval reading intervalKey "1e20" ∧
    ofVariables longInterval = .error (.intervalOverflow 1e20) := by
  refine ⟨?_, by decide +kernel⟩
  iterate 11
    refine .later (fine_of_none (by decide +kernel)) ?_
  refine .here (by decide +kernel) ?_
  rintro ⟨x, hspells, -, -, hlt⟩
  have hread : Decimal.read? "1e20" = some 1e20 := by decide +kernel
  obtain rfl := hspells.unique (Decimal.read?_eq_some_iff.mp hread)
  exact absurd hlt (by decide +kernel)

end BlockGossip.SimulationConfig
