import BlockGossip.Proofs.Pool.Admission

/-!
# What a pool counts

A pool keeps collections and counts beside them: of executions, of transactions
that an order node passed on, of validations, and of transactions it created.
Whatever is asked of a pool in its role, the counts are those of the collections
(`afterAll_tallied`). Counts and numbers are 64-bit words.
-/

namespace BlockGossip

namespace Pool

variable {p q : Pool} {t fresh : Transaction} {id : TransactionId} {now : Time}

-- ---------------------------------------------------------------------------
-- Calls
-- ---------------------------------------------------------------------------

inductive Call where
  | request (offered : Transaction) (now : Time)
  | reply (reported : Transaction)
  | create (now : Time)
  | validate (b : Block) (now : Time)

/-- Transactions are created in the roles that do. -/
def Call.Suits (role : Role) : Call → Prop
  | create _ => role.originates = true
  | _ => True

def after (p : Pool) : Call → Pool
  | .request offered now => (p.request offered now).2
  | .reply reported => (p.reply reported).2
  | .create now => (p.create now).2
  | .validate b now => (p.validateFromBlock b now).2

def afterAll (p : Pool) (calls : List Call) : Pool := calls.foldl after p

/-- The ids that were offered, in order. -/
def offered (calls : List Call) : List TransactionId :=
  calls.filterMap fun
    | .request t _ => some t.id
    | _ => none

def executionOf (t : Transaction) : ExecutionId := (t.id, t.execution)

/-- The executions that were reported, in order. -/
def reported (calls : List Call) : List ExecutionId :=
  calls.filterMap fun
    | .reply t => some (executionOf t)
    | _ => none

def creations (calls : List Call) : Nat :=
  calls.countP fun
    | .create _ => true
    | _ => false

/-- The ids that a pool creates under calls. -/
def createdIds (p : Pool) : List Call → List TransactionId
  | [] => []
  | .create now :: calls => (p.create now).1.id :: (p.create now).2.createdIds calls
  | call :: calls => (p.after call).createdIds calls

-- ---------------------------------------------------------------------------
-- Counts
-- ---------------------------------------------------------------------------

/-- The number of held transactions that are validated. -/
def validatedCount (p : Pool) : Nat := p.held.values.countP (·.validated)

/-- The counts of a pool are those of its collections. -/
structure Counted (p : Pool) : Prop where
  keyed : p.held.Keyed Transaction.id
  distinct : (p.executed.map Transaction.id).Nodup
  stamped : ∀ t ∈ p.executed, t.execution = p.node
  performed : ∀ id, id ∈ p.executed.map Transaction.id ↔
    p.role.executes = true ∧ p.holds id = true
  endorsement : p.endorsement.count = UInt64.ofNat p.executed.length
  ordering : p.role = .order → p.ordering.count = UInt64.ofNat p.heldCount
  validation : p.validation.count = UInt64.ofNat p.validatedCount
  unmarked : p.role.validates = false → p.validatedCount = 0

theorem empty_counted (node : NodeId) (role : Role) (config : TransactionConfig) :
    (empty node role config).Counted where
  keyed := Table.empty_keyed
  distinct := List.nodup_nil
  stamped := nofun
  performed _ := iff_of_false List.not_mem_nil fun h => Bool.false_ne_true h.2
  endorsement := rfl
  ordering _ := rfl
  validation := rfl
  unmarked _ := rfl

theorem countP_validated (t : Transaction) (ts : List Transaction) :
    (t :: ts).countP (·.validated) = ts.countP (·.validated) + t.validated.toNat := by
  rw [List.countP_cons]
  cases t.validated <;> rfl

/-- A transaction that is not held is one more. -/
theorem insert_absent (hid : p.get? id = none) (hq : q.held = p.held.insert id t) :
    q.heldCount = p.heldCount + 1 ∧
      q.validatedCount = p.validatedCount + t.validated.toNat := by
  have hentries : q.held.entries = p.held.entries ++ [(id, t)] := by
    rw [hq]
    exact Table.put_absent hid t
  refine ⟨?_, ?_⟩
  · rw [heldCount, Table.size, hentries, List.length_append]
    rfl
  · rw [validatedCount, Table.values, hentries, List.map_append, List.countP_append,
      List.map_singleton, countP_validated, List.countP_nil, Nat.zero_add]
    rfl

/-- A transaction in the place of a held one leaves the others as they are. -/
theorem insert_present {held : Transaction} (hid : p.get? id = some held)
    (hq : q.held = p.held.insert id t) :
    q.heldCount = p.heldCount ∧
      q.validatedCount + held.validated.toNat = p.validatedCount + t.validated.toNat := by
  obtain ⟨before, after, hold, hput⟩ := Table.put_present hid
  have hnew : q.held.entries = before ++ (id, t) :: after := by
    rw [hq]
    exact hput t
  refine ⟨?_, ?_⟩
  · rw [heldCount, Table.size, hnew, heldCount, Table.size, hold, List.length_append,
      List.length_append]
    rfl
  · rw [validatedCount, Table.values, hnew, validatedCount, Table.values, hold]
    simp only [List.map_append, List.map_cons, List.countP_append, countP_validated]
    omega

theorem holds_insert_iff (hq : q.held = p.held.insert id t) {i : TransactionId} :
    q.holds i = true ↔ p.holds i = true ∨ i = id := by
  rw [holds, hq, Table.contains, Table.get?_insert]
  by_cases he : id = i
  · simp [he]
  · simp [he, Ne.symm he, holds, Table.contains]

-- ---------------------------------------------------------------------------
-- Offers
-- ---------------------------------------------------------------------------

theorem request_ignored (h : p.role.acceptsRequests = false) (t : Transaction) (now : Time) :
    p.request t now = (.ignored, p) := by
  rw [request, h]
  rfl

theorem request_held (hrole : p.role.acceptsRequests = true) (h : p.holds t.id = true)
    (now : Time) : p.request t now = (.alreadyHeld, p) := by
  rw [request, hrole, h]
  rfl

/-- The pool takes a transaction in that it does not hold, and executes it or
passes it on. -/
structure Admits (p : Pool) (fresh : Transaction) (q : Pool) : Prop where
  unmarked : fresh.validated = false
  held : q.held = p.held.insert fresh.id fresh
  executed : q.executed =
    p.executed ++ if p.role.executes then [fresh.setExecution p.node] else []
  endorsement : q.endorsement.count = p.endorsement.count + if p.role.executes then 1 else 0
  ordering : q.ordering.count = p.ordering.count + if p.role = .order then 1 else 0
  validation : q.validation = p.validation
  node : q.node = p.node
  role : q.role = p.role

theorem request_admits (hrole : p.role.acceptsRequests = true) (h : p.holds t.id = false)
    (now : Time) : ∃ fresh : Transaction, fresh.id = t.id ∧ Admits p fresh (p.request t now).2 := by
  rw [request, hrole, h]
  refine ⟨{ Transaction.create t.nodeId t.transId t.timestamp with
    sizeBytes := p.config.transactionSizeBytes }, rfl, ?_⟩
  simp only [Bool.not_true, Bool.false_eq_true, if_false]
  cases hr : p.role <;>
    refine ⟨rfl, rfl, ?_, ?_, ?_, rfl, rfl, ?_⟩ <;>
    simp [Role.executes, RunningMean.fold, hr]

theorem Admits.counted (h : Admits p fresh q) (hp : p.Counted) (hid : p.holds fresh.id = false) :
    q.Counted := by
  have hnone := holds_eq_false_iff.mp hid
  obtain ⟨hcount, hvalidated⟩ := insert_absent hnone h.held
  rw [h.unmarked] at hvalidated
  refine ⟨h.held ▸ hp.keyed.insert rfl, ?_, fun t ht => ?_, fun id => ?_, ?_, fun hr => ?_, ?_,
    fun hr => ?_⟩
  · rw [h.executed]
    split
    · rw [List.map_append, List.nodup_append]
      refine ⟨hp.distinct, List.nodup_singleton _, fun a ha b hb hab => ?_⟩
      rw [hab, List.mem_singleton.mp hb] at ha
      exact Bool.noConfusion (hid.symm.trans ((hp.performed _).mp ha).2)
    · rw [List.append_nil]
      exact hp.distinct
  · rw [h.executed] at ht
    rw [h.node]
    rcases List.mem_append.mp ht with ht | ht
    · exact hp.stamped t ht
    · split at ht
      · rw [List.mem_singleton.mp ht]
        rfl
      · exact absurd ht List.not_mem_nil
  · rw [h.executed, h.role, holds_insert_iff h.held, List.map_append, List.mem_append,
      hp.performed]
    cases p.role.executes <;> simp [Transaction.setExecution, Transaction.id]
  · rw [h.endorsement, h.executed, hp.endorsement, List.length_append, UInt64.ofNat_add]
    split <;> rfl
  · rw [h.role] at hr
    rw [h.ordering, if_pos hr, hp.ordering hr, hcount, UInt64.ofNat_add]
    rfl
  · rw [h.validation, hp.validation, hvalidated]
    rfl
  · rw [h.role] at hr
    rw [hvalidated, hp.unmarked hr]
    rfl

theorem request_counted (hp : p.Counted) (t : Transaction) (now : Time) :
    (p.request t now).2.Counted := by
  cases hrole : p.role.acceptsRequests with
  | false =>
    rw [request_ignored hrole]
    exact hp
  | true =>
    cases hheld : p.holds t.id with
    | true =>
      rw [request_held hrole hheld]
      exact hp
    | false =>
      obtain ⟨fresh, hid, hadmits⟩ := request_admits hrole hheld now
      exact hadmits.counted hp (hid ▸ hheld)

-- ---------------------------------------------------------------------------
-- Other calls
-- ---------------------------------------------------------------------------

/-- Nothing is executed, and where it would be nothing is taken in. -/
theorem Counted.retained (hp : p.Counted) (hkeyed : q.held.Keyed Transaction.id)
    (hnode : q.node = p.node) (hrole : q.role = p.role) (hexecuted : q.executed = p.executed)
    (hendorsement : q.endorsement = p.endorsement)
    (hholds : p.role.executes = true → q.holds = p.holds)
    (hordering : p.role = .order → q.ordering.count = UInt64.ofNat q.heldCount)
    (hvalidation : q.validation.count = UInt64.ofNat q.validatedCount)
    (hunmarked : p.role.validates = false → q.validatedCount = 0) : q.Counted where
  keyed := hkeyed
  distinct := by
    rw [hexecuted]
    exact hp.distinct
  stamped t ht := by
    rw [hexecuted] at ht
    exact hnode ▸ hp.stamped t ht
  performed id := by
    rw [hexecuted, hrole, hp.performed]
    exact and_congr_right fun h => by rw [hholds h]
  endorsement := by
    rw [hendorsement, hexecuted]
    exact hp.endorsement
  ordering h := hordering (hrole ▸ h)
  validation := hvalidation
  unmarked h := hunmarked (hrole ▸ h)

theorem reply_counted (hp : p.Counted) (t : Transaction) : (p.reply t).2.Counted := by
  unfold reply
  dsimp only
  split
  · exact hp
  · split
    · exact hp
    · exact hp.retained hp.keyed rfl rfl rfl rfl (fun _ => rfl) hp.ordering hp.validation
        hp.unmarked

/-- A node that creates transactions validates none, and is no order node. -/
theorem create_counted (hp : p.Counted) (hrole : p.role.originates = true) (now : Time) :
    (p.create now).2.Counted := by
  have hclient : p.role = .client := by simpa [Role.originates] using hrole
  have hzero : p.validatedCount = 0 := hp.unmarked (by rw [hclient]; rfl)
  have hheld : (p.create now).2.held = p.held.insert (p.create now).1.id (p.create now).1 := rfl
  have hcount : (p.create now).2.validatedCount = 0 := by
    cases hid : p.get? (p.create now).1.id with
    | none => exact (insert_absent hid hheld).2.trans hzero
    | some held =>
      have hsum : _ + held.validated.toNat = p.validatedCount + 0 := (insert_present hid hheld).2
      omega
  refine hp.retained (hp.keyed.insert rfl) rfl rfl rfl rfl (fun hr => ?_)
    (fun hr => nomatch hclient.symm.trans hr) ?_ fun _ => hcount
  · rw [hclient] at hr
    exact nomatch hr
  rw [hcount, ← hzero]
  exact hp.validation

theorem validate_counted (hp : p.Counted) (hrole : p.role.validates = true) (id : TransactionId)
    (now : Time) : (p.validate id now).2.Counted := by
  have hkeyed := validate_keyed hp.keyed id now
  revert hkeyed
  unfold validate
  split
  · exact fun _ => hp
  · rename_i held hid
    split
    · exact fun _ => hp
    · rename_i hunmarked
      intro hkeyed
      obtain ⟨hcount, hvalidated⟩ := insert_present (q := { p with
        held := p.held.insert id held.markValidated
        validation := p.validation.fold (now - held.timestamp) }) hid rfl
      rw [Bool.eq_false_iff.mpr hunmarked] at hvalidated
      refine hp.retained hkeyed rfl rfl rfl rfl (fun _ => insert_holds hid _) (fun hr => ?_) ?_
        fun hr => ?_
      · rw [hcount]
        exact hp.ordering hr
      · rw [show validatedCount _ = _ from hvalidated, UInt64.ofNat_add]
        exact congrArg (· + 1) hp.validation
      · exact Bool.noConfusion (hr.symm.trans hrole)

theorem validateAll_counted (hp : p.Counted) (hrole : p.role.validates = true) (now : Time)
    (ts : List Transaction) : (p.validateAll now ts).2.Counted := by
  induction ts generalizing p with
  | nil => exact hp
  | cons t ts ih =>
    rw [validateAll_cons]
    refine ih (validate_counted hp hrole t.id now) ?_
    rw [validate_role]
    exact hrole

theorem validateFromBlock_counted (hp : p.Counted) (b : Block) (now : Time) :
    (p.validateFromBlock b now).2.Counted := by
  unfold validateFromBlock
  split
  · rename_i hrole
    exact validateAll_counted hp hrole now _
  · exact hp

theorem after_counted {call : Call} (hp : p.Counted) (hcall : call.Suits p.role) :
    (p.after call).Counted := by
  cases call with
  | request t now => exact request_counted hp t now
  | reply t => exact reply_counted hp t
  | create now => exact create_counted hp hcall now
  | validate b now => exact validateFromBlock_counted hp b now

-- ---------------------------------------------------------------------------
-- What calls leave as it is
-- ---------------------------------------------------------------------------

theorem request_eq (p : Pool) (t : Transaction) (now : Time) :
    ∃ held executed endorsement ordering,
      (p.request t now).2 = { p with held, executed, endorsement, ordering } := by
  unfold request
  split
  · exact ⟨_, _, _, _, rfl⟩
  · split
    · exact ⟨_, _, _, _, rfl⟩
    · dsimp only
      split
      · exact ⟨_, _, _, _, rfl⟩
      · split
        · exact ⟨_, _, _, _, rfl⟩
        · exact ⟨_, _, _, _, rfl⟩

theorem reply_eq (p : Pool) (t : Transaction) : ∃ replies, (p.reply t).2 = { p with replies } := by
  unfold reply
  dsimp only
  split
  · exact ⟨_, rfl⟩
  · split
    · exact ⟨_, rfl⟩
    · exact ⟨_, rfl⟩

theorem validate_eq (p : Pool) (id : TransactionId) (now : Time) :
    ∃ held validation, (p.validate id now).2 = { p with held, validation } := by
  unfold validate
  split
  · exact ⟨_, _, rfl⟩
  · split
    · exact ⟨_, _, rfl⟩
    · exact ⟨_, _, rfl⟩

theorem validateAll_eq (p : Pool) (now : Time) (ts : List Transaction) :
    ∃ held validation, (p.validateAll now ts).2 = { p with held, validation } := by
  induction ts generalizing p with
  | nil => exact ⟨_, _, rfl⟩
  | cons t ts ih =>
    obtain ⟨_, _, hfirst⟩ := p.validate_eq t.id now
    obtain ⟨held, validation, hrest⟩ := ih (p.validate t.id now).2
    refine ⟨held, validation, ?_⟩
    rw [validateAll_cons, hrest, hfirst]

theorem validateFromBlock_eq (p : Pool) (b : Block) (now : Time) :
    ∃ held validation, (p.validateFromBlock b now).2 = { p with held, validation } := by
  unfold validateFromBlock
  split
  · exact p.validateAll_eq now _
  · exact ⟨_, _, rfl⟩

/-- Only creating moves the numbers on. -/
theorem after_numbers (p : Pool) (call : Call) :
    (p.after call).node = p.node ∧ (p.after call).role = p.role ∧
      (p.after call).nextNumber = p.nextNumber + UInt64.ofNat (creations [call]) ∧
      (p.after call).generated = p.generated + UInt64.ofNat (creations [call]) := by
  have hkept : p.nextNumber = p.nextNumber + UInt64.ofNat 0 ∧
      p.generated = p.generated + UInt64.ofNat 0 :=
    ⟨(UInt64.add_zero _).symm, (UInt64.add_zero _).symm⟩
  cases call with
  | request t now =>
    obtain ⟨_, _, _, _, h⟩ := p.request_eq t now
    rw [after, h]
    exact ⟨rfl, rfl, hkept⟩
  | reply t =>
    obtain ⟨_, h⟩ := p.reply_eq t
    rw [after, h]
    exact ⟨rfl, rfl, hkept⟩
  | create now => exact ⟨rfl, rfl, rfl, rfl⟩
  | validate b now =>
    obtain ⟨_, _, h⟩ := p.validateFromBlock_eq b now
    rw [after, h]
    exact ⟨rfl, rfl, hkept⟩

theorem creations_cons (call : Call) (calls : List Call) :
    creations (call :: calls) = creations [call] + creations calls := by
  rw [creations, ← List.singleton_append, List.countP_append]
  rfl

theorem createdIds_eq (p : Pool) (calls : List Call) :
    p.createdIds calls = (p.face.created (creations calls)).map (·.1) := by
  induction calls generalizing p with
  | nil => rfl
  | cons call calls ih =>
    obtain ⟨hnode, -, hnext, -⟩ := p.after_numbers call
    have hsplit : p.face.created (creations [call] + creations calls) =
        p.face.created (creations [call]) ++ (p.after call).face.created (creations calls) :=
      Face.created_add hnode hnext _
    rw [creations_cons, hsplit, List.map_append, ← ih]
    cases call with
    | create now =>
      refine congrArg (· :: _) ?_
      show (⟨p.node, p.nextNumber⟩ : TransactionId) = ⟨p.node, p.nextNumber + UInt64.ofNat 0⟩
      rw [show UInt64.ofNat 0 = 0 from rfl, UInt64.add_zero]
    | request | reply | validate => rfl

-- ---------------------------------------------------------------------------
-- What is held and recorded
-- ---------------------------------------------------------------------------

section
variable {call : Call} {i : TransactionId}

theorem after_holds (hrole : p.role.acceptsRequests = true) (hcall : call.Suits p.role) :
    (p.after call).holds i = true ↔ p.holds i = true ∨ i ∈ offered [call] := by
  have hsame {q : Pool} (h : q.face = p.face) : q.holds i = true ↔ p.holds i = true ∨ i ∈ [] := by
    rw [show q.holds = p.holds from congrArg Face.holds h, or_iff_left List.not_mem_nil]
  cases call with
  | request t now =>
    show _ ↔ _ ∨ i ∈ [t.id]
    rw [List.mem_singleton]
    cases hheld : p.holds t.id with
    | true =>
      rw [after, request_held hrole hheld]
      exact (or_iff_left_of_imp fun h => h ▸ hheld).symm
    | false =>
      have hface := (request_fresh hrole hheld now 0).1
      have hholds : (p.request t now).2.holds i = (p.holds i || (t.id == i || false)) :=
        congrFun (congrArg Face.holds hface) i
      rw [after, hholds, Bool.or_false, Bool.or_eq_true, beq_iff_eq, eq_comm (a := i)]
  | reply t => exact hsame (p.reply_face t)
  | create now =>
    have hclient : p.role = .client := by simpa [Call.Suits, Role.originates] using hcall
    rw [hclient] at hrole
    exact nomatch hrole
  | validate b now => exact hsame (p.validateFromBlock_face b now)

/-- A report is recorded unless it is of one's own transaction. -/
theorem reply_hasReply (p : Pool) (t : Transaction) (executor : NodeId) :
    (p.reply t).2.hasReply i executor = true ↔ p.hasReply i executor = true ∨
      i.node ≠ p.node ∧ (i, executor) = (t.id, t.execution) := by
  unfold reply
  dsimp only
  split
  · rename_i hheld
    refine (or_iff_left_of_imp ?_).symm
    rintro ⟨-, he⟩
    obtain ⟨rfl, rfl⟩ := Prod.mk.inj he
    exact hheld
  · split
    · rename_i hown
      refine (or_iff_left_of_imp ?_).symm
      rintro ⟨hnode, he⟩
      rw [(Prod.mk.inj he).1] at hnode
      exact absurd hown hnode
    · rename_i hown
      rw [hasReply, Table.contains, Table.get?_insert]
      by_cases he : (t.id, t.execution) = (i, executor)
      · obtain ⟨rfl, rfl⟩ := Prod.mk.inj he
        rw [if_pos rfl]
        exact ⟨fun _ => .inr ⟨hown, rfl⟩, fun _ => rfl⟩
      · rw [if_neg he]
        exact (or_iff_left_of_imp fun h => absurd h.2.symm he).symm

theorem after_hasReply (p : Pool) (call : Call) (executor : NodeId) :
    (p.after call).hasReply i executor = true ↔ p.hasReply i executor = true ∨
      i.node ≠ p.node ∧ (i, executor) ∈ reported [call] := by
  have hsame {q : Pool} (h : q.replies = p.replies) : q.hasReply i executor = true ↔
      p.hasReply i executor = true ∨ i.node ≠ p.node ∧ (i, executor) ∈ [] := by
    rw [hasReply, h, or_iff_left fun hr => List.not_mem_nil hr.2]
    rfl
  cases call with
  | request t now =>
    obtain ⟨_, _, _, _, h⟩ := p.request_eq t now
    rw [after, h]
    exact hsame rfl
  | reply t =>
    show _ ↔ _ ∨ _ ∧ _ ∈ [executionOf t]
    rw [List.mem_singleton]
    exact p.reply_hasReply t executor
  | create now => exact hsame rfl
  | validate b now =>
    obtain ⟨_, _, h⟩ := p.validateFromBlock_eq b now
    rw [after, h]
    exact hsame rfl

theorem after_replies (h : p.replies.Keyed executionOf) (call : Call) :
    (p.after call).replies.Keyed executionOf := by
  cases call with
  | request t now =>
    obtain ⟨_, _, _, _, heq⟩ := p.request_eq t now
    rw [after, heq]
    exact h
  | reply t =>
    unfold after reply
    dsimp only
    split
    · exact h
    · split
      · exact h
      · exact h.insert rfl
  | create now => exact h
  | validate b now =>
    obtain ⟨_, _, heq⟩ := p.validateFromBlock_eq b now
    rw [after, heq]
    exact h

theorem validatedCount_pos (h : p.hasValidated i = true) : 0 < p.validatedCount := by
  obtain ⟨t, ht, hmarked⟩ := (Option.any_eq_true _ _).mp h
  exact List.countP_pos_iff.mpr ⟨t, List.mem_map_of_mem (Table.mem_of_find ht), hmarked⟩

/-- What is held stays held, and what is validated stays validated. -/
theorem after_lasting (hp : p.Counted) (hcall : call.Suits p.role) (i : TransactionId) :
    (p.holds i = true → (p.after call).holds i = true) ∧
      (p.hasValidated i = true → (p.after call).hasValidated i = true) := by
  cases call with
  | request t now =>
    have htaken := p.request_taken t now
    exact ⟨htaken.holds, (htaken.hasValidated i).trans⟩
  | reply t =>
    have htaken : Taken [] p (p.reply t).2 := p.reply_taken t
    exact ⟨htaken.holds, (htaken.hasValidated i).trans⟩
  | create now =>
    have hclient : p.role = .client := by simpa [Call.Suits, Role.originates] using hcall
    refine ⟨fun h => (holds_insert_iff rfl).mpr (.inl h), fun h => absurd (validatedCount_pos h) ?_⟩
    rw [hp.unmarked (by rw [hclient]; rfl)]
    exact Nat.lt_irrefl 0
  | validate b now =>
    cases hrole : p.role.validates with
    | true =>
      have hmarked := validateFromBlock_marked hrole b now
      refine ⟨(hmarked.holds i).trans, fun h => (hmarked.hasValidated i).trans ?_⟩
      rw [h, Bool.true_or]
    | false =>
      rw [after, validateFromBlock, hrole]
      exact ⟨id, id⟩

end

-- ---------------------------------------------------------------------------
-- Every sequence of calls
-- ---------------------------------------------------------------------------

section
variable {role : Role} {calls : List Call} {i : TransactionId}

theorem afterAll_numbers (p : Pool) (calls : List Call) :
    (p.afterAll calls).node = p.node ∧ (p.afterAll calls).role = p.role ∧
      (p.afterAll calls).generated = p.generated + UInt64.ofNat (creations calls) := by
  induction calls generalizing p with
  | nil => exact ⟨rfl, rfl, (UInt64.add_zero _).symm⟩
  | cons call calls ih =>
    obtain ⟨hnode, hrole, -, hgenerated⟩ := p.after_numbers call
    obtain ⟨hnode', hrole', hgenerated'⟩ := ih (p.after call)
    refine ⟨hnode'.trans hnode, hrole'.trans hrole, hgenerated'.trans ?_⟩
    rw [hgenerated, creations_cons call calls, UInt64.ofNat_add, UInt64.add_assoc]

theorem afterAll_counted (hp : p.Counted) (hcalls : ∀ call ∈ calls, call.Suits p.role) :
    (p.afterAll calls).Counted := by
  induction calls generalizing p with
  | nil => exact hp
  | cons call calls ih =>
    obtain ⟨hcall, hrest⟩ := List.forall_mem_cons.mp hcalls
    refine ih (after_counted hp hcall) ?_
    rwa [(p.after_numbers call).2.1]

theorem afterAll_lasting (hp : p.Counted) (hcalls : ∀ call ∈ calls, call.Suits p.role)
    (i : TransactionId) : (p.holds i = true → (p.afterAll calls).holds i = true) ∧
      (p.hasValidated i = true → (p.afterAll calls).hasValidated i = true) := by
  induction calls generalizing p with
  | nil => exact ⟨id, id⟩
  | cons call calls ih =>
    obtain ⟨hcall, hrest⟩ := List.forall_mem_cons.mp hcalls
    obtain ⟨hholds, hmarked⟩ := after_lasting hp hcall i
    have hlater := ih (after_counted hp hcall) ((p.after_numbers call).2.1 ▸ hrest)
    exact ⟨hlater.1 ∘ hholds, hlater.2 ∘ hmarked⟩

theorem afterAll_holds (hrole : p.role.acceptsRequests = true)
    (hcalls : ∀ call ∈ calls, call.Suits p.role) :
    (p.afterAll calls).holds i = true ↔ p.holds i = true ∨ i ∈ offered calls := by
  induction calls generalizing p with
  | nil => exact (or_iff_left List.not_mem_nil).symm
  | cons call calls ih =>
    obtain ⟨hcall, hrest⟩ := List.forall_mem_cons.mp hcalls
    have hkept : (p.after call).role = p.role := (p.after_numbers call).2.1
    have hsplit : offered (call :: calls) = offered [call] ++ offered calls :=
      List.filterMap_append (l := [call])
    rw [hsplit, List.mem_append, ← or_assoc, ← after_holds hrole hcall]
    exact ih (hkept ▸ hrole) (hkept ▸ hrest)

theorem afterAll_hasReply (p : Pool) (calls : List Call) (executor : NodeId) :
    (p.afterAll calls).hasReply i executor = true ↔ p.hasReply i executor = true ∨
      i.node ≠ p.node ∧ (i, executor) ∈ reported calls := by
  induction calls generalizing p with
  | nil => exact (or_iff_left fun h => List.not_mem_nil h.2).symm
  | cons call calls ih =>
    have hsplit : reported (call :: calls) = reported [call] ++ reported calls :=
      List.filterMap_append (l := [call])
    rw [hsplit, List.mem_append, and_or_left, ← or_assoc, ← after_hasReply,
      ← (p.after_numbers call).1]
    exact ih (p.after call)

theorem afterAll_replies (h : p.replies.Keyed executionOf) (calls : List Call) :
    (p.afterAll calls).replies.Keyed executionOf := by
  induction calls generalizing p with
  | nil => exact h
  | cons call calls ih => exact ih (after_replies h call)

end

/-- What a pool has come to after calls on an empty one. -/
structure Tallied (start : Pool) (calls : List Call) (p : Pool) : Prop where
  ignored : start.role.acceptsRequests = false → ∀ t now, p.request t now = (.ignored, p)
  first : start.role.acceptsRequests = true → ∀ (t : Transaction) (now : Time),
    t.id ∉ offered calls → ∃ fresh : Transaction, fresh.entry = (t.id, 0) ∧ (p.request t now).1 =
      if start.role.executes then .executed (fresh.setExecution start.node) else .forward fresh
  again : start.role.acceptsRequests = true → ∀ (t : Transaction) (now : Time),
    t.id ∈ offered calls → p.request t now = (.alreadyHeld, p)
  lasting : ∀ more : List Call, (∀ call ∈ more, call.Suits start.role) → ∀ id,
    (p.holds id = true → (p.afterAll more).holds id = true) ∧
      (p.hasValidated id = true → (p.afterAll more).hasValidated id = true)
  held : p.held.Keyed Transaction.id
  admitted : start.role.acceptsRequests = true → ∀ id, p.holds id = true ↔ id ∈ offered calls
  marks : start.role.validates = true → ∀ (b : Block) (now : Time) id,
    (p.validateFromBlock b now).2.hasValidated id =
      (p.hasValidated id || p.holds id && b.carries id)
  performed : ∀ id, id ∈ p.executed.map Transaction.id ↔
    start.role.executes = true ∧ p.holds id = true
  executed : (p.executed.map Transaction.id).Nodup ∧
    ∀ t ∈ p.executed, p.holds t.id = true ∧ t.execution = start.node
  endorsement : p.endorsement.count = .ofNat p.executed.length
  ordering : start.role = .order → p.ordering.count = .ofNat p.heldCount
  validation : p.validation.count = .ofNat p.validatedCount
  created : start.createdIds calls =
    (List.range (creations calls)).map fun k => ⟨start.node, .ofNat (k + 1)⟩
  /-- Numbers come round once all words are used. -/
  unrepeated : creations calls ≤ UInt64.size → (start.createdIds calls).Nodup
  generated : p.generated = .ofNat (start.createdIds calls).length
  recorded : ∀ id executor, p.hasReply id executor = true ↔
    id.node ≠ start.node ∧ (id, executor) ∈ reported calls
  replies : p.replies.Keyed executionOf

/-- Whatever is asked of a pool in its role, each transaction is admitted, executed
and validated once, and counted once. -/
theorem afterAll_tallied (node : NodeId) (role : Role) (config : TransactionConfig)
    (calls : List Call) (hcalls : ∀ call ∈ calls, call.Suits role) :
    Tallied (empty node role config) calls ((empty node role config).afterAll calls) := by
  have hempty := empty_counted node role config
  have hcounted := afterAll_counted hempty hcalls
  obtain ⟨hnode, hrole, hgenerated⟩ := (empty node role config).afterAll_numbers calls
  have hids := (empty node role config).createdIds_eq calls
  generalize hp : (empty node role config).afterAll calls = p at *
  have hoffered (haccepts : role.acceptsRequests = true) (i : TransactionId) :
      p.holds i = true ↔ i ∈ offered calls := by
    rw [← hp, afterAll_holds haccepts hcalls]
    exact or_iff_right Bool.false_ne_true
  refine
    { ignored := fun h => request_ignored (hrole ▸ h)
      first := fun h t now hnew => ?_
      again := fun h t now hold => request_held (hrole ▸ h) ((hoffered h t.id).mpr hold) now
      lasting := fun more hmore => afterAll_lasting hcounted (hrole ▸ hmore)
      held := hcounted.keyed
      admitted := hoffered
      marks := fun h b now id => ?_
      performed := hrole ▸ hcounted.performed
      executed := ⟨hcounted.distinct, fun t ht => ⟨?_, hnode ▸ hcounted.stamped t ht⟩⟩
      endorsement := hcounted.endorsement
      ordering := fun h => hcounted.ordering (hrole.trans h)
      validation := hcounted.validation
      created := ?_
      unrepeated := fun h => hids ▸ Face.created_distinct _ h
      generated := ?_
      recorded := fun id executor => ?_
      replies := hp ▸ afterAll_replies Table.empty_keyed calls }
  · have hnot : p.holds t.id = false :=
      Bool.eq_false_iff.mpr fun hholds => hnew ((hoffered h t.id).mp hholds)
    obtain ⟨fresh, hentry, houtcome⟩ := (request_fresh (hrole ▸ h) hnot now 0).2
    rw [hrole, hnode] at houtcome
    exact ⟨fresh, hentry, houtcome⟩
  · rw [(validateFromBlock_marked (hrole ▸ h) b now).hasValidated, List.any_cons, List.any_nil,
      Bool.or_false]
  · exact ((hcounted.performed t.id).mp (List.mem_map_of_mem ht)).2
  · rw [hids, Face.created, List.map_map]
    refine List.map_congr_left fun k _ => congrArg (TransactionId.mk node) ?_
    show 1 + UInt64.ofNat k = UInt64.ofNat (k + 1)
    rw [UInt64.ofNat_add, UInt64.add_comm]
    rfl
  · rw [hgenerated, hids, Face.created, List.length_map, List.length_map, List.length_range]
    exact UInt64.zero_add _
  · rw [← hp, afterAll_hasReply]
    exact or_iff_right Bool.false_ne_true

/-- A block that carries a transaction twice marks it once, and so does a second
block; of the reports, a repeated one and one of an own transaction do not count. -/
theorem afterAll_tallied_order :
    let tx (node : NodeId) (number : UInt64) := Transaction.create node number 1.0
    let block : Block := { Block.genesis with transactions := [tx 3 9, tx 8 8, tx 3 9] }
    let calls : List Call := [
      .request (tx 3 9) 1.5, .request (tx 3 9) 2.0, .request (tx 4 1) 2.0,
      .validate block 4.0, .validate block 9.0,
      .reply ((tx 5 1).setExecution 6), .reply ((tx 5 1).setExecution 6),
      .reply ((tx 2 1).setExecution 6)]
    let p := (empty 2 .order .usual).afterAll calls
    (∀ call ∈ calls, call.Suits .order) ∧ Tallied (empty 2 .order .usual) calls p ∧
      p.heldCount = 2 ∧ p.ordering.count = 2 ∧ p.validation.count = 1 ∧ p.replyCount = 1 := by
  intro tx block calls p
  have hcalls : ∀ call ∈ calls, call.Suits .order := by simp [calls, Call.Suits]
  refine ⟨hcalls, afterAll_tallied 2 .order .usual calls hcalls, ?_⟩
  clear hcalls
  decide +kernel +revert

end Pool

end BlockGossip
