import BlockGossip.Proofs.Session.Budget
import BlockGossip.Proofs.Session.Sends
import BlockGossip.Proofs.Session.Timers
import BlockGossip.Proofs.Session.Watching

/-!
# What a step of a session costs

A session affords what it does with a message from its budget and the message's
(`onEnvelope_affords`), and what it does when a timer fires from less than its
budget (`handle_fired_spends`). So nothing that it does is for free.
-/

namespace BlockGossip

-- ---------------------------------------------------------------------------
-- Messages
-- ---------------------------------------------------------------------------

namespace Envelope

variable {e e' : Envelope}

/-- The chances that may come of the message, at its receiver and in answers. -/
def chances (e : Envelope) : ℕ :=
  match e.kind? with
  | some .inv => 2 * (Session.parseKeys e.inv).length
  | some .getHeaders => (Session.parseKeys e.blockKeys).length
  | some .headers => e.blockRecords.length
  | _ => 0

/-- The frames that answer the message and ask for nothing themselves. -/
def replies (e : Envelope) : ℕ :=
  match e.kind? with
  | some .getHeaders | some .getData => 1
  | _ => 0

def budget (e : Envelope) : Budget := .of 0 e.chances e.replies

theorem reread?_budget (h : e.reread? = some e') : e'.budget = e.budget := by
  obtain ⟨hinv, hkeys, hrecords⟩ := reread?_items h
  simp only [budget, chances, replies, reread?_kind h, hinv, hkeys, hrecords]

end Envelope

/-- The budget of a frame on its way: what its messages are worth, and one unit. -/
def frameBudget (frame : Bytes) : Budget :=
  .of 0 0 1 + ((pullAll frame).1.map Envelope.budget).sum

theorem frameBudget_encode {e : Envelope} {frame : Bytes} (h : e.encode = .ok frame) :
    frameBudget frame ≤ .of 0 0 1 + e.budget := by
  rw [frameBudget, Envelope.pullAll_encode h]
  cases hread : e.reread? with
  | none => exact add_le_add_right (Budget.zero_le _) _
  | some e' =>
    simp only [Option.toList_some, List.map_cons, List.map_nil, List.sum_cons, List.sum_nil,
      add_zero, Envelope.reread?_budget hread, le_refl]

def Action.budget : Action → Budget
  | .send _ _ frame _ => frameBudget frame
  | _ => 0

/-- What the frames that are sent are worth. -/
def spent (actions : List Action) : Budget := (actions.map Action.budget).sum

@[simp] theorem spent_nil : spent [] = 0 := rfl

@[simp] theorem spent_append (actions more : List Action) :
    spent (actions ++ more) = spent actions + spent more := by
  simp [spent]

theorem spent_of_silent {actions : List Action} (h : Sends [] actions) : spent actions = 0 := by
  refine List.sum_eq_zero fun x hx => ?_
  obtain ⟨a, ha, rfl⟩ := List.mem_map.mp hx
  cases a with
  | send receiver kind frame bytes => exact absurd (h _ ha kind rfl) List.not_mem_nil
  | setTimer => rfl
  | cancelTimer => rfl

/-- No frame is worth a block. -/
theorem spent_blockless (actions : List Action) : (spent actions).Blockless := by
  refine Budget.Blockless.sum fun x hx => ?_
  obtain ⟨a, -, rfl⟩ := List.mem_map.mp hx
  cases a with
  | send receiver kind frame bytes =>
    have hmessages : ((pullAll frame).1.map Envelope.budget).sum.Blockless :=
      Budget.Blockless.sum fun y hy => by
        obtain ⟨e, -, rfl⟩ := List.mem_map.mp hy
        exact ⟨_, _, rfl⟩
    obtain ⟨chances, work, hsum⟩ := hmessages
    exact ⟨_, _, by rw [Action.budget, frameBudget, hsum, Budget.of_add]⟩
  | setTimer => exact ⟨0, 0, rfl⟩
  | cancelTimer => exact ⟨0, 0, rfl⟩

namespace Session

variable {s t : Session} {id : BlockId} {ids : List BlockId} {peer sender : NodeId}
  {e : Envelope} {timer : TimerId} {gift : Budget} {o : Outcome Session}

theorem spent_sendActions (peer : NodeId) (e : Envelope) (bytes : UInt64) :
    spent (sendActions [peer] e bytes) ≤ .of 0 0 1 + e.budget := by
  unfold sendActions
  split
  · rename_i kind frame hk hencode
    simpa [spent, Action.budget] using frameBudget_encode hencode
  · exact Budget.zero_le _

-- ---------------------------------------------------------------------------
-- Sessions
-- ---------------------------------------------------------------------------

/-- What may still become of a block: it comes, and its validation does. -/
def awaits (s : Session) (id : BlockId) : ℕ :=
  (if s.isKnown id then 0 else 2) + if s.staging.isReceived id then 1 else 0

noncomputable def awaited (s : Session) : ℕ := ∑ id, s.awaits id

theorem awaited_lt (id : BlockId) (h : ∀ i, t.awaits i ≤ s.awaits i)
    (hid : t.awaits id < s.awaits id) : t.awaited < s.awaited :=
  Finset.sum_lt_sum (fun i _ => h i) ⟨id, Finset.mem_univ id, hid⟩

noncomputable def budget (s : Session) : Budget :=
  .of s.awaited (s.inventory.total InventoryEntry.chances) (s.inventory.total InventoryEntry.work)

/-- A step affords what it does by a gift. -/
def Affords (s : Session) (gift : Budget) (o : Outcome Session) : Prop :=
  o.1.budget + spent o.2 ≤ s.budget + gift

theorem Asking.awaited (h : Asking s t) : t.awaited = s.awaited := by
  simp only [Session.awaited, awaits, h.isKnown, h.isReceived]

theorem Asking.budget (h : Asking s t) :
    t.budget = .of s.awaited (t.inventory.total InventoryEntry.chances)
      (t.inventory.total InventoryEntry.work) := by
  rw [Session.budget, h.awaited]

theorem budget_of_core (h : t.core = s.core) : t.budget = s.budget := by
  have hi : t.inventory = s.inventory := congrArg Core.inventory h
  rw [(Asking.of_core h).budget, hi]
  rfl

/-- Where the core stays, only what is sent has to be paid for. -/
theorem affords_of_core (hcore : o.1.core = s.core) (h : spent o.2 ≤ gift) : Affords s gift o := by
  rw [Affords, budget_of_core hcore]
  exact add_le_add_right h _

theorem affords_of_silent (hcore : t.core = s.core) : Affords s gift (t, []) :=
  affords_of_core hcore (Budget.zero_le gift)

namespace Affords

theorem of_core (hcore : t.core = s.core) (h : Affords t gift o) : Affords s gift o := by
  rwa [Affords, ← budget_of_core hcore]

theorem mono {more : Budget} (h : Affords s gift o) (hle : gift ≤ more) : Affords s more o :=
  le_trans h (add_le_add_right hle _)

end Affords

/-- A sequence of steps affords what it does by what each step is given. -/
theorem foldActions_affords {step : Session → α → Outcome Session} {I : Session → Prop}
    {gift : α → Budget} {xs : List α}
    (hstep : ∀ s, ∀ x ∈ xs, I s → I (step s x).1 ∧ Affords s (gift x) (step s x)) (hs : I s) :
    Affords s (xs.map gift).sum (foldActions step s xs) := by
  induction xs generalizing s with
  | nil => exact affords_of_silent rfl
  | cons x xs ih =>
    obtain ⟨hx, hfirst⟩ := hstep s x (List.mem_cons_self ..) hs
    have hrest := ih (fun s y hy => hstep s y (List.mem_cons_of_mem _ hy)) hx
    rw [foldActions_cons]
    unfold Affords at hfirst hrest ⊢
    rw [spent_append, List.map_cons, List.sum_cons]
    calc (foldActions step (step s x).1 xs).1.budget +
          (spent (step s x).2 + spent (foldActions step (step s x).1 xs).2)
        = (foldActions step (step s x).1 xs).1.budget +
            spent (foldActions step (step s x).1 xs).2 + spent (step s x).2 := by ac_rfl
      _ ≤ (step s x).1.budget + (xs.map gift).sum + spent (step s x).2 :=
        add_le_add_left hrest _
      _ = (step s x).1.budget + spent (step s x).2 + (xs.map gift).sum := by ac_rfl
      _ ≤ s.budget + gift x + (xs.map gift).sum := add_le_add_left hfirst _
      _ = s.budget + (gift x + (xs.map gift).sum) := by ac_rfl

-- ---------------------------------------------------------------------------
-- Requests
-- ---------------------------------------------------------------------------

theorem startRequests_inventory (s : Session) (peer : NodeId) (ids : List BlockId) :
    (foldActions (startRequest peer) s ids).1.inventory =
      ids.foldl (·.markRequested · peer) s.inventory := by
  induction ids generalizing s with
  | nil => rfl
  | cons id ids ih =>
    rw [foldActions_cons, List.foldl_cons, ih]
    exact congrArg (ids.foldl (·.markRequested · peer)) (armTimer_inventory ..)

theorem getHeaders_budget (ids : List BlockId) :
    (Envelope.getHeaders ids).budget = .of 0 ids.length 1 := by
  have hchances : (Envelope.getHeaders ids).chances = ids.length := by
    show (parseKeys (Envelope.withKeys .getHeaders ids).blockKeys).length = ids.length
    rw [blockKeys_withKeys, parseKeys_keys]
  rw [Envelope.budget, hchances]
  rfl

/-- A request for blocks that are due uses up a chance for each, and sends its
frames. -/
theorem requestBlocks_budget (ht : Strict s ids) (hne : ids ≠ [])
    (hdue : ∀ id ∈ ids, s.inventory.Due id) (peer : NodeId) (full : Bool) :
    ∃ chances work,
      (s.requestBlocks peer ids full).1.budget = .of s.awaited chances work ∧
        chances + ids.length = s.inventory.total InventoryEntry.chances ∧
        work + 5 * ids.length = s.inventory.total InventoryEntry.work ∧
        spent (s.requestBlocks peer ids full).2 ≤
          if full then .of 0 ids.length 4 else .of 0 0 2 := by
  have hi : (s.requestBlocks peer ids full).1.inventory =
      ids.foldl (·.markRequested · peer) s.inventory :=
    (congrArg Core.inventory (requestBlocks_core s peer ids full)).trans
      (startRequests_inventory s peer ids)
  obtain ⟨hchances, hwork⟩ := Inventory.total_markEach hdue ht.pending_distinct peer
  refine ⟨_, _, (requestBlocks_asking s peer ids full).budget, hi ▸ hchances, hi ▸ hwork, ?_⟩
  obtain ⟨-, headersCharge, dataCharge, heq⟩ := requestBlocks_eq ht hne peer full
  have htimers : spent (ids.map fun id =>
      .setTimer (.inventoryTimeout id) s.config.invTimeout) = 0 :=
    spent_of_silent fun a ha kind hk => by
      obtain ⟨id, -, rfl⟩ := List.mem_map.mp ha
      cases hk
  have hdata : spent (sendActions [peer] (Envelope.getData ids) dataCharge) ≤ .of 0 0 2 :=
    spent_sendActions ..
  rw [heq, spent_append, spent_append, htimers, zero_add]
  cases full with
  | false => simpa using hdata
  | true =>
    have hheaders := spent_sendActions peer (Envelope.getHeaders ids) headersCharge
    rw [getHeaders_budget, Budget.of_add] at hheaders
    calc _ ≤ Budget.of (0 + 0) (0 + ids.length) (1 + 1) + .of 0 0 2 := add_le_add hheaders hdata
      _ = .of 0 ids.length 4 := by rw [Budget.of_add]; simp

-- ---------------------------------------------------------------------------
-- Announcements
-- ---------------------------------------------------------------------------

theorem announced_inventory (s : Session) (peer : NodeId) (id : BlockId) :
    (s.announced peer id).2.inventory = (s.inventory.announce id peer).2 :=
  congrArg Core.inventory (announced_core s peer id)

theorem announceAll_inventory (peer : NodeId) (s : Session) (ids : List BlockId) :
    ((announceAll peer s ids).1.inventory, (announceAll peer s ids).2) =
      s.inventory.announceEach s.isKnown peer ids := by
  induction ids generalizing s with
  | nil => rfl
  | cons id ids ih =>
    have hrest := ih (s.announced peer id).2
    rw [announced_inventory, funext (announced_asking s peer id).isKnown] at hrest
    rw [announceAll_cons]
    cases hk : s.isKnown id with
    | true => exact (ih s).trans (Inventory.announceEach_known hk).symm
    | false =>
      rw [Inventory.announceEach_unknown hk, ← hrest, announced_fst]
      cases s.inventory.isTracked id <;> rfl

/-- The blocks that headers announce. -/
def announcing (s : Session) (headers : List Block) : List BlockId :=
  match s.setup.protocol with
  | .standard => []
  | .sendHeaders => headers.map Block.id

theorem announcing_length (s : Session) (headers : List Block) :
    (s.announcing headers).length ≤ headers.length := by
  unfold announcing
  split
  · exact Nat.zero_le _
  · exact (List.length_map _).le

/-- Noting headers is, for the tracker, hearing their announcements. -/
theorem noteHeaders_inventory (peer : NodeId) (s : Session) (headers : List Block) :
    ((noteHeaders peer s headers).1.inventory, (noteHeaders peer s headers).2) =
      s.inventory.announceEach s.isKnown peer (s.announcing headers) := by
  induction headers generalizing s with
  | nil =>
    unfold announcing
    split <;> rfl
  | cons header rest ih =>
    have hasking := noteHeader_asking peer s header
    have hrest := ih (noteHeader peer s header).2
    rw [announcing, hasking.setup, funext hasking.isKnown, noteHeader_eq] at hrest
    rw [noteHeaders_cons, noteHeader_eq]
    cases hk : s.isKnown header.id with
    | true =>
      refine (ih s).trans ?_
      unfold announcing
      cases s.setup.protocol with
      | standard => rfl
      | sendHeaders => exact (Inventory.announceEach_known hk).symm
    | false =>
      rw [announcing]
      cases hp : s.setup.protocol with
      | standard =>
        simp only [hp] at hrest ⊢
        exact hrest
      | sendHeaders =>
        simp only [hp] at hrest ⊢
        have hnoting : (s.notingHeader header).inventory = s.inventory := rfl
        rw [announced_inventory, hnoting] at hrest
        rw [List.map_cons, Inventory.announceEach_unknown hk, ← hrest, announced_fst, hnoting]
        cases s.inventory.isTracked header.id <;> rfl

-- ---------------------------------------------------------------------------
-- Requests for what was announced
-- ---------------------------------------------------------------------------

/-- Announcements pay for the requests that they cause: by two chances each if
headers are requested too, and by one if only the blocks are. -/
theorem affords_announced {announced : List BlockId} (hasking : Asking s t) (ht : Strict t ids)
    (heach : (t.inventory, ids) = s.inventory.announceEach s.isKnown sender announced)
    (peer : NodeId) (full : Bool) :
    Affords s (.of 0 (if full then 2 * announced.length else announced.length) 0)
      (t.requestBlocks peer ids full) := by
  obtain ⟨hinventory, hids⟩ := Prod.mk.inj heach
  have hchances := Inventory.announceEach_chances s.isKnown sender s.inventory announced
  rw [← hinventory] at hchances
  unfold Affords
  by_cases hnil : ids = []
  · have hwork := Inventory.announceEach_work (hids.symm.trans hnil)
    rw [← hinventory] at hwork
    subst hnil
    show t.budget + spent [] ≤ _
    rw [hasking.budget, spent_nil, add_zero, budget, Budget.of_add, Budget.le_iff]
    cases full <;> simp only [Bool.false_eq_true, if_false, if_true] <;> omega
  · have hdue (id : BlockId) (hid : id ∈ ids) : t.inventory.Due id := by
      rw [hinventory]
      exact Inventory.announceEach_due (.inr (hids ▸ hid))
    obtain ⟨chances, work, hbudget, hcount, -, hspent⟩ :=
      requestBlocks_budget ht hnil hdue peer full
    have hsome : 0 < ids.length := List.length_pos_of_ne_nil hnil
    refine (add_le_add_right hspent _).trans ?_
    rw [hbudget, hasking.awaited, budget]
    cases full with
    | false =>
      simp only [Bool.false_eq_true, if_false]
      rw [Budget.of_add, Budget.of_add, Budget.le_iff]
      omega
    | true =>
      have hany : 0 < announced.length := by
        rw [List.length_pos_iff]
        rintro rfl
        exact hnil hids
      simp only [if_true]
      rw [Budget.of_add, Budget.of_add, Budget.le_iff]
      omega

theorem onInv_affords (ht : Strict s []) (hk : e.kind? = some .inv) (sender : NodeId) :
    Affords s e.budget (s.onInv sender e) := by
  have hbudget : e.budget = .of 0 (2 * (parseKeys e.inv).length) 0 := by
    simp [Envelope.budget, Envelope.chances, Envelope.replies, hk]
  unfold onInv
  split
  · exact affords_of_silent rfl
  · have hcore := countReceived_core s .inv (s.charge .inv e.inv.length 0)
    have hs := announceAll_strict (ht.of_core hcore) sender (parseKeys e.inv)
    rw [List.append_nil] at hs
    rw [hbudget]
    exact affords_announced ((Asking.of_core hcore).trans (announceAll_asking ..)) hs
      (announceAll_inventory ..) sender true

theorem onHeaders_affords (ht : Strict s []) (hk : e.kind? = some .headers) (sender : NodeId) :
    Affords s e.budget (s.onHeaders sender e) := by
  have hbudget : e.budget = .of 0 e.blockRecords.length 0 := by
    simp [Envelope.budget, Envelope.chances, Envelope.replies, hk]
  unfold onHeaders
  split
  · exact affords_of_silent rfl
  · have hcore := countReceived_core s .headers (s.charge .headers e.blockRecords.length 0)
    have hs := noteHeaders_strict (ht.of_core hcore) sender e.blockRecords
    rw [List.append_nil] at hs
    refine (affords_announced ((Asking.of_core hcore).trans (noteHeaders_asking ..)) hs
      (noteHeaders_inventory ..) sender false).mono ?_
    rw [hbudget]
    exact Budget.of_le le_rfl (announcing_length ..) le_rfl

-- ---------------------------------------------------------------------------
-- Answers
-- ---------------------------------------------------------------------------

theorem headers_budget (headers : List Block) :
    (Envelope.headers headers).budget = .of 0 headers.length 0 := by
  have hchances : (Envelope.headers headers).chances = headers.length :=
    congrArg List.length (blockRecords_withRecords .headers headers)
  rw [Envelope.budget, hchances]
  rfl

theorem onGetHeaders_affords (hk : e.kind? = some .getHeaders) (sender : NodeId) :
    Affords s e.budget (s.onGetHeaders sender e) := by
  have hbudget : e.budget = .of 0 (parseKeys e.blockKeys).length 1 := by
    simp [Envelope.budget, Envelope.chances, Envelope.replies, hk]
  refine affords_of_core (onGetHeaders_core s sender e) ?_
  unfold onGetHeaders
  simp only
  split
  · exact Budget.zero_le _
  · refine (spent_sendActions ..).trans ?_
    rw [headers_budget, Budget.of_add, hbudget]
    refine Budget.of_le le_rfl ?_ le_rfl
    rw [zero_add, List.length_map]
    exact List.length_filterMap_le ..

theorem onGetData_affords (hk : e.kind? = some .getData) (sender : NodeId) :
    Affords s e.budget (s.onGetData sender e) := by
  have hbudget : e.budget = .of 0 0 1 := by
    simp [Envelope.budget, Envelope.chances, Envelope.replies, hk]
  refine affords_of_core (onGetData_core s sender e) ?_
  unfold onGetData
  simp only
  split
  · exact Budget.zero_le _
  · rw [hbudget]
    exact spent_sendActions ..

-- ---------------------------------------------------------------------------
-- Blocks
-- ---------------------------------------------------------------------------

/-- A block that comes is awaited no longer, but its validation is. -/
theorem awaited_receiveBlock {record : Block} (hk : s.isKnown record.id = false)
    (sender : NodeId) : (receiveBlock sender s record).1.awaited < s.awaited := by
  have hreceived (i : BlockId) : (receiveBlock sender s record).1.staging.isReceived i = true ↔
      record.id = i ∨ s.staging.isReceived i = true := by
    rw [receiveBlock_eq, hk, if_neg Bool.false_ne_true, armTimer_staging]
    exact isReceived_stage_of_unknown (b := record.received sender s.now) hk i
  have hless : (receiveBlock sender s record).1.awaits record.id < s.awaits record.id := by
    obtain ⟨-, hr⟩ := Bool.or_eq_false_iff.mp hk
    simp [awaits, isKnown_receiveBlock, hreceived, hk, hr]
  refine awaited_lt record.id (fun i => ?_) hless
  by_cases hi : record.id = i
  · exact hi ▸ hless.le
  · simp [awaits, isKnown_receiveBlock, hreceived, hi]

theorem receiveBlock_affords (sender : NodeId) (s : Session) (record : Block) :
    Affords s 0 (receiveBlock sender s record) := by
  cases hk : s.isKnown record.id with
  | true =>
    rw [receiveBlock_known hk]
    exact affords_of_silent rfl
  | false =>
    have hless := awaited_receiveBlock hk sender
    rw [Affords, spent_of_silent (receiveBlock_sends sender s record), budget, budget, add_zero,
      add_zero, Budget.le_iff]
    exact .inl hless

theorem onBlock_affords (s : Session) (sender : NodeId) (e : Envelope) :
    Affords s e.budget (s.onBlock sender e) := by
  unfold onBlock
  split
  · exact affords_of_silent rfl
  · have hblocks (t : Session) : Affords t (e.blockRecords.map fun _ => 0).sum
        (foldActions (receiveBlock sender) t e.blockRecords) :=
      foldActions_affords (I := fun _ => True)
        (fun t record _ _ => ⟨trivial, receiveBlock_affords sender t record⟩) trivial
    refine ((hblocks _).of_core (countReceived_core ..)).mono ?_
    rw [List.map_const', List.sum_replicate, nsmul_zero]
    exact Budget.zero_le _

/-- A session affords what it does with a message, unless that is a request for
transactions, which it may pass on. -/
theorem onEnvelope_affords (ht : Strict s []) (he : e.kind? ≠ some .requestTrans)
    (sender : NodeId) : Affords s e.budget (onEnvelope sender s e) := by
  unfold onEnvelope
  split
  · exact affords_of_silent rfl
  · rename_i hk
    exact onInv_affords ht hk sender
  · rename_i hk
    exact onGetHeaders_affords hk sender
  · rename_i hk
    exact onHeaders_affords ht hk sender
  · rename_i hk
    exact onGetData_affords hk sender
  · exact onBlock_affords s sender e
  · rename_i hk
    exact absurd hk he
  · exact affords_of_silent (onReplyTrans_core ..)
  all_goals exact affords_of_silent rfl

-- ---------------------------------------------------------------------------
-- Timers
-- ---------------------------------------------------------------------------

/-- A request whose time ran out is ended or given up, which is worth its work,
or asked for anew, which costs a chance. -/
theorem onInventoryTimeout_spends (ht : Strict s [id]) :
    (s.onInventoryTimeout id).1.budget + spent (s.onInventoryTimeout id).2 < s.budget := by
  have htracked := ht.pending_tracked id (List.mem_singleton_self id)
  have hforgets {t : Session} (hasking : Asking s t)
      (hi : t.inventory = (s.inventory.resolve id).2) : t.budget + spent [] < s.budget := by
    obtain ⟨hchances, hwork⟩ := Inventory.resolve_spends htracked
    rw [spent_nil, add_zero, hasking.budget, hi, budget, Budget.lt_iff]
    omega
  unfold onInventoryTimeout
  split
  · exact hforgets rfl rfl
  · split
    · rename_i inventory heq
      have hstale := Inventory.not_isTracked_of_stale (congrArg Prod.fst heq)
      exact Bool.noConfusion (hstale.symm.trans htracked)
    · rename_i peer inventory heq
      obtain ⟨hdue, hsamechances, hsamework⟩ := Inventory.expire_retry heq
      have hasking : Asking s (countTimeout { s with inventory }) :=
        Asking.trans (t := { s with inventory }) rfl (.of_core (countTimeout_core _))
      obtain ⟨chances, work, hbudget, hchances, hwork, hspent⟩ := requestBlocks_budget
        (s := countTimeout { s with inventory })
        ((retrying_strict ht heq).of_core (countTimeout_core _)) (List.cons_ne_nil id [])
        (fun i hi => List.mem_singleton.mp hi ▸ hdue) peer true
      refine lt_of_le_of_lt (add_le_add_right hspent _) ?_
      have hchances : chances + 1 = inventory.total InventoryEntry.chances := hchances
      have hwork : work + 5 = inventory.total InventoryEntry.work := hwork
      rw [if_pos rfl, hbudget, hasking.awaited, Budget.of_add, budget, Budget.lt_iff,
        List.length_singleton]
      omega
    · rename_i inventory heq
      have hresolve := Inventory.expire_abandoned (congrArg Prod.fst heq)
      rw [heq] at hresolve
      exact hforgets (Asking.trans (t := { s with inventory }) rfl
        (.of_core (countTimeout_core _))) hresolve

/-- A block whose validation has come is awaited no more. -/
theorem awaited_onValidation {P Q : Block → Prop} (ha : Anchored s.ledger s.orphans)
    (hs : Staged P Q s.staging) (hr : s.staging.isReceived id = true) :
    (s.onValidation id).1.awaited < s.awaited := by
  have hknown (i : BlockId) (h : s.isKnown i = true) : (s.onValidation id).1.isKnown i = true :=
    isKnown_onValidation ha hs h id
  refine awaited_lt id (fun i => ?_) ?_
  · unfold awaits
    rw [isReceived_onValidation]
    cases hk : s.isKnown i with
    | true =>
      rw [hknown i hk]
      by_cases hi : id = i <;> simp [hi]
    | false =>
      by_cases hi : id = i <;> split <;> simp [hi]
  · have hk : s.isKnown id = true := isKnown_iff.mpr (.inr hr)
    unfold awaits
    simp [isReceived_onValidation, hknown id hk, hk, hr]

/-- A block that is awaited no more pays for whatever is sent. -/
theorem spends_of_awaited (h : t.awaited < s.awaited) (actions : List Action) :
    t.budget + spent actions < s.budget := by
  obtain ⟨chances, work, hspent⟩ := spent_blockless actions
  rw [hspent, budget, budget, Budget.of_add, Budget.lt_iff]
  exact .inl h

-- ---------------------------------------------------------------------------
-- Events
-- ---------------------------------------------------------------------------

theorem budget_disarm (s : Session) (timer : TimerId) : (s.disarm timer).budget = s.budget := rfl

/-- A timer that fires costs less than the budget, unless it is that of the
next transaction. -/
theorem handle_fired_spends {P Q : Block → Prop} (ht : Strict s [])
    (ha : Anchored s.ledger s.orphans) (hs : Staged P Q s.staging) (hr : s.running = true)
    (htimer : timer ∈ s.armed) (hne : timer ≠ .nextTransaction) :
    (s.handle (.timerFired timer)).1.budget + spent (s.handle (.timerFired timer)).2 <
      s.budget := by
  rw [handle_timerFired hr htimer, ← budget_disarm s timer]
  cases timer with
  | inventoryTimeout id =>
    exact onInventoryTimeout_spends (disarm_inventoryTimeout_strict ht htimer)
  | validation id =>
    exact spends_of_awaited (awaited_onValidation (s := s.disarm (.validation id)) ha hs
      (ht.validations id htimer)) _
  | nextTransaction => exact absurd rfl hne

/-- A session affords what it does with bytes by the messages that they complete. -/
theorem handle_received_affords (ht : Strict s []) {bytes : Bytes}
    (hmessages : ∀ e ∈ (s.frames.feed sender bytes).1, e.kind? ≠ some .requestTrans) :
    Affords s ((s.frames.feed sender bytes).1.map Envelope.budget).sum
      (s.handle (.bytesReceived sender bytes)) := by
  simp only [handle]
  split
  · exact foldActions_affords (I := (Strict · []))
      (fun t e he ht => ⟨(onEnvelope_answered ht sender e).strict ht,
        onEnvelope_affords ht (hmessages e he) sender⟩)
      (s := { s with frames := (s.frames.feed sender bytes).2 }) (ht.of_aside rfl)
  · exact affords_of_silent rfl

end Session

end BlockGossip
