import BlockGossip.Proofs.Pool.Held
import BlockGossip.Proofs.Wire.Entries
import BlockGossip.Session.Transactions

/-!
# First offers

An id is admitted with the first offer of it and with no later one (`firsts`):
a batch is answered, or passed on, with exactly the entries of these
(`offers_admitted`). Whether an offer is a first one depends only on the ids
that a pool holds; nothing but offers and own transactions changes the part of a
pool that counts for this (`Face`).
-/

namespace BlockGossip

-- ---------------------------------------------------------------------------
-- The first of many offers
-- ---------------------------------------------------------------------------

/-- The first offers of ids that are not held yet, each with who made it. -/
def firsts (held : TransactionId → Bool) :
    List (TransactionId × NodeId) → List (TransactionId × NodeId)
  | [] => []
  | x :: xs => if held x.1 then firsts held xs else x :: firsts (fun id => held id || x.1 == id) xs

section
variable {held : TransactionId → Bool} {x y : TransactionId × NodeId}
  {xs ys : List (TransactionId × NodeId)}

theorem firsts_held (h : held x.1 = true) : firsts held (x :: xs) = firsts held xs := if_pos h

theorem firsts_fresh (h : held x.1 = false) :
    firsts held (x :: xs) = x :: firsts (fun id => held id || x.1 == id) xs :=
  if_neg (Bool.eq_false_iff.mp h)

theorem mem_firsts :
    x ∈ firsts held xs ↔ held x.1 = false ∧ xs.find? (·.1 == x.1) = some x := by
  induction xs generalizing held with
  | nil => simp [firsts]
  | cons y ys ih =>
    cases hy : held y.1 with
    | true =>
      rw [firsts_held hy, ih]
      by_cases he : y.1 = x.1
      · simp [← he, hy]
      · simp [he]
    | false =>
      rw [firsts_fresh hy, List.mem_cons, ih]
      by_cases he : y.1 = x.1
      · simp [← he, hy, eq_comm]
      · have hne : x ≠ y := fun h => he (congrArg Prod.fst h.symm)
        simp [he, hne]

theorem firsts_subset (held : TransactionId → Bool) (xs : List (TransactionId × NodeId)) :
    firsts held xs ⊆ xs :=
  fun _ hx => List.mem_of_find?_eq_some (mem_firsts.mp hx).2

theorem mem_firsts_ids {id : TransactionId} :
    id ∈ (firsts held xs).map (·.1) ↔ held id = false ∧ xs.any (·.1 == id) = true := by
  rw [List.any_eq_true, ← List.find?_isSome]
  constructor
  · intro h
    obtain ⟨x, hx, rfl⟩ := List.mem_map.mp h
    obtain ⟨hheld, hfind⟩ := mem_firsts.mp hx
    exact ⟨hheld, Option.isSome_iff_exists.mpr ⟨x, hfind⟩⟩
  · rintro ⟨hheld, hsome⟩
    obtain ⟨x, hfind⟩ := Option.isSome_iff_exists.mp hsome
    obtain rfl : x.1 = id := by simpa using List.find?_some hfind
    exact List.mem_map_of_mem (mem_firsts.mpr ⟨hheld, hfind⟩)

theorem firsts_distinct (held : TransactionId → Bool) (xs : List (TransactionId × NodeId)) :
    ((firsts held xs).map (·.1)).Nodup := by
  induction xs generalizing held with
  | nil => exact List.nodup_nil
  | cons y ys ih =>
    cases hy : held y.1 with
    | true =>
      rw [firsts_held hy]
      exact ih held
    | false =>
      rw [firsts_fresh hy, List.map_cons]
      refine List.nodup_cons.mpr ⟨fun hmem => ?_, ih _⟩
      have hheld := (mem_firsts_ids.mp hmem).1
      simp at hheld

/-- What has been offered counts as held for what is offered later. -/
theorem firsts_append (held : TransactionId → Bool) (xs ys : List (TransactionId × NodeId)) :
    firsts held (xs ++ ys) =
      firsts held xs ++ firsts (fun id => held id || xs.any (·.1 == id)) ys := by
  induction xs generalizing held with
  | nil => simp [firsts]
  | cons x xs ih =>
    cases hx : held x.1 with
    | true =>
      have hsame : (fun id => held id || (x :: xs).any (·.1 == id)) =
          fun id => held id || xs.any (·.1 == id) := by
        funext id
        by_cases he : x.1 = id
        · subst he
          simp [hx]
        · simp [beq_false_of_ne he]
      rw [List.cons_append, firsts_held hx, firsts_held hx, ih, hsame]
    | false =>
      rw [List.cons_append, firsts_fresh hx, firsts_fresh hx, ih, List.cons_append]
      simp only [List.any_cons, Bool.or_assoc]

end

-- ---------------------------------------------------------------------------
-- What the admission of a pool depends on
-- ---------------------------------------------------------------------------

/-- A pool without marks, executions, reports and means. -/
@[ext] structure Face where
  node : NodeId
  role : Role
  next : UInt64
  holds : TransactionId → Bool

/-- The face once some ids have been offered. -/
def Face.taking (f : Face) (offers : List (TransactionId × NodeId)) : Face :=
  { f with holds := fun id => f.holds id || offers.any (·.1 == id) }

theorem Face.taking_nil (f : Face) : f.taking [] = f := by simp [taking]

theorem Face.taking_taking (f : Face) (xs ys : List (TransactionId × NodeId)) :
    (f.taking xs).taking ys = f.taking (xs ++ ys) := by
  simp [taking, Bool.or_assoc]

namespace Pool

variable {p : Pool} {id : TransactionId} {now : Time}

def face (p : Pool) : Face := ⟨p.node, p.role, p.nextNumber, p.holds⟩

theorem reply_face (p : Pool) (t : Transaction) : (p.reply t).2.face = p.face := by
  unfold reply
  dsimp only
  split
  · rfl
  · split <;> rfl

theorem replies_face (p : Pool) (ts : List Transaction) :
    (ts.foldl (fun pool t => (pool.reply t).2) p).face = p.face := by
  induction ts generalizing p with
  | nil => rfl
  | cons t ts ih => exact (ih _).trans (p.reply_face t)

theorem insert_holds {held : Transaction} (h : p.get? id = some held) (t : Transaction) :
    (p.held.insert id t).contains = p.holds := by
  funext i
  rw [Table.contains, Table.get?_insert]
  split
  · rename_i he
    rw [← he, holds_iff.mpr ⟨held, h⟩]
    rfl
  · rfl

theorem validate_face (p : Pool) (id : TransactionId) (now : Time) :
    (p.validate id now).2.face = p.face := by
  unfold validate
  split
  · rfl
  · rename_i held hid
    split
    · rfl
    · exact Face.ext rfl rfl rfl (insert_holds hid _)

theorem validateAll_face (p : Pool) (now : Time) (ts : List Transaction) :
    (p.validateAll now ts).2.face = p.face := by
  induction ts generalizing p with
  | nil => rfl
  | cons t ts ih =>
    rw [validateAll_cons]
    exact (ih _).trans (p.validate_face t.id now)

theorem validateFromBlock_face (p : Pool) (b : Block) (now : Time) :
    (p.validateFromBlock b now).2.face = p.face := by
  unfold validateFromBlock
  split
  · exact p.validateAll_face now _
  · rfl

/-- A fresh id is held from then on; it is executed, or to be passed on. -/
theorem request_fresh (hrole : p.role.acceptsRequests = true) {t : Transaction}
    (h : p.holds t.id = false) (now : Time) (sender : NodeId) :
    (p.request t now).2.face = p.face.taking [(t.id, sender)] ∧
      ∃ fresh : Transaction, fresh.entry = (t.id, 0) ∧ (p.request t now).1 =
        if p.role.executes then .executed (fresh.setExecution p.node) else .forward fresh := by
  have hignored : ¬(!p.role.acceptsRequests) = true := by simp [hrole]
  unfold request
  rw [if_neg hignored, if_neg (Bool.eq_false_iff.mp h)]
  generalize hfresh : { Transaction.create t.nodeId t.transId t.timestamp with
    sizeBytes := p.config.transactionSizeBytes } = fresh
  have hentry : fresh.entry = (t.id, 0) := by rw [← hfresh]; rfl
  have hid : fresh.id = t.id := congrArg Prod.fst hentry
  have hholds : (p.held.insert fresh.id fresh).contains =
      (p.face.taking [(t.id, sender)]).holds := by
    funext id
    rw [Table.contains, Table.get?_insert, hid]
    by_cases he : t.id = id <;> simp [he, Face.taking, face, holds, Table.contains]
  dsimp only
  split
  · exact ⟨Face.ext rfl rfl rfl hholds, fresh, hentry, rfl⟩
  · split
    · exact ⟨Face.ext rfl rfl rfl hholds, fresh, hentry, rfl⟩
    · exact ⟨Face.ext rfl rfl rfl hholds, fresh, hentry, rfl⟩

end Pool

-- ---------------------------------------------------------------------------
-- Batches of offers
-- ---------------------------------------------------------------------------

namespace Face

variable {f : Face} {news more : List (TransactionId × NodeId)}

/-- The entries with which a node that executes answers what it has admitted. -/
def answers (f : Face) (news : List (TransactionId × NodeId)) : List (TransactionId × NodeId) :=
  if f.role.executes then news.map fun x => (x.1, f.node) else []

/-- The entries with which any other node passes on what it has admitted. -/
def passes (f : Face) (news : List (TransactionId × NodeId)) : List (TransactionId × NodeId) :=
  if f.role.executes then [] else news.map fun x => (x.1, 0)

theorem answers_append (f : Face) (news more : List (TransactionId × NodeId)) :
    f.answers (news ++ more) = f.answers news ++ f.answers more := by
  unfold answers
  split
  · exact List.map_append
  · rfl

theorem passes_append (f : Face) (news more : List (TransactionId × NodeId)) :
    f.passes (news ++ more) = f.passes news ++ f.passes more := by
  unfold passes
  split
  · rfl
  · exact List.map_append

/-- The entries of the next so many transactions that a node creates. -/
def created (f : Face) (n : Nat) : List (TransactionId × NodeId) :=
  (List.range n).map fun k => (⟨f.node, f.next + UInt64.ofNat k⟩, 0)

theorem created_add {f' : Face} {n : Nat} (hnode : f'.node = f.node)
    (hnext : f'.next = f.next + UInt64.ofNat n) (m : Nat) :
    f.created (n + m) = f.created n ++ f'.created m := by
  simp [created, List.range_add, hnode, hnext, UInt64.ofNat_add, UInt64.add_assoc]

/-- The numbers of one's own transactions come round again only after all of them. -/
theorem created_distinct (f : Face) {n : Nat} (h : n ≤ UInt64.size) :
    ((f.created n).map (·.1)).Nodup := by
  rw [created, List.map_map]
  refine List.nodup_range.map_on fun i hi j hj heq => ?_
  have hnumbers : UInt64.ofNat i = UInt64.ofNat j :=
    (UInt64.add_right_inj f.next).mp (congrArg TransactionId.number heq)
  have hnat := congrArg UInt64.toNat hnumbers
  rwa [UInt64.toNat_ofNat', UInt64.toNat_ofNat',
    Nat.mod_eq_of_lt (Nat.lt_of_lt_of_le (List.mem_range.mp hi) h),
    Nat.mod_eq_of_lt (Nat.lt_of_lt_of_le (List.mem_range.mp hj) h)] at hnat

end Face

theorem Pool.create_entry (p : Pool) (now : Time) :
    [(p.create now).1].map Transaction.entry = p.face.created 1 := by
  simp [Face.created, create, Transaction.entry, Transaction.create, Transaction.id, face]

namespace Session

variable {sender : NodeId} {ts us : List Transaction} {a a' a'' : Admission} {now : Time}

/-- The ids that a peer offers. -/
def offersOf (sender : NodeId) (ts : List Transaction) : List (TransactionId × NodeId) :=
  ts.map fun t => (t.id, sender)

theorem snd_of_mem_firsts {held : TransactionId → Bool} {x : TransactionId × NodeId}
    (h : x ∈ firsts held (offersOf sender ts)) : x.2 = sender := by
  obtain ⟨t, -, rfl⟩ := List.mem_map.mp (firsts_subset _ _ h)
  rfl

theorem firsts_filter_eq (held : TransactionId → Bool) (sender peer : NodeId)
    (ts : List Transaction) :
    (firsts held (offersOf sender ts)).filter (·.2 == peer) =
      if peer = sender then firsts held (offersOf sender ts) else [] := by
  split
  · rename_i he
    exact List.filter_eq_self.mpr fun x hx => by simp [snd_of_mem_firsts hx, he]
  · rename_i he
    exact List.filter_eq_nil_iff.mpr fun x hx => by simp [snd_of_mem_firsts hx, Ne.symm he]

theorem firsts_filter_ne (held : TransactionId → Bool) (sender peer : NodeId)
    (ts : List Transaction) :
    (firsts held (offersOf sender ts)).filter (·.2 != peer) =
      if peer = sender then [] else firsts held (offersOf sender ts) := by
  split
  · rename_i he
    exact List.filter_eq_nil_iff.mpr fun x hx => by simp [snd_of_mem_firsts hx, he]
  · rename_i he
    exact List.filter_eq_self.mpr fun x hx => by simp [snd_of_mem_firsts hx, Ne.symm he]

/-- What the offers of a peer lead to. -/
structure Admitted (sender : NodeId) (ts : List Transaction) (a a' : Admission) : Prop where
  face : a'.pool.face = a.pool.face.taking (offersOf sender ts)
  replies : a'.replies.map Transaction.entry = a.replies.map Transaction.entry ++
    a.pool.face.answers (firsts a.pool.holds (offersOf sender ts))
  forwards : a'.forwards.map Transaction.entry = a.forwards.map Transaction.entry ++
    a.pool.face.passes (firsts a.pool.holds (offersOf sender ts))

namespace Admitted

theorem nil (sender : NodeId) (a : Admission) : Admitted sender [] a a where
  face := (Face.taking_nil _).symm
  replies := by simp [offersOf, firsts, Face.answers]
  forwards := by simp [offersOf, firsts, Face.passes]

theorem append (h : Admitted sender ts a a') (h' : Admitted sender us a' a'') :
    Admitted sender (ts ++ us) a a'' := by
  have hoffers : offersOf sender (ts ++ us) = offersOf sender ts ++ offersOf sender us :=
    List.map_append
  have hholds : a'.pool.holds = (a.pool.face.taking (offersOf sender ts)).holds :=
    congrArg Face.holds h.face
  have hnews : firsts a.pool.holds (offersOf sender (ts ++ us)) =
      firsts a.pool.holds (offersOf sender ts) ++ firsts a'.pool.holds (offersOf sender us) := by
    rw [hoffers, firsts_append, hholds]
    rfl
  refine ⟨?_, ?_, ?_⟩
  · rw [h'.face, h.face, Face.taking_taking, hoffers]
  · rw [h'.replies, h.replies, hnews, Face.answers_append, List.append_assoc, h.face]
    rfl
  · rw [h'.forwards, h.forwards, hnews, Face.passes_append, List.append_assoc, h.face]
    rfl

end Admitted

/-- An id is held once it is offered, and answered or passed on if it was not before. -/
theorem offer_admitted (hrole : a.pool.role.acceptsRequests = true) (sender : NodeId)
    (t : Transaction) : Admitted sender [t] a (a.offer now t) := by
  cases hheld : a.pool.holds t.id with
  | true =>
    have hsame : a.offer now t = a := by simp [Admission.offer, Pool.request, hrole, hheld]
    have hnews : firsts a.pool.holds (offersOf sender [t]) = [] := firsts_held hheld
    rw [hsame]
    refine ⟨Face.ext rfl rfl rfl (funext fun id => ?_), ?_, ?_⟩
    · by_cases he : t.id = id
      · simp [Face.taking, offersOf, ← he, Pool.face, hheld]
      · simp [Face.taking, offersOf, he]
    · rw [hnews]
      simp [Face.answers]
    · rw [hnews]
      simp [Face.passes]
  | false =>
    have hnews : firsts a.pool.holds (offersOf sender [t]) = [(t.id, sender)] := firsts_fresh hheld
    obtain ⟨hface, fresh, hentry, houtcome⟩ := Pool.request_fresh hrole hheld now sender
    unfold Admission.offer
    cases hexecutes : a.pool.role.executes with
    | true =>
      have hexecuted : (fresh.setExecution a.pool.node).entry = (t.id, a.pool.node) :=
        congrArg (·, a.pool.node) (congrArg Prod.fst hentry)
      rw [hexecutes, if_pos rfl] at houtcome
      rw [show a.pool.request t now = (_, (a.pool.request t now).2) from Prod.ext houtcome rfl]
      exact ⟨hface, by simp [hnews, Face.answers, Pool.face, hexecutes, hexecuted],
        by simp [Face.passes, Pool.face, hexecutes]⟩
    | false =>
      rw [hexecutes, if_neg Bool.false_ne_true] at houtcome
      rw [show a.pool.request t now = (_, (a.pool.request t now).2) from Prod.ext houtcome rfl]
      exact ⟨hface, by simp [Face.answers, Pool.face, hexecutes],
        by simp [hnews, Face.passes, Pool.face, hexecutes, hentry]⟩

theorem offers_admitted (hrole : a.pool.role.acceptsRequests = true) (sender : NodeId)
    (ts : List Transaction) : Admitted sender ts a (ts.foldl (Admission.offer now) a) := by
  induction ts generalizing a with
  | nil => exact .nil sender a
  | cons t ts ih =>
    have hfirst : Admitted sender [t] a (a.offer now t) := offer_admitted hrole sender t
    have hrole' : (a.offer now t).pool.role = a.pool.role := congrArg Face.role hfirst.face
    exact hfirst.append (ih (hrole' ▸ hrole))

end Session

end BlockGossip
