import BlockGossip.Proofs.Json.RoundTrip

/-!
# Records read back

What the writers of records make is proper, and what each reader of a field
finds in it is what was written.
-/

namespace BlockGossip.Json

-- ---------------------------------------------------------------------------
-- Writers are proper
-- ---------------------------------------------------------------------------

theorem ofText_proper (s : String) : (ofText s).Proper := escape_quotable s

theorem ofInt_proper (i : Int) : (ofInt i).Proper := Number.ofInt_proper i

theorem ofNat_proper (n : Nat) : (ofNat n).Proper := Number.ofInt_proper n

theorem ofFloat_proper (x : Float) : (ofFloat x).Proper := by
  unfold ofFloat
  cases h : Number.ofFloat? x with
  | none => exact trivial
  | some n => exact Number.ofFloat?_proper h

theorem itemsProper_iff (xs : List Node) : ItemsProper xs ↔ ∀ x ∈ xs, x.Proper := by
  induction xs with
  | nil => simp [ItemsProper]
  | cons x xs ih => simp [ItemsProper, ih]

theorem membersProper_iff (xs : List (Bytes × Node)) :
    MembersProper xs ↔ ∀ x ∈ xs, Quotable x.1 ∧ x.2.Proper := by
  induction xs with
  | nil => simp [MembersProper]
  | cons x xs ih => simp [MembersProper, ih, and_assoc]

theorem ofList_proper {write : α → Node} {xs : List α} (h : ∀ x ∈ xs, (write x).Proper) :
    (ofList write xs).Proper := by
  rw [ofList, Node.Proper, itemsProper_iff]
  simpa using h

theorem record_proper {fields : List (String × Node)} (h : ∀ f ∈ fields, f.2.Proper) :
    (record fields).Proper := by
  rw [record, Node.Proper, membersProper_iff]
  intro member hm
  obtain ⟨f, hf, rfl⟩ := List.mem_map.mp hm
  exact ⟨escape_quotable f.1, h f hf⟩

-- ---------------------------------------------------------------------------
-- Readers find what was written
-- ---------------------------------------------------------------------------

@[simp] theorem text?_ofText (s : String) : (ofText s).text? = some s := text?_escape s

theorem int?_ofInt {i : Int} (low : -9223372036854775808 ≤ i) (high : i < UInt64.size) :
    (ofInt i).int? = some i := Number.int?_ofInt low high

theorem nat?_ofNat {n limit : Nat} (h : n < limit) (hlimit : limit ≤ UInt64.size) :
    (ofNat n).nat? limit = some n := by
  have hi : (ofNat n).int? = some (n : Int) := int?_ofInt (by omega) (by omega)
  rw [Node.nat?, hi, Option.bind_some, if_pos (by omega), Int.toNat_natCast]

@[simp] theorem word64?_ofNat (n : UInt64) : (ofNat n.toNat).word64? = some n := by
  rw [Node.word64?, nat?_ofNat n.toNat_lt (Nat.le_refl _)]
  simp

@[simp] theorem word32?_ofNat (n : UInt32) : (ofNat n.toNat).word32? = some n := by
  rw [Node.word32?, nat?_ofNat n.toNat_lt (by decide)]
  simp

@[simp] theorem signed64?_ofInt (i : Int64) : (ofInt i.toInt).signed64? = some i := by
  have hlow : -9223372036854775808 ≤ i.toInt := i.minValue_le_toInt
  have hhigh : i.toInt < 9223372036854775808 := i.toInt_lt
  have hsize : (UInt64.size : Int) = 18446744073709551616 := rfl
  rw [Node.signed64?, int?_ofInt hlow (by omega), Option.bind_some, if_pos hhigh,
    Int64.ofInt_toInt]

@[simp] theorem bool?_bool (b : Bool) : (Node.bool b).bool? = some b := rfl

theorem list?_ofList (read : Node → Option β) (write : α → Node) (xs : List α) :
    (ofList write xs).list? read = xs.mapM fun x => read (write x) := by
  rw [ofList, Node.list?, List.mapM_map]
  rfl

theorem keyed?_escape (fields : List (String × Node)) :
    keyed? (fields.map fun f => (escape f.1, f.2)) = some fields := by
  rw [keyed?, List.mapM_map]
  induction fields with
  | nil => rfl
  | cons f rest ih => simp_all

/-- The fields of a written record, by name. -/
theorem fields?_record (names : List String) (fields : List (String × Node)) :
    (record fields).fields? names = select? names fields := by
  rw [record, Node.fields?, keyed?_escape, Option.bind_some]

end BlockGossip.Json
