import BlockGossip.Ledger.Linkage

/-!
# Copies of a block

Twins agree on what the linkage reads, so one stands for the other as parent
and as child. Alike blocks agree on all that was minted but the times: height,
miner, nonce, parent field, size, and which transactions they carry.
-/

namespace BlockGossip.Block

variable {a b c : Block} {rule : Linkage}

/-- Two copies of a block agree on its id and on what the linkage reads. -/
def Twin (a b : Block) : Prop := a.id = b.id ∧ a.parentMinerId = b.parentMinerId

namespace Twin

instance : Decidable (a.Twin b) := inferInstanceAs (Decidable (_ ∧ _))

theorem refl (a : Block) : a.Twin a := ⟨rfl, rfl⟩

theorem height (h : a.Twin b) : a.height = b.height := congrArg BlockId.height h.1

theorem minerId (h : a.Twin b) : a.minerId = b.minerId := congrArg BlockId.miner h.1

theorem isParent {a' b' : Block} (ha : a.Twin a') (hb : b.Twin b') :
    rule.isParent a b = rule.isParent a' b' := by
  cases rule <;>
    simp [Linkage.isParent, Linkage.parentField, ha.height, ha.minerId, ha.2, hb.height, hb.2]

end Twin

structure Alike (a b : Block) : Prop where
  id : a.id = b.id
  nonce : a.nonce = b.nonce
  parentMinerId : a.parentMinerId = b.parentMinerId
  sizeBytes : a.sizeBytes = b.sizeBytes
  transactions : a.transactions.map Transaction.id = b.transactions.map Transaction.id

namespace Alike

theorem refl (a : Block) : a.Alike a := ⟨rfl, rfl, rfl, rfl, rfl⟩

theorem symm (h : a.Alike b) : b.Alike a :=
  ⟨h.id.symm, h.nonce.symm, h.parentMinerId.symm, h.sizeBytes.symm, h.transactions.symm⟩

theorem trans (h : a.Alike b) (h' : b.Alike c) : a.Alike c :=
  ⟨h.id.trans h'.id, h.nonce.trans h'.nonce, h.parentMinerId.trans h'.parentMinerId,
    h.sizeBytes.trans h'.sizeBytes, h.transactions.trans h'.transactions⟩

theorem twin (h : a.Alike b) : a.Twin b := ⟨h.id, h.parentMinerId⟩

/-- What a block is delivered or minted with is no part of its copies. -/
theorem received (h : a.Alike b) (sender : NodeId) (time : Time) :
    a.Alike (b.received sender time) :=
  ⟨h.id, h.nonce, h.parentMinerId, h.sizeBytes, h.transactions⟩

theorem minted (a : Block) (time : Time) : a.Alike (a.minted time) := ⟨rfl, rfl, rfl, rfl, rfl⟩

theorem header (h : a.Alike b) : a.header.Alike b.header :=
  ⟨h.id, h.nonce, h.parentMinerId, h.sizeBytes, rfl⟩

end Alike

end BlockGossip.Block
