import BlockGossip.Wire.Envelope
import BlockGossip.Proofs.Json.Hashless
import BlockGossip.Proofs.Json.Words
import Mathlib.Data.List.Forall2

/-!
# What the wire makes of an envelope

An envelope that is written and read comes back as its `reread?`: local fields
take their usual values, an empty list of blocks is one of keys, and times are
what their shortest numerals read as. It does not come back at all exactly
where some time has no numeral, or one that reads as nothing.
-/

namespace BlockGossip

open Json

/-- Reading all items of a list is reading each of them. -/
theorem mapM_eq_some_iff {f : α → Option β} {xs : List α} {ys : List β} :
    xs.mapM f = some ys ↔ xs.map f = ys.map some := by
  induction xs generalizing ys with
  | nil => cases ys <;> simp
  | cons x xs ih =>
    simp only [List.mapM_cons, Option.bind_eq_bind, Option.bind_eq_some_iff, Option.pure_def,
      Option.some_inj, ih]
    constructor
    · rintro ⟨y, hy, rest, hrest, rfl⟩
      rw [List.map_cons, List.map_cons, hy, hrest]
    · intro h
      cases ys with
      | nil => exact nomatch h
      | cons y rest =>
        obtain ⟨hy, hrest⟩ := List.cons.inj h
        exact ⟨y, hy, rest, hrest, rfl⟩

theorem exists_of_mem_mapM {f : α → Option β} {xs : List α} {ys : List β} {x : α}
    (h : xs.mapM f = some ys) (hx : x ∈ xs) : ∃ y ∈ ys, f x = some y := by
  have hmem : f x ∈ ys.map some := mapM_eq_some_iff.mp h ▸ List.mem_map_of_mem hx
  obtain ⟨y, hy, heq⟩ := List.mem_map.mp hmem
  exact ⟨y, hy, heq.symm⟩

theorem exists_of_mapM_mem {f : α → Option β} {xs : List α} {ys : List β} {y : β}
    (h : xs.mapM f = some ys) (hy : y ∈ ys) : ∃ x ∈ xs, f x = some y := by
  have hmem : some y ∈ xs.map f := mapM_eq_some_iff.mp h ▸ List.mem_map_of_mem hy
  exact List.mem_map.mp hmem

theorem map_eq_of_mapM {f : α → Option β} {g : α → γ} {g' : β → γ}
    (hf : ∀ x y, f x = some y → g x = g' y) {xs : List α} {ys : List β}
    (h : xs.mapM f = some ys) : xs.map g = ys.map g' := by
  have hread : List.Forall₂ Eq (xs.map f) (ys.map some) :=
    List.forall₂_eq_eq_eq ▸ mapM_eq_some_iff.mp h
  rw [List.forall₂_map_left_iff, List.forall₂_map_right_iff] at hread
  rw [← List.forall₂_eq_eq_eq, List.forall₂_map_left_iff, List.forall₂_map_right_iff]
  exact hread.imp hf

-- ---------------------------------------------------------------------------
-- Times
-- ---------------------------------------------------------------------------

namespace Time

/-- The time that the numeral of a time reads as. -/
def reread? (t : Time) : Option Time := (ofFloat t).float?

/-- The time after so many crossings of the wire. -/
def rereads : Nat → Time → Option Time
  | 0, t => some t
  | n + 1, t => t.reread?.bind (rereads n)

/-- The time crosses the wire any number of times. -/
def Lasting (t : Time) : Prop := ∀ n, (rereads n t).isSome = true

theorem Lasting.reread? {t : Time} (h : Lasting t) :
    ∃ u, Time.reread? t = some u ∧ Lasting u := by
  obtain ⟨u, hu⟩ := Option.isSome_iff_exists.mp (h 1)
  cases ht : Time.reread? t with
  | none => simp [rereads, ht] at hu
  | some v =>
    refine ⟨v, rfl, fun n => ?_⟩
    have := h (n + 1)
    rwa [rereads, ht, Option.bind_some] at this

theorem zero_lasting : Lasting 0.0 := by
  have hzero : Time.reread? 0.0 = some 0.0 := by decide +kernel
  intro n
  induction n with
  | zero => rfl
  | succ n ih => rwa [rereads, hzero, Option.bind_some]

end Time

-- ---------------------------------------------------------------------------
-- Transactions
-- ---------------------------------------------------------------------------

namespace Transaction

def reread? (t : Transaction) : Option Transaction :=
  (Time.reread? t.timestamp).map fun timestamp => { t with timestamp, sizeBytes := usualSize }

theorem ofJson?_toJson (t : Transaction) : ofJson? t.toJson = t.reread? := by
  have hselect : t.toJson.fields? ["nodeId", "transId", "timestamp", "validation", "execution"] =
      some [some (ofNat t.nodeId.toNat), some (ofNat t.transId.toNat), some (ofFloat t.timestamp),
        some (.bool t.validated), some (ofNat t.execution.toNat)] := by
    rw [toJson, fields?_record]
    rfl
  rw [ofJson?, hselect, reread?, Time.reread?]
  simp only [Json.required, Json.optional, Option.bind_eq_bind, Option.bind_some, word32?_ofNat,
    word64?_ofNat, bool?_bool]
  cases (ofFloat t.timestamp).float? <;> rfl

theorem toJson_proper (t : Transaction) : t.toJson.Proper := by
  refine record_proper ?_
  simp only [List.forall_mem_cons]
  exact ⟨ofNat_proper _, ofNat_proper _, ofFloat_proper _, trivial, ofNat_proper _, nofun⟩

theorem toJson_meaningful {t u : Transaction} (h : t.reread? = some u) (depth : Nat) :
    t.toJson.isMeaningful (depth + 1) := by
  have htime : (ofFloat t.timestamp).float?.isSome := by
    obtain ⟨v, hv, -⟩ := Option.map_eq_some_iff.mp h
    exact Option.isSome_iff_exists.mpr ⟨v, hv⟩
  refine record_meaningful ?_
  simp only [List.forall_mem_cons]
  exact ⟨ofNat_meaningful _ (Nat.lt_trans t.nodeId.toNat_lt (by decide)),
    ofNat_meaningful _ t.transId.toNat_lt, ofFloat_meaningful _ htime, rfl,
    ofNat_meaningful _ (Nat.lt_trans t.execution.toNat_lt (by decide)), nofun⟩

end Transaction

-- ---------------------------------------------------------------------------
-- Blocks
-- ---------------------------------------------------------------------------

namespace Block

def reread? (b : Block) : Option Block := do
  let timestamp ← Time.reread? b.timestamp
  let transactions ← b.transactions.mapM Transaction.reread?
  pure { b with timestamp, receivedAt := 0.0, origin := none, transactions }

theorem ofJson?_toJson (b : Block) : ofJson? b.toJson = b.reread? := by
  have hselect : b.toJson.fields?
      ["height", "minerId", "nonce", "parentMinerId", "sizeBytes", "timestamp", "transactions"] =
      some [some (ofNat b.height.toNat), some (ofNat b.minerId.toNat), some (ofNat b.nonce.toNat),
        some (ofNat b.parentMinerId.toNat), some (ofNat b.sizeBytes.toNat),
        some (ofFloat b.timestamp), some (ofList Transaction.toJson b.transactions)] := by
    rw [toJson, fields?_record]
    rfl
  have hlist : (ofList Transaction.toJson b.transactions).list? Transaction.ofJson? =
      b.transactions.mapM Transaction.reread? := by
    rw [list?_ofList]
    congr 1
    funext t
    exact Transaction.ofJson?_toJson t
  rw [ofJson?, hselect, reread?, Time.reread?]
  simp only [Json.required, Json.optional, Option.bind_eq_bind, Option.bind_some, word32?_ofNat,
    word64?_ofNat, hlist]

theorem toJson_proper (b : Block) : b.toJson.Proper := by
  refine record_proper ?_
  simp only [List.forall_mem_cons]
  exact ⟨ofNat_proper _, ofNat_proper _, ofNat_proper _, ofNat_proper _, ofNat_proper _,
    ofFloat_proper _, ofList_proper fun t _ => t.toJson_proper, nofun⟩

theorem toJson_meaningful {b c : Block} (h : b.reread? = some c) (depth : Nat) :
    b.toJson.isMeaningful (depth + 3) := by
  simp only [reread?, Option.bind_eq_bind, Option.bind_eq_some_iff] at h
  obtain ⟨time, htime, transactions, htransactions, -⟩ := h
  have hfloat : (ofFloat b.timestamp).float?.isSome :=
    Option.isSome_iff_exists.mpr ⟨time, htime⟩
  have hlist : (ofList Transaction.toJson b.transactions).isMeaningful (depth + 2) := by
    refine ofList_meaningful fun t ht => ?_
    obtain ⟨u, -, hu⟩ := exists_of_mem_mapM htransactions ht
    exact Transaction.toJson_meaningful hu depth
  refine record_meaningful ?_
  simp only [List.forall_mem_cons]
  exact ⟨ofNat_meaningful _ b.height.toNat_lt,
    ofNat_meaningful _ (Nat.lt_trans b.minerId.toNat_lt (by decide)),
    ofNat_meaningful _ b.nonce.toNat_lt,
    ofNat_meaningful _ (Nat.lt_trans b.parentMinerId.toNat_lt (by decide)),
    ofNat_meaningful _ b.sizeBytes.toNat_lt, ofFloat_meaningful _ hfloat, hlist, nofun⟩

end Block

-- ---------------------------------------------------------------------------
-- Envelopes
-- ---------------------------------------------------------------------------

def BlockPayload.reread? : BlockPayload → Option BlockPayload
  | .keys texts => some (.keys texts)
  | .records [] => some (.keys [])
  | .records blocks => (blocks.mapM Block.reread?).map .records

namespace Envelope

def rereadBlocks? : Option BlockPayload → Option (Option BlockPayload)
  | none => some none
  | some payload => payload.reread?.map some

def reread? (e : Envelope) : Option Envelope := do
  let blocks ← rereadBlocks? e.blocks
  let transactions ← e.transactions.mapM Transaction.reread?
  pure { e with blocks, transactions }

theorem list?_text (keys : List String) :
    (ofList ofText keys).list? Node.text? = some keys := by
  rw [list?_ofList]
  simp only [text?_ofText]
  induction keys with
  | nil => rfl
  | cons key keys ih => rw [List.mapM_cons, ih]; rfl

/-- Blocks are read by the rule of the payload: keys, or records. -/
theorem payload?_payloadToJson (payload : BlockPayload) :
    payload? (payloadToJson payload) = payload.reread? := by
  have hdepth : depthLimit - 1 = 125 + 1 := rfl
  cases payload with
  | keys keys =>
    have hmeaningful : (ofList ofText keys).isMeaningful (depthLimit - 1) := by
      rw [hdepth]
      exact ofList_meaningful fun key _ => ofText_meaningful _ key
    rw [payloadToJson, payload?, if_pos hmeaningful, list?_text, BlockPayload.reread?]
  | records records =>
    cases records with
    | nil => rfl
    | cons b rest =>
      have hkeys : (ofList Block.toJson (b :: rest)).list? Node.text? = none := rfl
      have hblocks : (ofList Block.toJson (b :: rest)).list? Block.ofJson? =
          (b :: rest).mapM Block.reread? := by
        rw [list?_ofList]
        congr 1
        funext c
        exact Block.ofJson?_toJson c
      have hread : (BlockPayload.records (b :: rest)).reread? =
          ((b :: rest).mapM Block.reread?).map .records := rfl
      rw [payloadToJson, payload?, hkeys, hread, hblocks]
      cases hall : (b :: rest).mapM Block.reread? with
      | none => simp
      | some records =>
        have hmeaningful : (ofList Block.toJson (b :: rest)).isMeaningful (depthLimit - 1) := by
          rw [hdepth]
          refine ofList_meaningful fun c hc => ?_
          obtain ⟨d, -, hd⟩ := exists_of_mem_mapM hall hc
          exact Block.toJson_meaningful hd 122
        rw [if_pos hmeaningful]

/-- The blocks as a field that may be left out. -/
def blocksField : Option BlockPayload → Option Node := Option.map payloadToJson

/-- A list as a field that is left out where it is empty. -/
def listField (write : α → Node) : List α → Option Node
  | [] => none
  | x :: xs => some (ofList write (x :: xs))

theorem toJson_fields? (e : Envelope) :
    e.toJson.fields? ["type", "message", "inv", "blocks", "transactions"] =
      some [some (ofText e.label), some (ofInt e.message.toInt), listField ofText e.inv,
        blocksField e.blocks, listField Transaction.toJson e.transactions] := by
  rw [toJson, fields?_record]
  cases e.inv <;> cases e.blocks <;> cases e.transactions <;> rfl

theorem blocks?_blocksField (blocks : Option BlockPayload) :
    blocks? (blocksField blocks) = rereadBlocks? blocks := by
  cases blocks with
  | none => rfl
  | some payload =>
    have h := payload?_payloadToJson payload
    cases payload <;> exact congrArg (Option.map some) h

theorem optional_listField {read : Node → Option β} {write : α → Node} (xs : List α) :
    Json.optional (Node.list? read) [] (listField write xs) =
      xs.mapM fun x => read (write x) := by
  cases xs with
  | nil => rfl
  | cons x xs => exact list?_ofList read write (x :: xs)

theorem ofJson?_toJson (e : Envelope) : ofJson? e.toJson = e.reread? := by
  have hinv : Json.optional (Node.list? Node.text?) [] (listField ofText e.inv) = some e.inv := by
    rw [optional_listField, ← list?_ofList, list?_text]
  have htransactions :
      Json.optional (Node.list? Transaction.ofJson?) []
        (listField Transaction.toJson e.transactions) =
        e.transactions.mapM Transaction.reread? := by
    rw [optional_listField]
    congr 1
    funext t
    exact Transaction.ofJson?_toJson t
  rw [ofJson?, toJson_fields?, reread?]
  simp only [Json.required, Option.bind_eq_bind, Option.bind_some, text?_ofText, signed64?_ofInt,
    hinv, blocks?_blocksField, htransactions]

theorem payloadToJson_proper (payload : BlockPayload) : (payloadToJson payload).Proper := by
  cases payload with
  | keys keys => exact ofList_proper fun key _ => ofText_proper key
  | records records => exact ofList_proper fun b _ => b.toJson_proper

theorem unlessEmpty_proper {name : String} {write : α → Node} {xs : List α}
    (h : ∀ x ∈ xs, (write x).Proper) : ∀ f ∈ unlessEmpty name write xs, f.2.Proper := by
  unfold unlessEmpty
  split
  · exact nofun
  · intro f hf
    rw [List.mem_singleton.mp hf]
    exact ofList_proper h

theorem toJson_proper (e : Envelope) : e.toJson.Proper := by
  refine record_proper fun f hf => ?_
  simp only [List.mem_append] at hf
  rcases hf with ((hf | hf) | hf) | hf
  · rcases List.mem_cons.mp hf with rfl | hf
    · exact ofText_proper _
    · rw [List.mem_singleton.mp hf]
      exact ofInt_proper _
  · exact unlessEmpty_proper (fun key _ => ofText_proper key) f hf
  · cases hb : e.blocks with
    | none => simp [hb] at hf
    | some payload =>
      rw [hb] at hf
      rw [List.mem_singleton.mp hf]
      exact payloadToJson_proper payload
  · exact unlessEmpty_proper (fun t _ => t.toJson_proper) f hf

/-- What is read from the written form of an envelope. -/
theorem decode?_render (e : Envelope) : decode? e.toJson.render = e.reread? := by
  rw [decode?, Node.read?_render e.toJson_proper, Option.bind_some, ofJson?_toJson]

-- ---------------------------------------------------------------------------
-- What stays
-- ---------------------------------------------------------------------------

theorem reread?_kind {e e' : Envelope} (h : e.reread? = some e') : e'.kind? = e.kind? := by
  simp only [reread?, Option.bind_eq_bind, Option.bind_eq_some_iff] at h
  obtain ⟨blocks, -, transactions, -, h⟩ := h
  rw [← Option.some.inj h]
  rfl

/-- Keys are read as they were, and records one after another. -/
theorem reread?_blocks {e e' : Envelope} (h : e.reread? = some e') :
    e'.blockKeys = e.blockKeys ∧ e.blockRecords.mapM Block.reread? = some e'.blockRecords := by
  simp only [reread?, Option.bind_eq_bind, Option.bind_eq_some_iff] at h
  obtain ⟨blocks, hblocks, transactions, -, h⟩ := h
  obtain rfl := Option.some.inj h
  unfold blockKeys blockRecords
  rcases hpayload : e.blocks with _ | keys | _ | ⟨r, rest⟩
  all_goals rw [hpayload] at hblocks
  · obtain rfl := Option.some.inj hblocks
    exact ⟨rfl, rfl⟩
  · obtain rfl := Option.some.inj hblocks
    exact ⟨rfl, rfl⟩
  · obtain rfl := Option.some.inj hblocks
    exact ⟨rfl, rfl⟩
  · obtain ⟨payload, hpayload, rfl⟩ := Option.map_eq_some_iff.mp hblocks
    obtain ⟨read, hrest, rfl⟩ := Option.map_eq_some_iff.mp hpayload
    exact ⟨rfl, hrest⟩

/-- As many items are read as were written; keys are read as they were. -/
theorem reread?_items {e e' : Envelope} (h : e.reread? = some e') :
    e'.inv = e.inv ∧ e'.blockKeys = e.blockKeys ∧
      e'.blockRecords.length = e.blockRecords.length := by
  obtain ⟨hkeys, hrecords⟩ := reread?_blocks h
  have hlength := congrArg List.length (mapM_eq_some_iff.mp hrecords)
  rw [List.length_map, List.length_map] at hlength
  simp only [reread?, Option.bind_eq_bind, Option.bind_eq_some_iff] at h
  obtain ⟨blocks, -, transactions, -, h⟩ := h
  obtain rfl := Option.some.inj h
  exact ⟨rfl, hkeys, hlength.symm⟩

theorem reread?_records {e e' : Envelope} (h : e.reread? = some e') :
    ∀ r' ∈ e'.blockRecords, ∃ r ∈ e.blockRecords, r.reread? = some r' :=
  fun _ hr' => exists_of_mapM_mem (reread?_blocks h).2 hr'

end Envelope

end BlockGossip
