/-!
# Tables

A finite table from keys to values, kept as the list of its entries in the
order in which their keys first arrived. A key has at most one entry as long as
entries are made with `insert`. The lemmas say what each operation does to
look-up; nothing else about the list needs to be known.
-/

namespace BlockGossip

structure Table (κ α : Type) where
  entries : List (κ × α)
deriving Repr, Inhabited

namespace Table

variable {κ α : Type} [DecidableEq κ]

def empty : Table κ α := ⟨[]⟩

def keys (t : Table κ α) : List κ := t.entries.map (·.1)

def values (t : Table κ α) : List α := t.entries.map (·.2)

def size (t : Table κ α) : Nat := t.entries.length

def find (k : κ) : List (κ × α) → Option α
  | [] => none
  | (k', a) :: rest => if k' = k then some a else find k rest

def get? (t : Table κ α) (k : κ) : Option α := find k t.entries

def contains (t : Table κ α) (k : κ) : Bool := (t.get? k).isSome

def put (k : κ) (a : α) : List (κ × α) → List (κ × α)
  | [] => [(k, a)]
  | (k', b) :: rest => if k' = k then (k, a) :: rest else (k', b) :: put k a rest

def insert (t : Table κ α) (k : κ) (a : α) : Table κ α := ⟨put k a t.entries⟩

def erase (t : Table κ α) (k : κ) : Table κ α := ⟨t.entries.filter (·.1 ≠ k)⟩

def retain (t : Table κ α) (keep : κ → Bool) : Table κ α := ⟨t.entries.filter (keep ·.1)⟩

def ofList (entries : List (κ × α)) : Table κ α :=
  entries.foldl (fun t entry => t.insert entry.1 entry.2) empty

@[simp] theorem get?_empty (k : κ) : (empty : Table κ α).get? k = none := rfl

theorem find_put (k k' : κ) (a : α) (entries : List (κ × α)) :
    find k' (put k a entries) = if k = k' then some a else find k' entries := by
  induction entries with
  | nil => simp [put, find]
  | cons entry rest ih =>
    simp only [put]
    split
    · rename_i h
      subst h
      simp only [find]
      split <;> simp_all
    · rename_i h
      simp only [find, ih]
      split <;> split <;> simp_all

@[simp] theorem get?_insert (t : Table κ α) (k k' : κ) (a : α) :
    (t.insert k a).get? k' = if k = k' then some a else t.get? k' :=
  find_put k k' a t.entries

theorem find_filter (keep : κ → Bool) (k : κ) (entries : List (κ × α)) :
    find k (entries.filter (keep ·.1)) = if keep k then find k entries else none := by
  induction entries with
  | nil => simp [find]
  | cons entry rest ih =>
    by_cases hk : keep entry.1
    · simp only [hk, List.filter_cons_of_pos, find, ih]
      split <;> split <;> simp_all
    · simp only [hk, List.filter_cons, find, Bool.false_eq_true, ↓reduceIte, ih]
      by_cases he : entry.1 = k
      · subst he; simp [hk]
      · simp [he]

@[simp] theorem get?_erase (t : Table κ α) (k k' : κ) :
    (t.erase k).get? k' = if k = k' then none else t.get? k' := by
  have h := find_filter (fun x => decide (x ≠ k)) k' t.entries
  simp only [erase, get?]
  rw [h]
  by_cases hk : k = k'
  · subst hk; simp
  · simp [hk, Ne.symm hk]

@[simp] theorem get?_retain (t : Table κ α) (keep : κ → Bool) (k : κ) :
    (t.retain keep).get? k = if keep k then t.get? k else none :=
  find_filter keep k t.entries

end Table

end BlockGossip
