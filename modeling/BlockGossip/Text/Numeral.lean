/-!
# Decimal numerals

Numbers as lists of decimal digits, most significant digit first. `digits`
writes a number with no leading zero, `value` reads any digit list, and
`value_digits` says that reading undoes writing. Text and documents share
these lists; they differ only in how a digit is spelled.
-/

namespace BlockGossip.Numeral

abbrev Digit := Fin 10

def lastDigit (n : Nat) : Digit := ⟨n % 10, Nat.mod_lt n (by decide)⟩

/-- The digits of a number, most significant first; zero has the one digit 0. -/
def digits (n : Nat) : List Digit :=
  if n < 10 then [lastDigit n] else digits (n / 10) ++ [lastDigit n]

def value (ds : List Digit) : Nat := ds.foldl (fun acc d => 10 * acc + d.val) 0

theorem value_append_singleton (ds : List Digit) (d : Digit) :
    value (ds ++ [d]) = 10 * value ds + d.val := by
  simp [value]

theorem value_digits (n : Nat) : value (digits n) = n := by
  induction n using Nat.strongRecOn with
  | _ n ih =>
    rw [digits]
    split
    · simp only [value, List.foldl_cons, List.foldl_nil, lastDigit]
      omega
    · rw [value_append_singleton, ih (n / 10) (by omega)]
      simp only [lastDigit]
      omega

theorem digits_ne_nil (n : Nat) : digits n ≠ [] := by
  rw [digits]
  split <;> simp

def digitChar (d : Digit) : Char := Char.ofNat (48 + d.val)

/-- The digit of a character, if it is one of the ten ASCII digits. -/
def digit? (c : Char) : Option Digit :=
  if 48 ≤ c.toNat ∧ c.toNat ≤ 57 then some (lastDigit (c.toNat - 48)) else none

theorem digit?_digitChar (d : Digit) : digit? (digitChar d) = some d := by
  revert d
  decide

def text (n : Nat) : String := String.ofList ((digits n).map digitChar)

/-- Reads digits only; an empty text is no numeral. -/
def digits? (cs : List Char) : Option (List Digit) :=
  if cs.isEmpty then none else cs.mapM digit?

/-- Reads an unsigned number: a plus sign may lead, digits follow, and the
value stays below the limit. Leading zeros are accepted. -/
def read? (limit : Nat) (cs : List Char) : Option Nat := do
  let ds ← digits? (if cs.head? = some '+' then cs.tail else cs)
  if value ds < limit then some (value ds) else none

def word32? (s : String) : Option UInt32 := (read? UInt32.size s.toList).map UInt32.ofNat

def word64? (s : String) : Option UInt64 := (read? UInt64.size s.toList).map UInt64.ofNat

end BlockGossip.Numeral
