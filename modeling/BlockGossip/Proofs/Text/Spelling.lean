import BlockGossip.Proofs.Json.Numbers
import BlockGossip.Proofs.Text.Keys
import Mathlib.Data.List.DropRight
import Mathlib.Data.List.Induction
import Mathlib.Data.List.TakeWhile

/-!
# Numerals as texts spell them

Which texts are read as a number, said without reading them: decimal digits, at
least one, perhaps behind a plus sign (`Spells`). Leading zeros do not count; a
number has one spelling without them, the one that is written. Trimming takes
blanks off both ends and nothing else, so a trimmed text is a numeral exactly
where the text is one between blanks (`Between`).
-/

namespace BlockGossip

namespace Text

variable {p : Char → Bool} {left : List Char}

theorem cut_none (h : ∀ x ∈ left, p x = true) : left.takeWhile p = left ∧ left.dropWhile p = [] :=
  ⟨List.takeWhile_eq_self_iff.mpr h, List.dropWhile_eq_nil_iff.mpr h⟩

/-- Where no character fails, there is nothing to cut at. -/
theorem cut_cases (p : Char → Bool) (cs : List Char) :
    (∀ c ∈ cs, p c = true) ∨
      ∃ left c right, cs = left ++ c :: right ∧ (∀ x ∈ left, p x = true) ∧ p c = false := by
  induction cs with
  | nil => exact .inl (by simp)
  | cons c cs ih =>
    cases hc : p c with
    | false => exact .inr ⟨[], c, cs, rfl, by simp, hc⟩
    | true =>
      rcases ih with hall | ⟨left, c', right, rfl, hleft, hc'⟩
      · exact .inl (List.forall_mem_cons.mpr ⟨hc, hall⟩)
      · exact .inr ⟨c :: left, c', right, rfl, List.forall_mem_cons.mpr ⟨hc, hleft⟩, hc'⟩

end Text

-- ---------------------------------------------------------------------------
-- Digits
-- ---------------------------------------------------------------------------

namespace Numeral

variable {cs : List Char} {ds : List Digit} {n limit : Nat}

/-- The text spells the number. -/
inductive Spells : List Char → Nat → Prop where
  | plain (ds : List Digit) : ds ≠ [] → Spells (ds.map digitChar) (value ds)
  | signed (ds : List Digit) : ds ≠ [] → Spells ('+' :: ds.map digitChar) (value ds)

/-- No zero stands in front, unless it stands alone. -/
def Unpadded (ds : List Digit) : Prop := ∃ d rest, ds = d :: rest ∧ (rest = [] ∨ d.val ≠ 0)

theorem digit?_eq_some_iff {c : Char} {d : Digit} : digit? c = some d ↔ c = digitChar d := by
  constructor
  · intro h
    unfold digit? at h
    split at h
    · rename_i hc
      cases h
      have hcode : 48 + (c.toNat - 48) % 10 = c.toNat := by omega
      simp [digitChar, lastDigit, hcode]
    · cases h
  · rintro rfl
    exact digit?_digitChar d

theorem mapM_digit?_eq_some_iff : cs.mapM digit? = some ds ↔ cs = ds.map digitChar := by
  constructor
  · intro h
    induction cs generalizing ds with
    | nil => simp_all
    | cons c cs ih =>
      simp only [List.mapM_cons, Option.bind_eq_bind, Option.bind_eq_some_iff, Option.pure_def,
        Option.some_inj] at h
      obtain ⟨d, hd, rest, hrest, rfl⟩ := h
      rw [List.map_cons, ← ih hrest, ← digit?_eq_some_iff.mp hd]
  · rintro rfl
    exact mapM_digit? ds

theorem digits?_eq_some_iff : digits? cs = some ds ↔ ds ≠ [] ∧ cs = ds.map digitChar := by
  unfold digits?
  cases cs with
  | nil => cases ds <;> simp
  | cons c cs =>
    simp only [List.isEmpty_cons, Bool.false_eq_true, if_false, mapM_digit?_eq_some_iff]
    refine ⟨fun h => ⟨?_, h⟩, And.right⟩
    rintro rfl
    cases h

/-- A text is read as a number exactly where it spells the number. -/
theorem read?_eq_some_iff : read? limit cs = some n ↔ Spells cs n ∧ n < limit := by
  unfold read?
  simp only [Option.bind_eq_bind, Option.bind_eq_some_iff, digits?_eq_some_iff]
  constructor
  · rintro ⟨ds, ⟨hne, hcs⟩, hread⟩
    split at hread
    · rename_i hlt
      cases hread
      refine ⟨?_, hlt⟩
      split at hcs
      · rename_i hplus
        obtain ⟨rest, rfl⟩ := List.head?_eq_some_iff.mp hplus
        obtain rfl : rest = ds.map digitChar := hcs
        exact .signed ds hne
      · exact hcs ▸ .plain ds hne
    · cases hread
  · rintro ⟨hspells, hlt⟩
    cases hspells with
    | plain ds hne =>
      refine ⟨ds, ⟨hne, if_neg ?_⟩, if_pos hlt⟩
      cases ds with
      | nil => simp
      | cons d ds => simpa using (digitChar_plain d).2.1
    | signed ds hne => exact ⟨ds, ⟨hne, rfl⟩, if_pos hlt⟩

theorem Spells.not_blank (h : Spells cs n) : ∀ c ∈ cs, Text.isBlank c = false := by
  have hdigits (ds : List Digit) : ∀ c ∈ ds.map digitChar, Text.isBlank c = false := by
    intro c hc
    obtain ⟨d, -, rfl⟩ := List.mem_map.mp hc
    exact (digitChar_plain d).2.2
  cases h with
  | plain ds hne => exact hdigits ds
  | signed ds hne =>
    refine List.forall_mem_cons.mpr ⟨?_, hdigits ds⟩
    decide

-- ---------------------------------------------------------------------------
-- One spelling without padding
-- ---------------------------------------------------------------------------

theorem digits_unpadded (n : Nat) : Unpadded (digits n) := Json.digits_proper n

/-- Unpadded digits are those that are written for their value. -/
theorem digits_value (h : Unpadded ds) : digits (value ds) = ds := by
  induction ds using List.reverseRecOn with
  | nil =>
    obtain ⟨d, rest, hds, -⟩ := h
    cases hds
  | append_singleton ds d ih =>
    have hd := d.isLt
    have hlast {m : Nat} (hm : m % 10 = d.val) : lastDigit m = d := Fin.ext hm
    rw [value_append_singleton, digits]
    cases ds with
    | nil =>
      have hzero : value [] = 0 := rfl
      rw [if_pos (by omega), hlast (by omega), List.nil_append]
    | cons first rest =>
      obtain ⟨d', rest', hds, hfirst⟩ := h
      obtain ⟨rfl, rfl⟩ := List.cons.inj hds
      have hne : first.val ≠ 0 := hfirst.resolve_left (by simp)
      have ih := ih ⟨first, rest, rfl, .inr hne⟩
      -- A first digit that is not zero keeps the value from zero.
      have hpos : value (first :: rest) ≠ 0 := by
        intro hzero
        rw [hzero, digits, if_pos (by decide)] at ih
        exact hne (congrArg Fin.val (List.cons.inj ih).1).symm
      have hvalue : (10 * value (first :: rest) + d.val) / 10 = value (first :: rest) := by omega
      rw [if_neg (by omega), hvalue, ih, hlast (by omega)]

end Numeral

-- ---------------------------------------------------------------------------
-- Blanks
-- ---------------------------------------------------------------------------

namespace Text

variable {cs before after : List Char}

def Blank (cs : List Char) : Prop := ∀ c ∈ cs, isBlank c = true

theorem dropWhile_blank (h : Blank before) (cs : List Char) :
    (before ++ cs).dropWhile isBlank = cs.dropWhile isBlank :=
  List.dropWhile_append_of_pos h

/-- Blanks are trimmed off a text that holds none itself. -/
theorem trimList_between (hbefore : Blank before) (hafter : Blank after)
    (hcs : ∀ c ∈ cs, isBlank c = false) : trimList (before ++ cs ++ after) = cs := by
  have hreverse : Blank after.reverse := fun c hc => hafter c (List.mem_reverse.mp hc)
  have hplain : (cs.reverse).dropWhile isBlank = cs.reverse :=
    dropWhile_isBlank fun c hc => hcs c (List.mem_reverse.mp hc)
  rw [trimList, List.append_assoc, dropWhile_blank hbefore]
  cases cs with
  | nil =>
    have hnil := dropWhile_blank hafter []
    rw [List.append_nil] at hnil
    simp [hnil]
  | cons c cs =>
    have hc : ¬isBlank c = true := by simp [hcs c (.head _)]
    rw [List.cons_append, List.dropWhile_cons_of_neg hc, ← List.cons_append, List.reverse_append,
      dropWhile_blank hreverse, hplain, List.reverse_reverse]

/-- Only blanks are trimmed. -/
theorem trimList_spec (cs : List Char) :
    ∃ before after, Blank before ∧ Blank after ∧ cs = before ++ trimList cs ++ after := by
  have hblank (xs : List Char) : Blank (xs.takeWhile isBlank) := fun c hc =>
    List.mem_takeWhile_imp hc
  let rest := cs.dropWhile isBlank
  refine ⟨cs.takeWhile isBlank, (rest.reverse.takeWhile isBlank).reverse, hblank _,
    fun c hc => hblank _ c (List.mem_reverse.mp hc), ?_⟩
  have hrest : trimList cs ++ (rest.reverse.takeWhile isBlank).reverse = rest := by
    rw [trimList, ← List.reverse_append, List.takeWhile_append_dropWhile, List.reverse_reverse]
  rw [List.append_assoc, hrest, List.takeWhile_append_dropWhile]

/-- Trimming leaves no blank at either end, so there is nothing to trim again. -/
theorem trimList_trimList (cs : List Char) : trimList (trimList cs) = trimList cs := by
  have hfirst : (trimList cs).dropWhile isBlank = trimList cs := by
    cases hcs : trimList cs with
    | nil => rfl
    | cons c rest =>
      have hprefix : c :: rest <+: cs.dropWhile isBlank := hcs ▸ List.rdropWhile_prefix isBlank _
      obtain ⟨after, hafter⟩ := hprefix
      have hdropped := List.dropWhile_idempotent isBlank cs
      rw [← hafter, List.cons_append, List.dropWhile_eq_self_iff] at hdropped
      exact List.dropWhile_cons_of_neg (hdropped (Nat.succ_pos _))
  have hlast := List.rdropWhile_idempotent isBlank (cs.dropWhile isBlank)
  calc trimList (trimList cs)
    _ = (trimList cs).rdropWhile isBlank := congrArg (List.rdropWhile isBlank) hfirst
    _ = trimList cs := hlast

theorem trim_trim (s : String) : trim (trim s) = trim s := by
  simp [trim, trimList_trimList]

end Text

namespace Numeral

/-- The text spells a number below the limit, and has blanks around it. -/
def Between (limit : Nat) (cs : List Char) (n : Nat) : Prop :=
  ∃ before numeral after, cs = before ++ numeral ++ after ∧ Text.Blank before ∧
    Text.Blank after ∧ Spells numeral n ∧ n < limit

theorem read?_trimList {limit n : Nat} {cs : List Char} :
    read? limit (Text.trimList cs) = some n ↔ Between limit cs n := by
  rw [read?_eq_some_iff]
  constructor
  · rintro ⟨hspells, hlt⟩
    obtain ⟨before, after, hbefore, hafter, hcs⟩ := Text.trimList_spec cs
    exact ⟨before, _, after, hcs, hbefore, hafter, hspells, hlt⟩
  · rintro ⟨before, numeral, after, rfl, hbefore, hafter, hspells, hlt⟩
    rw [Text.trimList_between hbefore hafter hspells.not_blank]
    exact ⟨hspells, hlt⟩

theorem Between.lt {limit n : Nat} {cs : List Char} (h : Between limit cs n) : n < limit :=
  (read?_eq_some_iff.mp (read?_trimList.mpr h)).2

theorem Between.unique {limit n m : Nat} {cs : List Char} (hn : Between limit cs n)
    (hm : Between limit cs m) : n = m :=
  Option.some.inj ((read?_trimList.mpr hn).symm.trans (read?_trimList.mpr hm))

end Numeral

end BlockGossip
