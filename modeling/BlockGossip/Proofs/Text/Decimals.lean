import BlockGossip.Decimal.Plain
import BlockGossip.Proofs.Text.Spelling

/-!
# Decimals as settings spell them

Which texts are read as a floating value, and as which: a sign or none, and then
a word for infinity or for no number in letters of either case, or digits with
or without a point and an exponent. `Spells` has one constructor for each form,
and `read?_eq_some_iff` says that it is what is read.
-/

namespace BlockGossip.Decimal

open Numeral (Digit digitChar)

variable {cs es : List Char} {ws fs : List Digit} {e : Int} {x : Float}

/-- Digits before and after an optional point, at least one in all. -/
inductive Mantissa : List Char → List Digit → List Digit → Prop where
  | whole (ws : List Digit) : ws ≠ [] → Mantissa (ws.map digitChar) ws []
  | pointed (ws fs : List Digit) : ws ≠ [] ∨ fs ≠ [] →
      Mantissa (ws.map digitChar ++ '.' :: fs.map digitChar) ws fs

inductive Exponent : List Char → Int → Prop where
  | plain (ds : List Digit) : ds ≠ [] → Exponent (ds.map digitChar) (Numeral.value ds)
  | plus (ds : List Digit) : ds ≠ [] → Exponent ('+' :: ds.map digitChar) (Numeral.value ds)
  | minus (ds : List Digit) : ds ≠ [] → Exponent ('-' :: ds.map digitChar) (-Numeral.value ds)

/-- The text is the word, whatever the case of its letters. -/
def IsWord (word : String) (cs : List Char) : Prop := String.ofList (cs.map Char.toLower) = word

/-- A value without its sign. -/
inductive Magnitude : List Char → Float → Prop where
  | infinity {cs : List Char} : IsWord "inf" cs ∨ IsWord "infinity" cs → Magnitude cs (1.0 / 0.0)
  | notANumber {cs : List Char} : IsWord "nan" cs → Magnitude cs (0.0 / 0.0)
  | number {cs : List Char} {ws fs : List Digit} : Mantissa cs ws fs →
      Magnitude cs (nearest (ws ++ fs) (-fs.length))
  | scaled {cs es : List Char} {ws fs : List Digit} {mark : Char} {e : Int} :
      Mantissa cs ws fs → mark = 'e' ∨ mark = 'E' → Exponent es e →
      Magnitude (cs ++ mark :: es) (nearest (ws ++ fs) (e - fs.length))

/-- The text spells the value. -/
inductive Spells : List Char → Float → Prop where
  | plain {cs : List Char} {x : Float} : Magnitude cs x → Spells cs x
  | plus {cs : List Char} {x : Float} : Magnitude cs x → Spells ('+' :: cs) x
  | minus {cs : List Char} {x : Float} : Magnitude cs x → Spells ('-' :: cs) (-x)

-- ---------------------------------------------------------------------------
-- Digits and marks
-- ---------------------------------------------------------------------------

/-- No word begins with the character, and it is no sign. -/
def Inner (c : Char) : Prop := c.toLower ≠ 'i' ∧ c.toLower ≠ 'n' ∧ c ≠ '+' ∧ c ≠ '-'

theorem digitChar_inner : ∀ d : Digit, Inner (digitChar d) := by
  unfold Inner
  decide

/-- Digits are no point and no mark of an exponent. -/
theorem digitChar_unmarked :
    ∀ d : Digit, digitChar d ≠ '.' ∧ digitChar d ≠ 'e' ∧ digitChar d ≠ 'E' := by
  decide

theorem digits_pointless (ds : List Digit) : ∀ c ∈ ds.map digitChar, (c != '.') = true := by
  intro c hc
  obtain ⟨d, -, rfl⟩ := List.mem_map.mp hc
  exact bne_iff_ne.mpr (digitChar_unmarked d).1

def unmarked (c : Char) : Bool := !(c == 'e' || c == 'E')

theorem unmarked_eq_false_iff {c : Char} : unmarked c = false ↔ c = 'e' ∨ c = 'E' := by
  rw [unmarked, Bool.not_eq_false', Bool.or_eq_true, beq_iff_eq, beq_iff_eq]

theorem digits_unmarked (ds : List Digit) : ∀ c ∈ ds.map digitChar, unmarked c = true := by
  intro c hc
  obtain ⟨d, -, rfl⟩ := List.mem_map.mp hc
  simp [unmarked, (digitChar_unmarked d).2.1, (digitChar_unmarked d).2.2]

theorem Mantissa.unmarked (h : Mantissa cs ws fs) : ∀ c ∈ cs, unmarked c = true := by
  cases h with
  | whole ws => exact digits_unmarked ws
  | pointed ws fs =>
    simp only [List.forall_mem_append, List.forall_mem_cons]
    exact ⟨digits_unmarked ws, rfl, digits_unmarked fs⟩

theorem Mantissa.head (h : Mantissa cs ws fs) : ∃ c rest, cs = c :: rest ∧ Inner c := by
  cases h with
  | whole ws hne =>
    cases ws with
    | nil => exact absurd rfl hne
    | cons w ws => exact ⟨_, _, rfl, digitChar_inner w⟩
  | pointed ws fs hne =>
    cases ws with
    | nil => exact ⟨_, _, rfl, by decide, by decide, by decide, by decide⟩
    | cons w ws => exact ⟨_, _, rfl, digitChar_inner w⟩

theorem IsWord.head {word : String} {c d : Char} {rest : List Char} (h : IsWord word (c :: cs))
    (hword : word.toList = d :: rest) : c.toLower = d := by
  unfold IsWord at h
  rw [← h] at hword
  simp at hword
  exact hword.1

theorem not_word {c : Char} (hi : c.toLower ≠ 'i') (hn : c.toLower ≠ 'n') (cs : List Char) :
    ¬(IsWord "inf" (c :: cs) ∨ IsWord "infinity" (c :: cs)) ∧ ¬IsWord "nan" (c :: cs) :=
  ⟨fun h => h.elim (fun h => hi (h.head rfl)) fun h => hi (h.head rfl), fun h => hn (h.head rfl)⟩

-- ---------------------------------------------------------------------------
-- What is read
-- ---------------------------------------------------------------------------

theorem mantissa?_eq_some_iff : mantissa? cs = some (ws, fs) ↔ Mantissa cs ws fs := by
  constructor
  · intro h
    unfold mantissa? at h
    rcases Text.cut_cases (· != '.') cs with hall | ⟨left, c, right, rfl, hleft, hc⟩
    · obtain ⟨htake, hdrop⟩ := Text.cut_none hall
      simp only [htake, hdrop] at h
      split at h
      · cases h
      · rename_i hne
        simp [Option.bind_eq_some_iff, Numeral.mapM_digit?_eq_some_iff] at h
        obtain ⟨rfl, rfl⟩ := h
        exact .whole ws (by simpa using hne)
    · obtain rfl : c = '.' := by simpa using hc
      obtain ⟨htake, hdrop⟩ := Text.cut_at hleft hc right
      simp only [htake, hdrop] at h
      split at h
      · cases h
      · rename_i hne
        simp [Option.bind_eq_some_iff, Numeral.mapM_digit?_eq_some_iff] at h
        obtain ⟨rfl, rfl⟩ := h
        refine .pointed ws fs ?_
        by_contra hnil
        simp_all
  · intro h
    cases h with
    | whole ws hne =>
      obtain ⟨htake, hdrop⟩ := Text.cut_none (digits_pointless ws)
      simp only [mantissa?, htake, hdrop, Numeral.mapM_digit?]
      simp [hne]
    | pointed ws fs hne =>
      obtain ⟨htake, hdrop⟩ := Text.cut_at (c := '.') (digits_pointless ws) rfl (fs.map digitChar)
      simp only [mantissa?, htake, hdrop, List.drop_one, List.tail_cons, Numeral.mapM_digit?]
      rcases hne with hne | hne <;> simp [hne]

theorem exponent?_eq_some_iff : exponent? cs = some e ↔ Exponent cs e := by
  constructor
  · intro h
    unfold exponent? at h
    split at h
    all_goals
      simp only [Option.map_eq_some_iff, Numeral.digits?_eq_some_iff] at h
      obtain ⟨ds, ⟨hne, rfl⟩, rfl⟩ := h
    · exact .minus ds hne
    · exact .plus ds hne
    · exact .plain ds hne
  · intro h
    have hdigits {ds : List Digit} (hne : ds ≠ []) :
        Numeral.digits? (ds.map digitChar) = some ds :=
      Numeral.digits?_eq_some_iff.mpr ⟨hne, rfl⟩
    cases h with
    | plain ds hne =>
      have hsign (c : Char) (rest : List Char) (hc : ds.map digitChar = c :: rest) : Inner c := by
        obtain ⟨d, -, rfl⟩ := List.mem_map.mp (hc ▸ List.mem_cons_self : c ∈ ds.map digitChar)
        exact digitChar_inner d
      unfold exponent?
      split
      · rename_i hcs
        exact absurd rfl (hsign _ _ hcs).2.2.2
      · rename_i hcs
        exact absurd rfl (hsign _ _ hcs).2.2.1
      · simp [hdigits hne]
    | plus ds hne => simp [exponent?, hdigits hne]
    | minus ds hne => simp [exponent?, hdigits hne]

/-- What is no word is cut at the mark of its exponent. -/
theorem magnitude?_of_not_word (hinf : ¬(IsWord "inf" cs ∨ IsWord "infinity" cs))
    (hnan : ¬IsWord "nan" cs) :
    magnitude? cs = (mantissa? (cs.takeWhile unmarked)).bind fun parts =>
      (match cs.dropWhile unmarked with
        | [] => some 0
        | _ :: rest => exponent? rest).map fun e =>
          nearest (parts.1 ++ parts.2) (e - parts.2.length) := by
  have hcut : (fun c => !(c == 'e' || c == 'E')) = unmarked := rfl
  unfold IsWord at hinf hnan
  rw [magnitude?, if_neg hinf, if_neg hnan]
  simp only [hcut]
  cases cs.dropWhile unmarked with
  | nil => rfl
  | cons mark rest =>
    refine congrArg (Option.bind _) (funext fun parts => ?_)
    dsimp only
    cases exponent? rest <;> rfl

theorem magnitude?_eq_some_iff : magnitude? cs = some x ↔ Magnitude cs x := by
  constructor
  · intro h
    by_cases hinf : IsWord "inf" cs ∨ IsWord "infinity" cs
    · cases (if_pos hinf).symm.trans h
      exact .infinity hinf
    by_cases hnan : IsWord "nan" cs
    · cases ((if_neg hinf).trans (if_pos hnan)).symm.trans h
      exact .notANumber hnan
    rw [magnitude?_of_not_word hinf hnan] at h
    rcases Text.cut_cases unmarked cs with hall | ⟨left, mark, right, rfl, hleft, hmark⟩
    · obtain ⟨htake, hdrop⟩ := Text.cut_none hall
      simp only [htake, hdrop, Option.bind_eq_some_iff, Prod.exists, mantissa?_eq_some_iff,
        Option.map_some, Option.some_inj, Int.zero_sub] at h
      obtain ⟨ws, fs, hmantissa, rfl⟩ := h
      exact .number hmantissa
    · obtain ⟨htake, hdrop⟩ := Text.cut_at hleft hmark right
      simp only [htake, hdrop, Option.bind_eq_some_iff, Prod.exists, mantissa?_eq_some_iff,
        Option.map_eq_some_iff, exponent?_eq_some_iff] at h
      obtain ⟨ws, fs, hmantissa, e, he, rfl⟩ := h
      exact .scaled hmantissa (unmarked_eq_false_iff.mp hmark) he
  · intro h
    cases h with
    | infinity hinf => exact if_pos hinf
    | notANumber hnan =>
      refine (if_neg ?_).trans (if_pos hnan)
      unfold IsWord at hnan
      rw [hnan]
      decide
    | number hmantissa =>
      obtain ⟨c, rest, rfl, hi, hn, -⟩ := hmantissa.head
      obtain ⟨hinf, hnan⟩ := not_word hi hn rest
      obtain ⟨htake, hdrop⟩ := Text.cut_none hmantissa.unmarked
      simp [magnitude?_of_not_word hinf hnan, htake, hdrop, mantissa?_eq_some_iff.mpr hmantissa]
    | scaled hmantissa hmark he =>
      obtain ⟨c, rest, rfl, hi, hn, -⟩ := hmantissa.head
      obtain ⟨htake, hdrop⟩ :=
        Text.cut_at hmantissa.unmarked (unmarked_eq_false_iff.mpr hmark) _
      rw [List.cons_append] at *
      obtain ⟨hinf, hnan⟩ := not_word hi hn _
      rw [magnitude?_of_not_word hinf hnan, htake, hdrop, mantissa?_eq_some_iff.mpr hmantissa]
      simp [exponent?_eq_some_iff.mpr he]

/-- No sign begins a value without its sign. -/
theorem Magnitude.head {c : Char} (h : Magnitude (c :: cs) x) : c ≠ '+' ∧ c ≠ '-' := by
  have hword {d : Char} (hd : c.toLower = d) (hplus : '+'.toLower ≠ d) (hminus : '-'.toLower ≠ d) :
      c ≠ '+' ∧ c ≠ '-' := by
    constructor
    · rintro rfl
      exact hplus hd
    · rintro rfl
      exact hminus hd
  generalize htext : c :: cs = text at h
  cases h with
  | infinity hinf =>
    subst htext
    rcases hinf with hinf | hinf <;> exact hword (hinf.head rfl) (by decide) (by decide)
  | notANumber hnan =>
    subst htext
    exact hword (hnan.head rfl) (by decide) (by decide)
  | number hmantissa =>
    obtain ⟨d, rest, rfl, -, -, hd⟩ := hmantissa.head
    cases htext
    exact hd
  | scaled hmantissa =>
    obtain ⟨d, rest, rfl, -, -, hd⟩ := hmantissa.head
    cases htext
    exact hd

/-- A text is read as a value exactly where it spells the value. -/
theorem read?_eq_some_iff {s : String} : read? s = some x ↔ Spells s.toList x := by
  unfold read?
  constructor
  · intro h
    split at h
    · rename_i cs hs
      obtain ⟨y, hy, rfl⟩ := Option.map_eq_some_iff.mp h
      exact hs ▸ .minus (magnitude?_eq_some_iff.mp hy)
    · rename_i cs hs
      exact hs ▸ .plus (magnitude?_eq_some_iff.mp h)
    · exact .plain (magnitude?_eq_some_iff.mp h)
  · generalize s.toList = text
    rintro (h | h | h)
    · split
      · exact absurd rfl h.head.2
      · exact absurd rfl h.head.1
      · exact magnitude?_eq_some_iff.mpr h
    · exact magnitude?_eq_some_iff.mpr h
    · simp [magnitude?_eq_some_iff.mpr h]

theorem Spells.unique {s : String} {y : Float} (hx : Spells s.toList x) (hy : Spells s.toList y) :
    x = y :=
  Option.some.inj ((read?_eq_some_iff.mpr hx).symm.trans (read?_eq_some_iff.mpr hy))

end BlockGossip.Decimal
