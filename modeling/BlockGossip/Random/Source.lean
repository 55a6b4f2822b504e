/-!
# Random draws

What is drawn from a source of random 32-bit words, for any source: larger
words, fractions, indices, shuffles. A law about draws that holds for every
source holds for every seed. An index is drawn by refusal: words that would
favour the low indices are drawn again, at most `refusalLimit` times, so that
drawing ends for every source.
-/

namespace BlockGossip.Random

class Source (σ : Type) where
  next : σ → UInt32 × σ

variable {σ : Type} [Source σ]

/-- A 64-bit word: two words, the low half first. -/
def word64 (s : σ) : UInt64 × σ :=
  let (low, s) := Source.next s
  let (high, s) := Source.next s
  (high.toUInt64 * 4294967296 + low.toUInt64, s)

/-- A multiple of 2^-53 from zero up to one, one excluded. -/
def fraction (s : σ) : Float × σ :=
  let (w, s) := word64 s
  (Float.ofNat (w.toNat / 2048) / 9007199254740992.0, s)

/-- How often a word is refused before it is taken as it is. -/
def refusalLimit : Nat := 4096

/-- Draws until the low half of word · n is at most `zone`, and takes the high half. -/
def indexWithin (n zone : Nat) : Nat → σ → Nat × σ
  | 0, s =>
    let (w, s) := Source.next s
    (w.toNat * n / UInt32.size, s)
  | fuel + 1, s =>
    let (w, s) := Source.next s
    if w.toNat * n % UInt32.size ≤ zone then (w.toNat * n / UInt32.size, s)
    else indexWithin n zone fuel s

/-- The largest multiple of a 32-bit n by a power of two that fits 32 bits, less one. -/
def zone (n : Nat) : Nat := n * Nat.pow 2 (31 - n.log2) - 1

/-- An index below n, for n from 1 up to 2^32. -/
def index (n : Nat) (s : σ) : Nat × σ := indexWithin n (zone n) refusalLimit s

theorem indexWithin_lt {n : Nat} (hn : 0 < n) (zone fuel : Nat) (s : σ) :
    (indexWithin n zone fuel s).1 < n := by
  have high (w : UInt32) : w.toNat * n / UInt32.size < n := by
    apply Nat.div_lt_of_lt_mul
    exact Nat.mul_lt_mul_of_pos_right w.toNat_lt hn
  induction fuel generalizing s with
  | zero => exact high _
  | succ fuel ih =>
    simp only [indexWithin]
    split
    · exact high _
    · exact ih _

theorem index_lt {n : Nat} (hn : 0 < n) (s : σ) : (index n s).1 < n := indexWithin_lt hn _ _ s

/-- Swaps each place, from the last down to the second, with one at or below it. -/
def shuffleDown {α : Type} (xs : Array α) : Nat → σ → Array α × σ
  | 0, s => (xs, s)
  | i + 1, s =>
    let drawn := index (i + 2) s
    shuffleDown (xs.swapIfInBounds (i + 1) drawn.1) i drawn.2

def shuffle {α : Type} (xs : List α) (s : σ) : List α × σ :=
  let (xs, s) := shuffleDown xs.toArray (xs.length - 1) s
  (xs.toList, s)

/-- One of the elements; a draw is made for a single element too. -/
def choose {α : Type} (xs : List α) (s : σ) : Option α × σ :=
  if xs.isEmpty then (none, s)
  else
    let (i, s) := index xs.length s
    (xs[i]?, s)

def nextBelow (x : Float) : Float := Float.ofBits (x.toBits - 1)

def largestFraction : Float := 1.0 - 1.0 / 4503599627370496.0

/-- Lowers a scale until the largest draw stays within the bound. -/
def lowerScale (bound : Float) : Nat → Float → Float
  | 0, scale => scale
  | fuel + 1, scale =>
    if scale * largestFraction + (-bound) > bound then lowerScale bound fuel (nextBelow scale)
    else scale

/-- A value from -bound to bound, both included, for a positive bound. -/
def symmetric (bound : Float) (s : σ) : Float × σ :=
  let (w, s) := word64 s
  let scale := lowerScale bound refusalLimit ((bound - (-bound)) / largestFraction)
  let unit := Float.ofNat (w.toNat / 4096) / 4503599627370496.0
  (unit * scale + (-bound), s)

end BlockGossip.Random
