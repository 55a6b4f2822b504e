import BlockGossip.Random.Source

/-!
# A seeded stream of random words

The stream cipher ChaCha with twelve rounds as a source of random words: a key
of eight words is spread from a 64-bit seed, and the blocks of the stream are
numbered from zero by a 64-bit counter. The words of a block are drawn in
order.
-/

namespace BlockGossip.Random

abbrev Grid := Vector UInt32 16

def rotateLeft (w : UInt32) (count : UInt32) : UInt32 := (w <<< count) ||| (w >>> (32 - count))

def quarterRound (g : Grid) (a b c d : Fin 16) : Grid :=
  let wa := g[a] + g[b]
  let wd := rotateLeft (g[d] ^^^ wa) 16
  let wc := g[c] + wd
  let wb := rotateLeft (g[b] ^^^ wc) 12
  let wa := wa + wb
  let wd := rotateLeft (wd ^^^ wa) 8
  let wc := wc + wd
  let wb := rotateLeft (wb ^^^ wc) 7
  (((g.set a wa).set b wb).set c wc).set d wd

/-- A round on the columns and a round on the diagonals. -/
def doubleRound (g : Grid) : Grid :=
  let g := quarterRound g 0 4 8 12
  let g := quarterRound g 1 5 9 13
  let g := quarterRound g 2 6 10 14
  let g := quarterRound g 3 7 11 15
  let g := quarterRound g 0 5 10 15
  let g := quarterRound g 1 6 11 12
  let g := quarterRound g 2 7 8 13
  quarterRound g 3 4 9 14

/-- The grid that a block starts from: four constants, the key, the counter and
a stream number of zero. -/
def startGrid (key : Vector UInt32 8) (block : UInt64) : Grid :=
  #v[0x61707865, 0x3320646E, 0x79622D32, 0x6B206574,
    key[0], key[1], key[2], key[3], key[4], key[5], key[6], key[7],
    block.toUInt32, (block >>> 32).toUInt32, 0, 0]

def blockWords (key : Vector UInt32 8) (block : UInt64) : List UInt32 :=
  let start := startGrid key block
  let mixed := Nat.repeat doubleRound 6 start
  (Vector.zipWith (· + ·) mixed start).toList

/-- The stream: its key, the number of its next block and the words left of the
last one. -/
structure ChaCha where
  key : Vector UInt32 8
  block : UInt64
  rest : List UInt32

instance : Source ChaCha where
  next s :=
    match s.rest with
    | w :: rest => (w, { s with rest })
    | [] =>
      match blockWords s.key s.block with
      | w :: rest => (w, { s with block := s.block + 1, rest })
      | [] => (0, s)

/-- One step of spreading a seed: the next state and a word of it. -/
def spread (state : UInt64) : UInt64 × UInt32 :=
  let state := state * 6364136223846793005 + 11634580027462260723
  let mixed : UInt32 := (((state >>> 18) ^^^ state) >>> 27).toUInt32
  let count : UInt32 := (state >>> 59).toUInt32
  (state, (mixed >>> count) ||| (mixed <<< ((32 - count) % 32)))

def spreadWords : Nat → UInt64 → List UInt32
  | 0, _ => []
  | n + 1, state => (spread state).2 :: spreadWords n (spread state).1

def ChaCha.ofSeed (seed : UInt64) : ChaCha :=
  let words := spreadWords 8 seed
  ⟨Vector.ofFn fun i => words.getD i.val 0, 0, []⟩

end BlockGossip.Random
