import DcopSearch.Random.Generator

/-! The ChaCha stream with twelve rounds as a generator.  The sixteen words of a block are kept as
four columns of four, so that a round on the columns maps one function over them and a round on the
diagonals is the same between two turns of the rows.  `ChaCha.draw` reads the blocks one after the
other as a stream of 64-bit words; `ChaCha.pickFrom` turns words into indices without bias, by
refusing the words that would favour some index. -/

namespace DcopSearch.ChaCha

structure Column where
  a : UInt32
  b : UInt32
  c : UInt32
  d : UInt32

/-- Sixteen words, by columns. -/
structure Square where
  first : Column
  second : Column
  third : Column
  fourth : Column

def rotateLeft (x shift : UInt32) : UInt32 := (x <<< shift) ||| (x >>> (32 - shift))

/-- The quarter round: additions, exclusive ors and rotations by 16, 12, 8 and 7. -/
def Column.quarterRound (q : Column) : Column :=
  let a := q.a + q.b
  let d := rotateLeft (q.d ^^^ a) 16
  let c := q.c + d
  let b := rotateLeft (q.b ^^^ c) 12
  let a := a + b
  let d := rotateLeft (d ^^^ a) 8
  let c := c + d
  let b := rotateLeft (b ^^^ c) 7
  ⟨a, b, c, d⟩

def Column.add (p q : Column) : Column := ⟨p.a + q.a, p.b + q.b, p.c + q.c, p.d + q.d⟩

def Square.columnRound (s : Square) : Square :=
  ⟨s.first.quarterRound, s.second.quarterRound, s.third.quarterRound, s.fourth.quarterRound⟩

/-- Turns the second, third and fourth row by one, two and three places, which brings each diagonal
into a column. -/
def Square.diagonals (s : Square) : Square :=
  ⟨⟨s.first.a, s.second.b, s.third.c, s.fourth.d⟩,
   ⟨s.second.a, s.third.b, s.fourth.c, s.first.d⟩,
   ⟨s.third.a, s.fourth.b, s.first.c, s.second.d⟩,
   ⟨s.fourth.a, s.first.b, s.second.c, s.third.d⟩⟩

def Square.ofDiagonals (s : Square) : Square :=
  ⟨⟨s.first.a, s.fourth.b, s.third.c, s.second.d⟩,
   ⟨s.second.a, s.first.b, s.fourth.c, s.third.d⟩,
   ⟨s.third.a, s.second.b, s.first.c, s.fourth.d⟩,
   ⟨s.fourth.a, s.third.b, s.second.c, s.first.d⟩⟩

theorem Square.ofDiagonals_diagonals (s : Square) : s.diagonals.ofDiagonals = s := rfl

theorem Square.diagonals_ofDiagonals (s : Square) : s.ofDiagonals.diagonals = s := rfl

def Square.doubleRound (s : Square) : Square :=
  s.columnRound.diagonals.columnRound.ofDiagonals

def Square.add (s t : Square) : Square :=
  ⟨s.first.add t.first, s.second.add t.second, s.third.add t.third, s.fourth.add t.fourth⟩

/-- The eight words of a key, as the second and the third row of a block. -/
structure Key where
  second : Column
  third : Column

/-- The block of a key before its rounds: the four words of the constant, the key, the counter with
its low word first, and two zero words. -/
def Key.square (key : Key) (counter : UInt64) : Square :=
  ⟨⟨0x61707865, key.second.a, key.third.a, counter.toUInt32⟩,
   ⟨0x3320646e, key.second.b, key.third.b, (counter >>> 32).toUInt32⟩,
   ⟨0x79622d32, key.second.c, key.third.c, 0⟩,
   ⟨0x6b206574, key.second.d, key.third.d, 0⟩⟩

/-- The block of a key: six double rounds, and the start added to the outcome. -/
def Key.block (key : Key) (counter : UInt64) : Square :=
  let start := key.square counter
  (Nat.repeat Square.doubleRound 6 start).add start

def joinWords (low high : UInt32) : UInt64 := low.toUInt64 ||| (high.toUInt64 <<< 32)

def Square.words (s : Square) : List UInt64 :=
  [joinWords s.first.a s.second.a, joinWords s.third.a s.fourth.a,
   joinWords s.first.b s.second.b, joinWords s.third.b s.fourth.b,
   joinWords s.first.c s.second.c, joinWords s.third.c s.fourth.c,
   joinWords s.first.d s.second.d, joinWords s.third.d s.fourth.d]

/-- Word `position` of the stream of a key.  The counter of the blocks has 64 bits, so the stream
repeats after `2 ^ 67` words. -/
def Key.draw (key : Key) (position : Nat) : UInt64 :=
  (key.block (UInt64.ofNat (position / 8))).words[position % 8]?.getD 0

/-- One step of the congruential generator that expands a seed. -/
def expandStep (state : UInt64) : UInt64 := state * 6364136223846793005 + 11634580027462260723

/-- A word of the key: the middle bits of the state joined with higher ones and rotated to the right
by its five highest. -/
def expandWord (state : UInt64) : UInt32 :=
  let x := (((state >>> 18) ^^^ state) >>> 27).toUInt32
  let shift := (state >>> 59).toUInt32
  (x >>> shift) ||| (x <<< ((32 - shift) % 32))

def expandState (seed : UInt64) (n : Nat) : UInt64 := Nat.repeat expandStep n seed

def Key.ofSeed (seed : UInt64) : Key :=
  let word n := expandWord (expandState seed n)
  ⟨⟨word 1, word 2, word 3, word 4⟩, ⟨word 5, word 6, word 7, word 8⟩⟩

/-- A key, and how many words of its stream were drawn. -/
structure Stream where
  key : Key
  drawn : Nat

/-- `n` shifted to the left until its highest bit is the highest of a word, less one.  The low half
of the product of a word and `n` is accepted up to here. -/
def zone (n : Nat) : Nat := (n <<< (63 - n.log2)) - 1

def scaleWord {n : Nat} (h : 0 < n) (word : UInt64) : Fin n :=
  ⟨word.toNat * n / UInt64.size, by
    refine Nat.div_lt_of_lt_mul ?_
    exact Nat.mul_lt_mul_of_pos_right word.toNat_lt h⟩

/-- An index below `n` from at most `tries` words: the first word whose product with `n` has a low
half within the zone, scaled down.  Index zero if all words are refused. -/
def pickFrom (n : Nat) (h : 0 < n) : Nat → Stream → Fin n × Stream
  | 0, s => (⟨0, h⟩, s)
  | tries + 1, s =>
    let word := s.key.draw s.drawn
    let next := { s with drawn := s.drawn + 1 }
    if word.toNat * n % UInt64.size ≤ zone n then (scaleWord h word, next)
    else pickFrom n h tries next

/-- The number of words after which the stream repeats.  A word that is accepted is found by then or
never. -/
def period : Nat := Nat.pow 2 67

instance : Generator Stream where
  ofSeed seed := ⟨Key.ofSeed seed, 0⟩
  pick n h s := pickFrom n h period s

end DcopSearch.ChaCha
