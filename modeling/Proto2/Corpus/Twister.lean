/-!
The Mersenne twister MT19937.

The generator keeps 624 words of 32 bits.  It hands them out one at a time, tempered, and
when all are used it makes the next 624 from them.  A seed of any size initialises the words:
its 32-bit digits, least significant first, are the key.
-/

namespace Proto2

-- Powers of natural numbers are those of the core library, whatever else is in scope.
attribute [local instance (2000)] instPowNat

/-- The words of a twister, and how many of them have been handed out. -/
structure Twister where
  words : Array UInt32
  used : Nat
deriving Repr

namespace Twister

/-- The number of words. -/
def size : Nat := 624

/-- The distance to the word that the next word of a place is mixed with. -/
def middle : Nat := 397

/-- A word by its place, which is taken round the array. -/
def word (words : Array UInt32) (i : Nat) : UInt32 :=
  words.getD (i % size) 0

/-- A word with its upper two bits mixed into its lower ones. -/
def fold (w : UInt32) : UInt32 :=
  w ^^^ (w >>> 30)

/-- The words initialised from one word. -/
def ofWord (seed : UInt32) : Array UInt32 :=
  (List.range (size - 1)).foldl (fun words i =>
    words.push (1812433253 * fold (word words i) + UInt32.ofNat (i + 1))) #[seed]

/-- A place that steps through all places but the first, over and over; on its way round, the
last word is copied to the first place. -/
def step (words : Array UInt32) (i : Nat) : Array UInt32 × Nat :=
  if size ≤ i + 1 then (words.set! 0 (word words (size - 1)), 1) else (words, i + 1)

/-- One round of mixing a key into the words, at place `i` and with the key's digit `j`. -/
def mixKey (key : Array UInt32) : Array UInt32 × Nat × Nat → Array UInt32 × Nat × Nat
  | (words, i, j) =>
    let mixed := (word words i ^^^ (fold (word words (i - 1)) * 1664525)) + key.getD j 0 +
      UInt32.ofNat j
    let (words, i) := step (words.set! i mixed) i
    (words, i, if key.size ≤ j + 1 then 0 else j + 1)

/-- One round of mixing the words among themselves, at place `i`. -/
def mixPlaces : Array UInt32 × Nat → Array UInt32 × Nat
  | (words, i) =>
    let mixed := (word words i ^^^ (fold (word words (i - 1)) * 1566083941)) - UInt32.ofNat i
    step (words.set! i mixed) i

/-- The same step so many times. -/
def iterate {α : Type} (f : α → α) : Nat → α → α
  | 0, a => a
  | n + 1, a => iterate f n (f a)

/-- The twister with the given key. -/
def ofKey (key : Array UInt32) : Twister :=
  let (words, i, _) := iterate (mixKey key) (max size key.size) (ofWord 19650218, 1, 0)
  let (words, _) := iterate mixPlaces (size - 1) (words, i)
  ⟨words.set! 0 0x80000000, size⟩

/-- The 32-bit digits of a number, least significant first, in at most the given number. -/
def digitsWithin : Nat → Nat → List UInt32
  | 0, _ => []
  | fuel + 1, n =>
    if n < 2 ^ (32 : Nat) then [UInt32.ofNat n]
    else UInt32.ofNat n :: digitsWithin fuel (n / 2 ^ (32 : Nat))

/-- The twister with the given seed, whose sign does not count. -/
def ofSeed (seed : Int) : Twister :=
  ofKey (digitsWithin (Nat.log2 seed.natAbs + 1) seed.natAbs).toArray

/-- The next word at a place. -/
def renewed (words : Array UInt32) (i : Nat) : UInt32 :=
  let joined := (word words i &&& 0x80000000) ||| (word words (i + 1) &&& 0x7fffffff)
  let twisted := if joined &&& 1 = 0 then joined >>> 1 else (joined >>> 1) ^^^ 0x9908b0df
  word words (i + middle) ^^^ twisted

/-- The next words, each made from those before it. -/
def renew (words : Array UInt32) : Array UInt32 :=
  (List.range size).foldl (fun words i => words.set! i (renewed words i)) words

/-- A word as it is handed out. -/
def temper (w : UInt32) : UInt32 :=
  let w := w ^^^ (w >>> 11)
  let w := w ^^^ ((w <<< 7) &&& 0x9d2c5680)
  let w := w ^^^ ((w <<< 15) &&& 0xefc60000)
  w ^^^ (w >>> 18)

/-- The next word, and the twister after it. -/
def next (t : Twister) : UInt32 × Twister :=
  let t := if size ≤ t.used then ⟨renew t.words, 0⟩ else t
  (temper (word t.words t.used), { t with used := t.used + 1 })

end Twister

end Proto2
