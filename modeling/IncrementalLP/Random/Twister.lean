/-!
# The twister

A generator of 32-bit words with a state of 624 words. It is seeded from the words of a number, and
refreshes its whole state whenever the words of the state are used up.
-/
namespace IncrementalLP

structure Twister where
  words : Array UInt32
  /-- How many words of the state have been used. -/
  used : Nat

namespace Twister

/-- The number of words of a state. -/
def size : Nat := 624

/-- The distance of the words that are mixed. -/
def offset : Nat := 397

def word (words : Array UInt32) (i : Nat) : UInt32 := words.getD i 0

/-- A word with its high bits folded onto its low bits. -/
def folded (w : UInt32) : UInt32 := w ^^^ (w >>> 30)

/-- A state that is spread out from one word. -/
def spread (seed : UInt32) : Array UInt32 :=
  (List.range (size - 1)).foldl (fun words i =>
    words.push (1812433253 * folded (word words i) + UInt32.ofNat (i + 1))) #[seed]

/-- The position after a position other than the first, and the state in which the first word is
the last one again when the positions start over. -/
def advance (words : Array UInt32) (i : Nat) : Array UInt32 × Nat :=
  if i + 1 < size then (words, i + 1) else (words.setIfInBounds 0 (word words (size - 1)), 1)

/-- Mixes a word of a key into the state. -/
def absorb (key : Array UInt32) (s : Array UInt32 × Nat × Nat) : Array UInt32 × Nat × Nat :=
  let (words, i, j) := s
  let mixed := (word words i ^^^ (folded (word words (i - 1)) * 1664525)) + word key j +
    UInt32.ofNat j
  let (words, i) := advance (words.setIfInBounds i mixed) i
  (words, i, if j + 1 < key.size then j + 1 else 0)

/-- Mixes the words of the state once more. -/
def settle (s : Array UInt32 × Nat) : Array UInt32 × Nat :=
  let (words, i) := s
  let mixed := (word words i ^^^ (folded (word words (i - 1)) * 1566083941)) - UInt32.ofNat i
  advance (words.setIfInBounds i mixed) i

/-- The words of a number, the lowest first; as many as there is fuel for. -/
def wordsOf : Nat → Nat → List UInt32
  | 0, _ => []
  | fuel + 1, n =>
    if n = 0 then [] else UInt32.ofNat (n % Nat.pow 2 32) :: wordsOf fuel (n / Nat.pow 2 32)

/-- The key of a seed: the words of its magnitude, one at least. -/
def key (seed : Int) : Array UInt32 :=
  let n := seed.natAbs
  match wordsOf (n.log2 / 32 + 1) n with
  | [] => #[0]
  | words => words.toArray

/-- The generator of a seed. -/
def ofSeed (seed : Int) : Twister :=
  let key := key seed
  let (words, i, _) := (List.range (max size key.size)).foldl (fun s _ => absorb key s)
    (spread 19650218, 1, 0)
  let (words, _) := (List.range (size - 1)).foldl (fun s _ => settle s) (words, i)
  ⟨words.setIfInBounds 0 0x80000000, size⟩

/-- A state in which every word has been replaced. -/
def refresh (words : Array UInt32) : Array UInt32 :=
  (List.range size).foldl (fun words i =>
    let y := (word words i &&& 0x80000000) ||| (word words ((i + 1) % size) &&& 0x7FFFFFFF)
    let mixed := word words ((i + offset) % size) ^^^ (y >>> 1)
    words.setIfInBounds i (if y &&& 1 = 1 then mixed ^^^ 0x9908B0DF else mixed)) words

/-- A word with its bits shaken. -/
def temper (y : UInt32) : UInt32 :=
  let y := y ^^^ (y >>> 11)
  let y := y ^^^ ((y <<< 7) &&& 0x9D2C5680)
  let y := y ^^^ ((y <<< 15) &&& 0xEFC60000)
  y ^^^ (y >>> 18)

/-- The next word. -/
def next (t : Twister) : UInt32 × Twister :=
  let t := if t.used < size then t else ⟨refresh t.words, 0⟩
  (temper (word t.words t.used), { t with used := t.used + 1 })

end Twister

end IncrementalLP
