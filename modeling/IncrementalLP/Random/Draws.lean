import IncrementalLP.Number.Scalar
import IncrementalLP.Random.Twister
/-!
# Draws

A source of random draws: fractions from zero to below one, values between two others, and numbers
below a bound. The twister is one such source; what is generated from draws does not depend on which
source is used.
-/
namespace IncrementalLP

structure DrawSource (σ α : Type) where
  /-- A fraction from zero to below one. -/
  fraction : σ → α × σ
  /-- A value between two others. -/
  uniform : α → α → σ → α × σ
  /-- A number below a positive bound. -/
  below : Nat → σ → Nat × σ

namespace DrawSource

variable {σ α : Type}

def drawFraction (d : DrawSource σ α) : StateM σ α := d.fraction

def drawBelow (d : DrawSource σ α) (n : Nat) : StateM σ Nat := d.below n

/-- A value between two others. -/
def between (d : DrawSource σ α) (a b : α) : StateM σ α := d.uniform a b

end DrawSource

namespace Twister

/-- A fraction with 53 binary digits. -/
def fraction {α : Type} [Scalar α] (t : Twister) : α × Twister :=
  let (a, t) := t.next
  let (b, t) := t.next
  (Scalar.nearest (((a >>> 5).toNat * Nat.pow 2 26 + (b >>> 6).toNat : Nat) / Nat.pow 2 53), t)

/-- The value at a drawn fraction of the way between two others. -/
def uniform {α : Type} [Scalar α] (a b : α) (t : Twister) : α × Twister :=
  let (u, t) := fraction t
  (a + (b - a) * u, t)

/-- A number of some bits, a word at a time, the lowest word first. A part of a word is taken from
its high end. -/
def bits : Nat → Nat → Twister → Nat × Twister
  | 0, _, t => (0, t)
  | fuel + 1, k, t =>
    let (w, t) := t.next
    if k ≤ 32 then (w.toNat / Nat.pow 2 (32 - k), t)
    else
      let (rest, t) := bits fuel (k - 32) t
      (w.toNat + Nat.pow 2 32 * rest, t)

/-- Draws of as many bits as the bound has, until one is below the bound. Each is with a chance of
one half at least; should all draws fail, the last one is reduced. -/
def belowWithin (n k : Nat) : Nat → Twister → Nat × Twister
  | 0, t =>
    let (r, t) := bits (k / 32 + 1) k t
    (r % n, t)
  | tries + 1, t =>
    let (r, t) := bits (k / 32 + 1) k t
    if r < n then (r, t) else belowWithin n k tries t

/-- A number below a bound. -/
def below (n : Nat) (t : Twister) : Nat × Twister := belowWithin n (n.log2 + 1) 1000 t

/-- The twister as a source of draws. -/
def source {α : Type} [Scalar α] : DrawSource Twister α := ⟨fraction, uniform, below⟩

end Twister

end IncrementalLP
