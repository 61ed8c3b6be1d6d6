import StyleAudit.Decimal.Dyadic

/-!
# The fewest decimal digits that read back

A floating-point number is what every real number in some interval around it rounds to.
The decimal written for it is the one with the fewest digits in that interval, and of those
the nearest to the number.

The search goes from coarse decimal grids to fine ones.  The points of a grid that matter
are the two next to the number, for if the interval holds any point of the grid it holds one
of those two.
-/

namespace StyleAudit.Decimal

/-- A decimal: `digits * 10 ^ exponent`. -/
structure Digits where
  digits : Nat
  exponent : Int
  deriving DecidableEq, Repr

/-- The reals that round to a number, as multiples of a quarter of the last binary place:
from `4 * mantissa - below` to `4 * mantissa + 2`, ends included or not. -/
structure Rounding where
  number : Dyadic
  /-- How far the interval reaches below the number. -/
  below : Nat
  /-- Whether the ends of the interval round to the number as well. -/
  closed : Bool

namespace Rounding

/-- The interval of a number of the given precision in bits.  Right above a power of two the
numbers lie twice as dense below as above.  A tie is rounded to the even mantissa. -/
def ofDyadic (precision : Nat) (smallest : Int) (d : Dyadic) : Rounding :=
  ⟨d, if d.mantissa = Nat.pow 2 (precision - 1) ∧ smallest < d.exponent then 1 else 2,
    d.mantissa % 2 = 0⟩

/-- `x / 4` binary places, scaled so that it can be compared with a decimal on the grid
`10 ^ s`. -/
def scaled (r : Rounding) (s : Int) (x : Nat) : Nat :=
  x * Nat.pow 2 (r.number.exponent - 2).toNat * Nat.pow 10 (-s).toNat

/-- The step of the grid `10 ^ s` in the scale of `scaled`. -/
def step (r : Rounding) (s : Int) : Nat :=
  Nat.pow 10 s.toNat * Nat.pow 2 (2 - r.number.exponent).toNat

/-- Whether the decimal `g * 10 ^ s` rounds to the number. -/
def holds (r : Rounding) (s : Int) (g : Nat) : Bool :=
  let low := r.scaled s (4 * r.number.mantissa - r.below)
  let high := r.scaled s (4 * r.number.mantissa + 2)
  let x := g * r.step s
  if r.closed then low ≤ x && x ≤ high else low < x && x < high

/-- The decimal on the grid `10 ^ s` next to the number that rounds to it, if one does; of
two the nearer, and the even one on a tie. -/
def onGrid? (r : Rounding) (s : Int) : Option Digits :=
  let value := r.scaled s (4 * r.number.mantissa)
  let g := value / r.step s
  let lower := r.holds s g && 0 < g
  let upper := r.holds s (g + 1)
  if lower && upper then some ⟨roundHalfEven value (r.step s), s⟩
  else if lower then some ⟨g, s⟩
  else if upper then some ⟨g + 1, s⟩
  else none

/-- The first grid that has such a decimal, from `10 ^ s` on to finer ones. -/
def search (r : Rounding) : Nat → Int → Digits
  | 0, s => ⟨0, s⟩
  | n + 1, s => (r.onGrid? s).getD (search r n (s - 1))

/-- The decimal with the fewest digits that rounds to the number. -/
def shortest (r : Rounding) : Digits :=
  let size := (Nat.log2 r.number.mantissa + 1 : Int) + r.number.exponent
  let top := size.toNat / 3 + 1
  r.search (top + r.number.exponent.natAbs + 3) top

end Rounding

/-- The decimal with the fewest digits that reads back as the given finite
single-precision number, sign aside. -/
def shortestSingle (x : Float32) : Digits :=
  (Rounding.ofDyadic 24 (-149) (.ofSingle x)).shortest

end StyleAudit.Decimal
