import SiteConfig.Decimal.Binary64
/-!
# Shortest decimals

The decimal with the fewest digits among those that are read back as a
given floating-point number, and of those the one nearest to it. The
decimals that are read back fill an interval around the number, up to
halfway to its neighbours. So the grids of multiples of `10 ^ e` are tried
from the coarsest, and the first that has a point in the interval has the
shortest decimal. A grid that has one in the interval has one next to the
number, so two points of each grid are tried.
-/

namespace SiteConfig

/-- The number `digits · 10 ^ exponent`. -/
structure Decimal where
  digits : Nat
  exponent : Int
deriving DecidableEq

namespace Binary64

/-- The decimals read back as a positive number, in units of a quarter of
its last place: the number itself and the ends of the interval. The lower
end is half as far off where the neighbour below has a smaller exponent. -/
structure Interval where
  low : Nat
  mid : Nat
  high : Nat
  /-- The ends belong to the interval, as a tie is read as the even number. -/
  closed : Bool

/-- The interval of a number. -/
def interval (x : Binary64) : Interval :=
  let mid := 4 * x.significand
  let below := if x.significand = Nat.pow 2 52 ∧ x.exponent ≠ -1074 then 1 else 2
  ⟨mid - below, mid, mid + 2, x.significand % 2 = 0⟩

/-- Whether `d / unit` lies in the interval, when both are brought to one
scale. -/
def Interval.contains (i : Interval) (unit d : Nat) : Bool :=
  if i.closed then i.low * unit ≤ d && d ≤ i.high * unit
  else i.low * unit < d && d < i.high * unit

/-- The point of the grid of `10 ^ e` that is read back as the number and is
nearest to it, the even one where two are. -/
def onGrid? (x : Binary64) (e : Int) : Option Nat :=
  let i := x.interval
  -- the number is `mid · unit / grid` steps of the grid
  let unit := Nat.pow 2 (x.exponent - 2).toNat * Nat.pow 10 (-e).toNat
  let grid := Nat.pow 2 (2 - x.exponent).toNat * Nat.pow 10 e.toNat
  let below := i.mid * unit / grid
  let nearest := roundDiv (i.mid * unit) grid
  let other := if nearest = below then below + 1 else below
  if i.contains unit (nearest * grid) then some nearest
  else if i.contains unit (other * grid) then some other
  else none

/-- The decimal on the coarsest grid that has one, among the grids from
`10 ^ (k - 325)` down. No number needs a finer grid than `10 ^ -324`, whose
steps are smaller than the gap between two numbers. -/
def coarsest (x : Binary64) : Nat → Decimal
  | 0 => ⟨(x.onGrid? (-325)).getD 0, -325⟩
  | k + 1 =>
    match x.onGrid? (k - 324) with
    | some d => ⟨d, k - 324⟩
    | none => coarsest x k

/-- The shortest decimal of a number other than zero, without its sign. -/
def shortest (x : Binary64) : Decimal := x.coarsest 634

end Binary64

end SiteConfig
