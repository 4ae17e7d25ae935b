import Palette.Number.Binary32

-- The shortest decimal text of a number: the fewest digits that read back to it, and of those the
-- nearest to it. The number's two neighbours on ever finer decimal grids are tried until one reads
-- back, so no coarser grid holds a decimal that does.

namespace Palette

namespace Binary32

-- Grids are numbered by their step: grid `n` holds the multiples of `10 ^ (n - 45)`.
def finestGrid : Int := -45

-- Whether the given point of a grid rounds to this many units.
def readsBack (units grid point : Nat) : Bool :=
  roundUnits (point * Nat.pow 10 grid * unitsPerOne) (Nat.pow 10 45) = units

-- The neighbour of the number on a grid that reads back; the nearer one if both do.
def onGrid? (units grid : Nat) : Option Nat :=
  let num := units * Nat.pow 10 45
  let den := unitsPerOne * Nat.pow 10 grid
  let near := roundDiv num den
  let far := if near = num / den then near + 1 else num / den
  if readsBack units grid near then some near
  else if readsBack units grid far then some far
  else none

-- The point found on the coarsest grid that has one, not coarser than the given grid, or a last resort
-- on the finest grid.
def coarsestFrom (find? : Nat → Option Nat) (last : Nat) : Nat → Nat × Nat
  | 0 => (last, 0)
  | grid + 1 =>
    match find? (grid + 1) with
    | some point => (point, grid + 1)
    | none => coarsestFrom find? last grid

-- The point that reads back on the coarsest grid that has one, not coarser than the given grid.
def shortestFrom (units : Nat) (grid : Nat) : Nat × Nat :=
  coarsestFrom (onGrid? units) (roundDiv (units * Nat.pow 10 45) unitsPerOne) grid

-- No finite number reaches the second point of this grid.
def coarsestGrid : Nat := 84

-- Digits with the place of the leading one as a power of ten. Places from -6 to 12 are written
-- positionally, always with a fraction; others with an exponent, its sign and no padding.
def layout (digits : List Char) (place : Int) : List Char :=
  if -6 ≤ place ∧ place ≤ 12 then
    if place < 0 then
      '0' :: '.' :: (List.replicate (-place - 1).toNat '0' ++ digits)
    else
      let whole := place.toNat + 1
      let fraction := digits.drop whole
      (digits.take whole ++ List.replicate (whole - digits.length) '0') ++
        '.' :: (if fraction.isEmpty then ['0'] else fraction)
  else
    let fraction := digits.drop 1
    digits.take 1 ++ (if fraction.isEmpty then [] else '.' :: fraction) ++
      'e' :: (if place < 0 then '-' else '+') :: Nat.toDigits 10 place.natAbs

-- The text of a finite number's magnitude.
def magnitudeText (units : Nat) : List Char :=
  if units = 0 then ['0', '.', '0']
  else
    let (point, grid) := shortestFrom units coarsestGrid
    let digits := Nat.toDigits 10 point
    layout digits (finestGrid + grid + digits.length - 1)

-- The shortest text that reads back to the number; `null` for what no numeral denotes.
def text : Binary32 → String
  | .finite negative units _ =>
    String.ofList ((if negative then ['-'] else []) ++ magnitudeText units)
  | _ => "null"

end Binary32

end Palette
