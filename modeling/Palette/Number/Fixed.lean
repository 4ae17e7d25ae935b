import Palette.Number.Binary32

-- Numbers with a fixed count of decimal places. The exact value is rounded, a tie going to the even
-- last digit, and the sign is kept even when only zeros are left.

namespace Palette

namespace Binary32

-- The digits of `n` with a point before the last `places` of them, and at least one before it.
def pointed (places n : Nat) : List Char :=
  let digits := Nat.toDigits 10 n
  let padded := List.replicate (places + 1 - digits.length) '0' ++ digits
  padded.take (padded.length - places) ++ '.' :: padded.drop (padded.length - places)

-- The number with this many decimal places, of which there is at least one.
def fixed (places : Nat) : Binary32 → String
  | .nan => "NaN"
  | .infinite negative => if negative then "-inf" else "inf"
  | .finite negative units _ =>
    String.ofList ((if negative then ['-'] else []) ++
      pointed places (roundDiv (units * Nat.pow 10 places) unitsPerOne))

end Binary32

end Palette
