import Palette.Sheet.Lexical

-- Numerals for alpha: a sign, digits with a point somewhere among them, and an exponent, all but one
-- digit optional; or `nan` or `inf` in letters of either case. An exponent mark without digits behind
-- it spoils the numeral.

namespace Palette

-- What a numeral denotes, before rounding.
inductive Numeral where
  | decimal (negative : Bool) (coefficient : Nat) (exponent : Int)
  | infinity
  | nan
  deriving DecidableEq, Inhabited

namespace Numeral

def toBinary32 : Numeral → Binary32
  | .decimal negative coefficient exponent => .ofDecimal negative coefficient exponent
  | .infinity => .infinite false
  | .nan => .nan

-- Whether a minus sign stands here, and the text behind the sign, if there is one.
def splitSign : List Char → Bool × List Char
  | '-' :: rest => (true, rest)
  | '+' :: rest => (false, rest)
  | s => (false, s)

-- The digits here, and the text behind them.
def splitDigits (s : List Char) : List Char × List Char :=
  (s.takeWhile Char.isDigit, s.dropWhile Char.isDigit)

-- The digits behind a point, and the text behind them.
def splitFraction : List Char → List Char × List Char
  | '.' :: rest => splitDigits rest
  | s => ([], s)

-- The exponent that stands here, zero if none does; nothing if it has no digits.
def splitExponent? : List Char → Option (Int × List Char)
  | c :: rest =>
    if c == 'e' || c == 'E' then
      let (negative, unsigned) := splitSign rest
      let (ds, rest') := splitDigits unsigned
      if ds.isEmpty then none
      else
        let size : Int := Reader.decimalValue ds
        some (if negative then -size else size, rest')
    else some (0, c :: rest)
  | [] => some (0, [])

-- A decimal numeral, and the text behind it.
def splitDecimal? (s : List Char) : Option (Numeral × List Char) :=
  let (negative, unsigned) := splitSign s
  let (whole, rest) := splitDigits unsigned
  let (fraction, rest') := splitFraction rest
  if whole.isEmpty && fraction.isEmpty then none
  else
    match splitExponent? rest' with
    | none => none
    | some (exponent, rest'') =>
      some (.decimal negative (Reader.decimalValue (whole ++ fraction)) (exponent - fraction.length),
        rest'')

-- `nan` or `inf`, and the text behind it.
def splitSpecial? : List Char → Option (Numeral × List Char)
  | a :: b :: c :: rest =>
    match a.toLower, b.toLower, c.toLower with
    | 'n', 'a', 'n' => some (.nan, rest)
    | 'i', 'n', 'f' => some (.infinity, rest)
    | _, _, _ => none
  | _ => none

-- A numeral, and the text behind it.
def split? (s : List Char) : Option (Numeral × List Char) :=
  (splitDecimal? s).or (splitSpecial? s)

end Numeral

end Palette
