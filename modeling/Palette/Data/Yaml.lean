import Palette.Data.Basic
import Palette.Number.Shortest

-- Data as YAML text in block style. Items of a list stand under the name of their field without
-- further indentation; a variant is a record under its tag.

namespace Palette

namespace Data

-- The words that stand for nothing, true and false.
def reservedWords : List (List Char) :=
  [['n', 'u', 'l', 'l'], ['N', 'u', 'l', 'l'], ['N', 'U', 'L', 'L'],
    ['t', 'r', 'u', 'e'], ['T', 'r', 'u', 'e'], ['T', 'R', 'U', 'E'],
    ['f', 'a', 'l', 's', 'e'], ['F', 'a', 'l', 's', 'e'], ['F', 'A', 'L', 'S', 'E']]

-- The value of a digit in bases up to sixteen, in either case.
def digitValue? (base : Nat) (c : Char) : Option Nat :=
  let value :=
    if c.isDigit then c.toNat - '0'.toNat
    else if 'a' ≤ c.toLower && c.toLower ≤ 'f' then c.toLower.toNat - 'a'.toNat + 10
    else 16
  if value < base then some value else none

-- The number that digits of a base denote.
def valueInBase? (base : Nat) (ds : List Char) : Option Nat :=
  ds.foldlM (fun n d => (digitValue? base d).map (base * n + ·)) 0

-- Whether a text reads as a whole number with a base mark, one that fits 128 bits.
def readsAsBased : List Char → Bool
  | '0' :: mark :: d :: ds =>
    let base? : Option Nat := match mark with
      | 'x' => some 16
      | 'o' => some 8
      | 'b' => some 2
      | _ => none
    (base?.bind (valueInBase? · (d :: ds))).any (· < Nat.pow 2 128)
  | _ => false

-- Whether `coefficient * 10 ^ exponent` rounds to a finite double.
def isFiniteDouble (coefficient exponent : Nat) : Bool :=
  coefficient = 0 ||
    ((Nat.toDigits 10 coefficient).length + exponent ≤ 310 &&
      coefficient * Nat.pow 10 exponent < (Nat.pow 2 54 - 1) * Nat.pow 2 970)

-- Whether letters and digits read as a finite decimal number.
def readsAsDecimal (s : List Char) : Bool :=
  let whole := s.takeWhile Char.isDigit
  match valueInBase? 10 whole, s.dropWhile Char.isDigit with
  | some coefficient, [] => !whole.isEmpty && isFiniteDouble coefficient 0
  | some coefficient, mark :: exponent =>
    !whole.isEmpty && (mark == 'e' || mark == 'E') && !exponent.isEmpty &&
      (valueInBase? 10 exponent).any (isFiniteDouble coefficient)
  | none, _ => false

-- Whether a text is a number that begins with a superfluous zero.
def readsAsPadded (s : List Char) : Bool :=
  s.all Char.isDigit && s.head? == some '0' && s.length > 1

-- A text of ASCII letters, digits and underscores, in quotes if it would read as something else without.
def yamlText (s : List Char) : List Char :=
  if reservedWords.contains s || readsAsBased s || readsAsDecimal s || readsAsPadded s then
    '\'' :: (s ++ ['\''])
  else s

-- All lines moved two places to the right.
def indented (lines : List (List Char)) : List (List Char) := lines.map (' ' :: ' ' :: ·)

-- The lines of one item of a list.
def dashed : List (List Char) → List (List Char)
  | [] => []
  | line :: rest => ('-' :: ' ' :: line) :: indented rest

mutual

-- The lines of data that stands by itself.
def yamlLines : Data → List (List Char)
  | text s => [yamlText s.toList]
  | whole n => [Nat.toDigits 10 n]
  | number x => [x.text.toList]
  | list [] => [['[', ']']]
  | list (i :: rest) => dashed (yamlLines i) ++ yamlItems rest
  | record fields => yamlFields fields
  | variant tag fields => ('!' :: tag.toList) :: indented (yamlFields fields)

-- The lines of the items of a list.
def yamlItems : List Data → List (List Char)
  | [] => []
  | i :: rest => dashed (yamlLines i) ++ yamlItems rest

-- The lines of the fields of a record.
def yamlFields : List (String × Data) → List (List Char)
  | [] => []
  | (k, text s) :: rest => (k.toList ++ ':' :: ' ' :: yamlText s.toList) :: yamlFields rest
  | (k, whole n) :: rest => (k.toList ++ ':' :: ' ' :: Nat.toDigits 10 n) :: yamlFields rest
  | (k, number x) :: rest => (k.toList ++ ':' :: ' ' :: x.text.toList) :: yamlFields rest
  | (k, list []) :: rest => (k.toList ++ [':', ' ', '[', ']']) :: yamlFields rest
  | (k, list items) :: rest => (k.toList ++ [':']) :: (yamlItems items ++ yamlFields rest)
  | (k, record fields) :: rest =>
    (k.toList ++ [':']) :: (indented (yamlFields fields) ++ yamlFields rest)
  | (k, variant tag fields) :: rest =>
    (k.toList ++ ':' :: ' ' :: '!' :: tag.toList) :: (indented (yamlFields fields) ++ yamlFields rest)

end

-- YAML, every line of it ended by a line feed.
def toYaml (d : Data) : String := String.ofList (d.yamlLines.flatMap (· ++ ['\n']))

end Data

end Palette
