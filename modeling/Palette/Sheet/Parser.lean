import Palette.Sheet.Numeral

-- The grammar of color sheets. Alternatives are told apart by how they begin: `$`, a name with `{` or
-- a name with `:` for items, and `#`, `rgba(`, `$` or `(` for values. Once the beginning is read the
-- rest is committed to, so that a mistake is reported where it is made.

namespace Palette

namespace Reader

def isHexDigit (c : Char) : Bool :=
  c.isDigit || ('a' ≤ c && c ≤ 'f') || ('A' ≤ c && c ≤ 'F')

-- The value of a hex digit of either case.
def hexValue (c : Char) : Nat :=
  if c.isDigit then c.toNat - '0'.toNat else c.toLower.toNat - 'a'.toNat + 10

def hexPair : Reader UInt8
  | a :: b :: rest =>
    if isHexDigit a && isHexDigit b then .accepted (16 * hexValue a + hexValue b).toUInt8 rest
    else .rejected ⟨a :: b :: rest, [.hexPair]⟩
  | s => .rejected ⟨s, [.hexPair]⟩

-- A whole percentage up to 100, as a fraction. A larger one is an error at its first digit.
def percentage : Reader Binary32 :=
  fromStart fun start => do
    let ds ← digits
    character '%'
    if decimalValue ds ≤ 100 then return .ofRatio false (decimalValue ds) 100
    else abortAt start .percentageRange

-- A percentage behind at least one blank; without one, full opacity.
def opacity : Reader Binary32 := do
  let written ← optional do
    let _ ← many1 isBlank []
    percentage
  return written.getD .one

-- A color in hex notation, with its alpha written as an opacity.
def hexColor : Reader Color := do
  character '#'
  let (red, green, blue) ← commit do
    let red ← hexPair
    let green ← hexPair
    let blue ← hexPair
    return (red, green, blue)
  let alpha ← opacity
  return ⟨red, green, blue, alpha⟩

-- A whole number up to 255.
def channel : Reader UInt8 :=
  refine digits fun ds =>
    if decimalValue ds ≤ 255 then .ok (decimalValue ds).toUInt8 else .error .channelRange

-- A numeral. Where there is none, or a spoiled one, an alpha value was expected.
def numeral : Reader Numeral := fun s =>
  match Numeral.split? s with
  | none => .rejected ⟨s, [.alpha]⟩
  | some (n, rest) => .accepted n rest

-- A numeral between zero and one. Any other one is an error where it begins.
def alpha : Reader Binary32 :=
  fromStart fun start => do
    let n ← numeral
    if n.toBinary32.InUnitInterval then return n.toBinary32
    else abortAt start .alphaRange

-- The opening of a color written by its channels.
def channelsOpening : Reader Unit
  | 'r' :: 'g' :: 'b' :: 'a' :: '(' :: rest => .accepted () rest
  | s => .rejected ⟨s, [.channels]⟩

-- A color written by its channels.
def channelColor : Reader Color := do
  channelsOpening
  commit do
    blanks
    let red ← channel
    separator ','
    let green ← channel
    separator ','
    let blue ← channel
    separator ','
    let alpha ← alpha
    blanks
    character ')'
    return ⟨red, green, blue, alpha⟩

def reference : Reader Reference := do
  character '$'
  let n ← commit name
  let opacity ← opacity
  return ⟨n, opacity⟩

def slot : Reader Slot :=
  orElse (orElse (.color <$> hexColor) (.color <$> channelColor)) (.reference <$> reference)

-- A name, a colon and what the reader reads, which is committed to.
def labelled (p : Reader α) : Reader (String × α) := do
  let n ← name
  separator ':'
  let a ← commit p
  return (n, a)

-- The pair that two labelled slots make, in either order.
def pairOfLabels (first second : String × Slot) : Except Expectation Value :=
  if first.1 = "light" ∧ second.1 = "dark" then .ok (.lightDark first.2 second.2)
  else if first.1 = "dark" ∧ second.1 = "light" then .ok (.lightDark second.2 first.2)
  else .error (.lightAndDark first.1 second.1)

-- Two labelled slots and the closing parenthesis.
def labelledSlots : Reader ((String × Slot) × (String × Slot)) := do
  let first ← labelled slot
  separator ','
  let second ← labelled slot
  blanks
  character ')'
  return (first, second)

-- A light and a dark slot in parentheses. Wrong labels are an error at the first of them.
def pair : Reader Value := do
  character '('
  commit do
    blanks
    refine labelledSlots fun (first, second) => pairOfLabels first second

def value : Reader Value :=
  orElse (.plain <$> slot) pair

def declaration : Reader Declaration := do
  let (n, v) ← labelled value
  return ⟨n, v⟩

-- A variable, all of which is committed to behind its `$`.
def variableDeclaration : Reader Declaration := do
  character '$'
  commit do
    let n ← name
    separator ':'
    let v ← value
    return ⟨n, v⟩

def groupOpening : Reader String := do
  let n ← name
  blanks
  character '{'
  return n

-- A group with room for so many levels, itself included. Where there is none its opening is an error.
def group : Nat → Reader Item
  | 0 =>
    fromStart fun start => do
      let _ ← groupOpening
      abortAt start .nestingLimit
  | levels + 1 => do
    let n ← groupOpening
    let items ← commit do
      trivia
      manyTill
        (do
          let i ← orElse (group levels) (.declaration <$> declaration)
          itemEnd (character '}')
          return i)
        (character '}')
    return .group n items

-- A variable, a group or a declaration, tried in this order.
def topItem : Reader TopItem :=
  orElse
    (orElse (.variable <$> variableDeclaration) (.item <$> group maxNesting))
    ((.item ∘ .declaration) <$> declaration)

def sheet : Reader Sheet := do
  trivia
  let items ← manyTill
    (do
      let i ← topItem
      itemEnd endOfInput
      return i)
    endOfInput
  return ⟨items⟩

end Reader

-- Reads a color sheet from the characters of its text.
def Sheet.parseChars (source : List Char) : Except ParseError Sheet :=
  match Reader.sheet source with
  | .accepted sheet _ => .ok sheet
  | .rejected fault => .error (.atRest source fault.rest fault.expected)
  | .aborted fault => .error (.atRest source fault.rest fault.expected)

def Sheet.parse (source : String) : Except ParseError Sheet := parseChars source.toList

end Palette
