import Palette.Sheet.Basic
import Palette.Sheet.Location

-- What is said of a text that is no color sheet: where it goes wrong, what could have stood there and
-- what was found instead.

namespace Palette

-- Something that a sheet could go on with.
inductive Expectation where
  | character (c : Char)
  | name
  | lineBreak
  | endOfInput
  | hexPair
  | channels
  | channelRange
  | percentageRange
  | alpha
  | alphaRange
  | nestingLimit
  | lightAndDark (first second : String)
  deriving DecidableEq, Inhabited

-- How an expectation is named; characters of a sheet stand in quotes.
def Expectation.text : Expectation → String
  | .character c => "'" ++ c.toString ++ "'"
  | .name => "identifier"
  | .lineBreak => "line break"
  | .endOfInput => "end of input"
  | .hexPair => "two hex digits"
  | .channels => "'rgba('"
  | .channelRange => "integer between 0 and 255"
  | .percentageRange => "percentage between 0% and 100%"
  | .alpha => "alpha value"
  | .alphaRange => "alpha value between 0 and 1"
  | .nestingLimit => s!"at most {maxNesting} nested rulesets"
  | .lightAndDark first second =>
    "colorset labels 'light' and 'dark' (got '" ++ first ++ "' and '" ++ second ++ "')"

-- All that was expected at one place, in the order in which it was tried.
def Expectation.listText : List Expectation → String
  | [] => "valid input"
  | [one] => one.text
  | many => "one of " ++ ", ".intercalate (many.map text)

-- What stands at a place: nothing, a line break, a short rest of a line or the start of a long one.
inductive Found where
  | endOfInput
  | lineBreak
  | line (text : List Char)
  | lineStart (text : List Char)
  deriving DecidableEq, Inhabited

namespace Found

-- Up to the next line break, which is a line feed with or without a carriage return before it.
def firstLine : List Char → List Char
  | [] => []
  | '\n' :: _ => []
  | '\r' :: '\n' :: _ => []
  | c :: rest => c :: firstLine rest

-- Longer rests of a line are cut to this many characters.
def maxExcerpt : Nat := 16

-- What some text begins with.
def ofText : List Char → Found
  | [] => .endOfInput
  | '\n' :: _ => .lineBreak
  | text =>
    let line := firstLine text
    if line.length ≤ maxExcerpt then .line line else .lineStart (line.take maxExcerpt)

-- Text that was found stands in quotes, with dots where it is cut.
def text : Found → String
  | .endOfInput => "end of input"
  | .lineBreak => "line break"
  | .line text => "'" ++ String.ofList text ++ "'"
  | .lineStart text => "'" ++ String.ofList text ++ "...'"

end Found

-- Why a text is no color sheet.
structure ParseError where
  location : Location
  expected : List Expectation
  found : Found
  deriving DecidableEq, Inhabited

namespace ParseError

-- The error at the place where only `rest` is left of a text.
def atRest (source rest : List Char) (expected : List Expectation) : ParseError where
  location := .after (source.take (source.length - rest.length))
  expected := expected
  found := .ofText rest

-- The line and column, what was expected there, and what was found.
def message (e : ParseError) : String :=
  e.location.display ++ ": expected " ++ Expectation.listText e.expected ++
    ", found " ++ e.found.text

end ParseError

end Palette
