import Palette.Sheet.Reader

-- The small pieces of a sheet: blanks, line breaks, comments, names and separators. Blanks are spaces
-- and tabs; white space are blanks and line breaks; a comment runs from two slashes to the end of its
-- line, and is none if a carriage return without a line feed follows it.

namespace Palette

namespace Reader

def isBlank (c : Char) : Bool := c == ' ' || c == '\t'

def isLineBreak (c : Char) : Bool := c == '\r' || c == '\n'

-- The text behind the comment that stands here.
def afterComment? : List Char → Option (List Char)
  | '/' :: '/' :: text =>
    match text.dropWhile (!isLineBreak ·) with
    | '\r' :: '\n' :: rest => some ('\r' :: '\n' :: rest)
    | '\r' :: _ => none
    | rest => some rest
  | _ => none

theorem length_dropWhile_le (test : Char → Bool) (s : List Char) :
    (s.dropWhile test).length ≤ s.length :=
  (List.dropWhile_suffix test).length_le

theorem afterComment?_length {s rest : List Char} (h : afterComment? s = some rest) :
    rest.length < s.length := by
  unfold afterComment? at h
  split at h
  case h_1 text =>
    have le := length_dropWhile_le (!isLineBreak ·) text
    split at h
    case h_1 eq => cases h; rw [eq] at le; simp_all; omega
    case h_2 => cases h
    case h_3 => cases h; simp; omega
  case h_2 => cases h

-- The text behind all white space and comments.
def skipTrivia (s : List Char) : List Char :=
  match s with
  | [] => []
  | c :: rest =>
    if isBlank c || isLineBreak c then skipTrivia rest
    else
      match _h : afterComment? (c :: rest) with
      | some rest' => skipTrivia rest'
      | none => c :: rest
termination_by s.length
decreasing_by
  · simp
  · exact afterComment?_length _h

-- White space and comments, of which there may be none.
def trivia : Reader Unit := fun s => .accepted () (skipTrivia s)

-- Blanks, of which there may be none.
def blanks : Reader Unit := fun s => .accepted () (s.dropWhile isBlank)

-- A line feed, or a carriage return and a line feed.
def lineBreak : Reader Unit
  | '\n' :: rest => .accepted () rest
  | '\r' :: '\n' :: rest => .accepted () rest
  | s => .rejected ⟨s, [.lineBreak]⟩

-- Blanks and a comment, either of which may be missing.
def lineTail : Reader Unit := fun s =>
  .accepted () ((afterComment? (s.dropWhile isBlank)).getD (s.dropWhile isBlank))

-- What ends an item: a line break with all that is blank behind it, or a closer, which is left to be read.
def itemEnd (closer : Reader Unit) : Reader Unit := do
  lineTail
  orElse (do lineBreak; trivia) (peek closer)

-- A character with blanks around it.
def separator (c : Char) : Reader Unit := do
  blanks
  character c
  blanks

-- One or more ASCII letters and digits.
def name : Reader String := do
  let cs ← many1 Char.isAlphanum [.name]
  return String.ofList cs

-- One or more ASCII digits.
def digits : Reader (List Char) := many1 Char.isDigit []

-- The number that decimal digits denote.
def decimalValue (ds : List Char) : Nat :=
  ds.foldl (fun n d => 10 * n + (d.toNat - '0'.toNat)) 0

end Reader

end Palette
