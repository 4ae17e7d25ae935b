-- Places in a text, as readers of error messages count them. A location is what stepping over the
-- text before it leads to, one character at a time.

namespace Palette

-- A place in a text: bytes before it, its line and its column, in characters, both from one.
structure Location where
  offset : Nat
  line : Nat
  column : Nat
  deriving DecidableEq, Inhabited

namespace Location

def start : Location := ⟨0, 1, 1⟩

-- The place behind a character that stands here.
def step (l : Location) (c : Char) : Location :=
  if c = '\n' then ⟨l.offset + c.utf8Size, l.line + 1, 1⟩
  else ⟨l.offset + c.utf8Size, l.line, l.column + 1⟩

-- The place that some text leads to.
def after (text : List Char) : Location := text.foldl step start

-- As many whole characters as fit a number of bytes.
def takeBytes : Nat → List Char → List Char
  | _, [] => []
  | bytes, c :: rest => if c.utf8Size ≤ bytes then c :: takeBytes (bytes - c.utf8Size) rest else []

-- The place at a byte offset; beyond the end it is the place of the end.
def inText (text : List Char) (offset : Nat) : Location := after (takeBytes offset text)

-- The line and column, as written in messages.
def display (l : Location) : String := s!"{l.line}:{l.column}"

theorem after_append (s t : List Char) : after (s ++ t) = t.foldl step (after s) :=
  List.foldl_append

theorem after_concat (s : List Char) (c : Char) : after (s ++ [c]) = (after s).step c := by
  simp [after_append]

end Location

end Palette
