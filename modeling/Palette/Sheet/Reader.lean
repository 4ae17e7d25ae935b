import Palette.Sheet.ParseError

-- Readers of a text from left to right. A reader accepts and leaves a rest, rejects so that another
-- one may be tried at the same place, or aborts so that none is. Of two rejections the one that got
-- further counts; at the same place their expectations are pooled.

namespace Palette

-- Where reading failed, as the text left there, and what was expected.
structure Fault where
  rest : List Char
  expected : List Expectation

-- What a reader makes of a text.
inductive Reply (α : Type) where
  | accepted (value : α) (rest : List Char)
  | rejected (fault : Fault)
  | aborted (fault : Fault)

-- Reads an `α` at the start of a text.
def Reader (α : Type) : Type := List Char → Reply α

-- The fault that got further, or both together.
def Fault.merge (f g : Fault) : Fault :=
  if f.rest.length < g.rest.length then f
  else if g.rest.length < f.rest.length then g
  else { f with expected := g.expected.foldl (fun all e => if e ∈ all then all else all ++ [e]) f.expected }

namespace Reader

variable {α β : Type}

instance : Monad Reader where
  pure a := fun s => .accepted a s
  bind p next := fun s =>
    match p s with
    | .accepted a rest => next a rest
    | .rejected f => .rejected f
    | .aborted f => .aborted f

-- A reader that is told the text it starts on.
def fromStart (p : List Char → Reader α) : Reader α := fun s => p s s

-- Rejects at the place where only `rest` is left.
def rejectAt (rest : List Char) (expected : Expectation) : Reader α :=
  fun _ => .rejected ⟨rest, [expected]⟩

-- Aborts at the place where only `rest` is left.
def abortAt (rest : List Char) (expected : Expectation) : Reader α :=
  fun _ => .aborted ⟨rest, [expected]⟩

-- Tries the second reader where the first one rejects.
def orElse (p q : Reader α) : Reader α := fun s =>
  match p s with
  | .rejected f =>
    match q s with
    | .rejected g => .rejected (f.merge g)
    | reply => reply
  | reply => reply

-- From here on nothing else is tried.
def commit (p : Reader α) : Reader α := fun s =>
  match p s with
  | .rejected f => .aborted f
  | reply => reply

-- Reads nothing where the reader rejects.
def optional (p : Reader α) : Reader (Option α) := fun s =>
  match p s with
  | .accepted a rest => .accepted (some a) rest
  | .rejected _ => .accepted none s
  | .aborted f => .aborted f

-- Reads ahead without consuming.
def peek (p : Reader α) : Reader Unit := fun s =>
  match p s with
  | .accepted _ _ => .accepted () s
  | .rejected f => .rejected f
  | .aborted f => .aborted f

-- Rejects, at the start of what was read, a value that the function has an objection to.
def refine (p : Reader α) (f : α → Except Expectation β) : Reader β :=
  fromStart fun start => do
    match f (← p) with
    | .ok b => return b
    | .error e => rejectAt start e

-- Items until the stop is read. A stop is tried before each item, and an item that reads nothing is rejected.
def manyTill (item : Reader α) (stop : Reader β) (s : List Char) : Reply (List α) :=
  match stop s with
  | .accepted _ rest => .accepted [] rest
  | .aborted f => .aborted f
  | .rejected _ =>
    match item s with
    | .rejected f => .rejected f
    | .aborted f => .aborted f
    | .accepted a rest =>
      if rest.length < s.length then
        match manyTill item stop rest with
        | .accepted as rest' => .accepted (a :: as) rest'
        | .rejected f => .rejected f
        | .aborted f => .aborted f
      else .rejected ⟨rest, []⟩
termination_by s.length

-- One given character.
def character (c : Char) : Reader Unit
  | x :: rest => if x = c then .accepted () rest else .rejected ⟨x :: rest, [.character c]⟩
  | [] => .rejected ⟨[], [.character c]⟩

-- All characters up to the first that fails the test; there must be one.
def many1 (test : Char → Bool) (expected : List Expectation) : Reader (List Char) := fun s =>
  if (s.takeWhile test).isEmpty then .rejected ⟨s, expected⟩
  else .accepted (s.takeWhile test) (s.dropWhile test)

def endOfInput : Reader Unit
  | [] => .accepted () []
  | s => .rejected ⟨s, [.endOfInput]⟩

end Reader

end Palette
