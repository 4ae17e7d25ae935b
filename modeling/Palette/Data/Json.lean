import Palette.Data.Basic
import Palette.Number.Shortest

-- Data as JSON text, on one line or with a line for each member. A variant is an object with the tag
-- as its only member.

namespace Palette

namespace Data

-- A character inside quotes. What may not stand for itself is escaped, by a letter if it has one.
def escape (c : Char) : List Char :=
  if c = '"' then ['\\', '"']
  else if c = '\\' then ['\\', '\\']
  else if c = '\n' then ['\\', 'n']
  else if c = '\r' then ['\\', 'r']
  else if c = '\t' then ['\\', 't']
  else if c = '\x08' then ['\\', 'b']
  else if c = '\x0c' then ['\\', 'f']
  else if c.toNat < 0x20 then ['\\', 'u', '0', '0', Nat.digitChar (c.toNat / 16),
    Nat.digitChar (c.toNat % 16)]
  else [c]

-- A text in quotes.
def quote (s : List Char) : List Char := '"' :: (s.flatMap escape ++ ['"'])

mutual

-- JSON text without any white space.
def compact : Data → List Char
  | text s => quote s.toList
  | whole n => Nat.toDigits 10 n
  | number x => x.text.toList
  | list [] => ['[', ']']
  | list (i :: rest) => '[' :: (compact i ++ compactItems rest)
  | record [] => ['{', '}']
  | record ((k, v) :: rest) => '{' :: (quote k.toList ++ ':' :: (compact v ++ compactFields rest))
  | variant tag [] => '{' :: (quote tag.toList ++ [':', '{', '}', '}'])
  | variant tag ((k, v) :: rest) =>
    '{' :: (quote tag.toList ++ ':' :: '{' ::
      (quote k.toList ++ ':' :: (compact v ++ (compactFields rest ++ ['}']))))

def compactItems : List Data → List Char
  | [] => [']']
  | i :: rest => ',' :: (compact i ++ compactItems rest)

def compactFields : List (String × Data) → List Char
  | [] => ['}']
  | (k, v) :: rest => ',' :: (quote k.toList ++ ':' :: (compact v ++ compactFields rest))

end

-- A new line, indented by two spaces for each level.
def newLine (level : Nat) : List Char := '\n' :: List.replicate (2 * level) ' '

mutual

-- JSON text with each item and member on a line of its own, and a given text between names and values.
def pretty (colon : List Char) (level : Nat) : Data → List Char
  | text s => quote s.toList
  | whole n => Nat.toDigits 10 n
  | number x => x.text.toList
  | list [] => ['[', ']']
  | list (i :: rest) =>
    '[' :: (newLine (level + 1) ++ (pretty colon (level + 1) i ++ prettyItems colon level rest))
  | record [] => ['{', '}']
  | record ((k, v) :: rest) =>
    '{' :: (newLine (level + 1) ++ (quote k.toList ++ (colon ++
      (pretty colon (level + 1) v ++ prettyFields colon level rest))))
  | variant tag [] =>
    '{' :: (newLine (level + 1) ++ (quote tag.toList ++ (colon ++ '{' :: '}' :: (newLine level ++ ['}']))))
  | variant tag ((k, v) :: rest) =>
    '{' :: (newLine (level + 1) ++ (quote tag.toList ++ (colon ++ '{' :: (newLine (level + 2) ++
      (quote k.toList ++ (colon ++ (pretty colon (level + 2) v ++
        (prettyFields colon (level + 1) rest ++ (newLine level ++ ['}'])))))))))

def prettyItems (colon : List Char) (level : Nat) : List Data → List Char
  | [] => newLine level ++ [']']
  | i :: rest =>
    ',' :: (newLine (level + 1) ++ (pretty colon (level + 1) i ++ prettyItems colon level rest))

def prettyFields (colon : List Char) (level : Nat) : List (String × Data) → List Char
  | [] => newLine level ++ ['}']
  | (k, v) :: rest =>
    ',' :: (newLine (level + 1) ++ (quote k.toList ++ (colon ++
      (pretty colon (level + 1) v ++ prettyFields colon level rest))))

end

-- JSON on one line.
def toJson (d : Data) : String := String.ofList d.compact

-- JSON on many lines, with a blank behind each colon.
def toPrettyJson (d : Data) : String := String.ofList (d.pretty [':', ' '] 0)

-- JSON on many lines, with a blank on either side of each colon.
def toSpacedJson (d : Data) : String := String.ofList (d.pretty [' ', ':', ' '] 0)

end Data

end Palette
