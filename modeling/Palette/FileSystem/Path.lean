-- Paths as the names between their slashes. Empty names, which doubled, leading and trailing slashes
-- leave behind, are kept, so that a path is written as it was given.

namespace Palette

structure Path where
  segments : List String
  deriving DecidableEq, Inhabited

namespace Path

-- The parts of a text between slashes, of which there is always one.
def splitSlashes : List Char → List (List Char)
  | [] => [[]]
  | c :: rest =>
    if c = '/' then [] :: splitSlashes rest
    else match splitSlashes rest with
      | [] => [[c]]
      | part :: parts => (c :: part) :: parts

def ofText (text : String) : Path := ⟨(splitSlashes text.toList).map String.ofList⟩

-- The path as it is written.
def text (p : Path) : String := "/".intercalate p.segments

-- The path of a name in the folder at a path.
def join (p : Path) (name : String) : Path :=
  if p.segments.getLast? = some "" then ⟨p.segments.dropLast ++ [name]⟩ else ⟨p.segments ++ [name]⟩

-- Segments that lead nowhere else.
def staysPut (segment : String) : Bool := segment = "" || segment = "."

-- Whether nothing is written at all.
def isEmpty (p : Path) : Bool := p.segments.all (· = "") && p.segments.length ≤ 1

-- Whether the path ends in a slash, which only folders may.
def hasTrailingSlash (p : Path) : Bool := p.segments.getLast? = some ""

-- The segments up to the last name, and that name, if there is one.
def splitLast (p : Path) : List String × Option String :=
  match p.segments.reverse.dropWhile (· = "") with
  | [] => ([], none)
  | last :: rest => (rest.reverse, some last)

-- The path of the folder that the last name is in.
def parent (p : Path) : Path :=
  ⟨(((p.segments.reverse.dropWhile staysPut).drop 1).dropWhile staysPut).reverse⟩

theorem parent_length_lt {p : Path} (h : p.segments ≠ []) :
    p.parent.segments.length < p.segments.length := by
  have outer := (List.dropWhile_suffix staysPut (l := (p.segments.reverse.dropWhile staysPut).drop 1)).length_le
  have inner := (List.dropWhile_suffix staysPut (l := p.segments.reverse)).length_le
  have pos := List.length_pos_iff.mpr h
  simp only [parent, List.length_reverse, List.length_drop] at *
  omega

end Path

end Palette
