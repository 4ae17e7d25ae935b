import Palette.Text.Blank

-- The color spaces that a catalog can be stamped with, and how they are named.

namespace Palette

inductive ColorSpace where
  | srgb
  | displayP3
  | extendedSrgb
  | extendedLinearSrgb
  deriving DecidableEq, Inhabited

namespace ColorSpace

def all : List ColorSpace := [.srgb, .displayP3, .extendedSrgb, .extendedLinearSrgb]

-- The tag written into descriptors.
def tag : ColorSpace → String
  | .srgb => "srgb"
  | .displayP3 => "display-p3"
  | .extendedSrgb => "extended-srgb"
  | .extendedLinearSrgb => "extended-linear-srgb"

-- Reads a tag in any case, with any white space around it.
def ofText? (text : String) : Option ColorSpace :=
  let wanted := String.ofList ((trimBlanks text.toList).map Char.toLower)
  all.find? (·.tag = wanted)

-- What is said of a text that names no color space.
def unknownMessage (text : String) : String :=
  "unknown color space '" ++ text ++
    "' (expected srgb, display-p3, extended-srgb or extended-linear-srgb)"

end ColorSpace

end Palette
