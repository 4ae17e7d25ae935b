import Palette.Context
import Palette.ColorSpace
import Palette.Data.Json
import Palette.Number.Fixed

-- The descriptors that an asset catalog keeps in each of its folders: one for folders that only hold
-- others, one for the folder of a color.

namespace Palette.Catalog

-- The channels of a color as descriptors write them.
structure Components where
  red : String
  green : String
  blue : String
  alpha : String
  deriving DecidableEq, Inhabited

-- A channel in hex with two upper-case digits.
def channelText (channel : UInt8) : String :=
  String.ofList ['0', 'x', (Nat.digitChar (channel.toNat / 16)).toUpper,
    (Nat.digitChar (channel.toNat % 16)).toUpper]

-- Alpha has two decimal places.
def Components.ofColor (c : Color) : Components :=
  ⟨channelText c.red, channelText c.green, channelText c.blue, c.alpha.fixed 2⟩

-- Who made the catalog, and the version of its format.
def info (author : String) : String × Data :=
  ("info", .record [("author", .text author), ("version", .whole 1)])

-- The descriptor of a folder that only holds others.
def groupDescriptor (author : String) : Data := .record [info author]

-- The color space and channels of a color.
def colorField (colorSpace : String) (c : Components) : String × Data :=
  ("color", .record [("color-space", .text colorSpace), ("components", .record
    [("alpha", .text c.alpha), ("blue", .text c.blue), ("green", .text c.green), ("red", .text c.red)])])

-- The color for all appearances that have none of their own.
def universalEntry (colorSpace : String) (c : Components) : Data :=
  .record [colorField colorSpace c, ("idiom", .text "universal")]

-- The color for the dark appearance.
def darkEntry (colorSpace : String) (c : Components) : Data :=
  .record [("appearances", .list
      [.record [("appearance", .text "luminosity"), ("value", .text "dark")]]),
    colorField colorSpace c, ("idiom", .text "universal")]

-- The descriptor of a color's folder.
def colorDescriptor (author colorSpace : String) (colors : Themed Components) : Data :=
  let entries : List Data := match colors with
    | .plain c => [universalEntry colorSpace c]
    | .lightDark light dark => [universalEntry colorSpace light, darkEntry colorSpace dark]
  .record [("colors", .list entries), info author]

end Palette.Catalog
