import Palette.Proofs.Catalog.Template
import Palette.Proofs.Json.Printing
import Palette.Proofs.Json.Reader

-- What descriptors say to those who read them. The author and the color space may be any texts.

namespace Palette.Catalog

def infoMember (author : String) : String × Json :=
  ("info", .object [("author", .text author), ("version", .number "1")])

def componentsMember (c : Color) : String × Json :=
  ("components", .object [("alpha", .text (c.alpha.fixed 2)), ("blue", .text (channelText c.blue)),
    ("green", .text (channelText c.green)), ("red", .text (channelText c.red))])

def colorMember (colorSpace : String) (c : Color) : String × Json :=
  ("color", .object [("color-space", .text colorSpace), componentsMember c])

def darkMember : String × Json :=
  ("appearances", .list [.object [("appearance", .text "luminosity"), ("value", .text "dark")]])

def idiomMember : String × Json :=
  ("idiom", .text "universal")

-- One color for every appearance, or two of which the second one is for the dark appearance.
def colorsMember (colorSpace : String) : Themed Color → String × Json
  | .plain c              => ("colors", .list [.object [colorMember colorSpace c, idiomMember]])
  | .lightDark light dark => ("colors", .list [.object [colorMember colorSpace light, idiomMember],
      .object [darkMember, colorMember colorSpace dark, idiomMember]])

section

open Data (json jsonItems jsonFields)

variable {author colorSpace : String} {c : Color}

theorem jsonFields_info : jsonFields [info author] = [infoMember author] := by
  have one : String.ofList (Nat.toDigits 10 1) = "1" := by decide
  simp only [info, infoMember, jsonFields, json, one]

theorem json_groupDescriptor : (groupDescriptor author).json = .object [infoMember author] := by
  rw [groupDescriptor, json, jsonFields_info]

theorem json_universalEntry :
    (universalEntry colorSpace (.ofColor c)).json =
      .object [colorMember colorSpace c, idiomMember] := by
  simp only [universalEntry, colorField, Components.ofColor, json, jsonFields, colorMember,
    componentsMember, idiomMember]

theorem json_darkEntry :
    (darkEntry colorSpace (.ofColor c)).json =
      .object [darkMember, colorMember colorSpace c, idiomMember] := by
  simp only [darkEntry, colorField, Components.ofColor, json, jsonFields, jsonItems, darkMember,
    colorMember, componentsMember, idiomMember]

theorem json_colorDescriptor {colors : Themed Color} :
    (colorDescriptor author colorSpace (colors.map .ofColor)).json =
      .object [colorsMember colorSpace colors, infoMember author] := by
  unfold colorDescriptor
  rw [json, jsonFields, jsonFields_info]
  cases colors with
  | plain =>
    simp only [Themed.map, json, jsonItems, json_universalEntry, colorsMember]
  | lightDark =>
    simp only [Themed.map, json, jsonItems, json_universalEntry, json_darkEntry, colorsMember]

end

-- Descriptors are JSON, and reading them gives back all that their templates were filled with.
theorem descriptors_denote (author colorSpace : String) (colors : Themed Color) :
    let group := Json.object [infoMember author]
    let color := Json.object [colorsMember colorSpace colors, infoMember author]
    let groupText := groupTemplate (Data.quoted author)
    let colorText := colorTemplate (.ofColors author colorSpace colors)
    (groupText = (groupDescriptor author).toSpacedJson ∧
      Json.Denotes groupText group ∧ Json.read? groupText = some group) ∧
    colorText = (colorDescriptor author colorSpace (colors.map .ofColor)).toSpacedJson ∧
      Json.Denotes colorText color ∧ Json.read? colorText = some color := by
  have hg := (groupDescriptor author).denotes_spaced
  have hc := (colorDescriptor author colorSpace (colors.map .ofColor)).denotes_spaced
  rw [json_groupDescriptor, ← groupTemplate_eq] at hg
  rw [json_colorDescriptor, ← colorTemplate_eq] at hc
  exact ⟨⟨groupTemplate_eq, hg, Json.read?_of_denotes hg⟩,
    colorTemplate_eq, hc, Json.read?_of_denotes hc⟩

end Palette.Catalog
