import Palette.Catalog.Descriptor
import Palette.Proofs.Number.Fixed

-- Descriptors as templates. What is filled in stands among fixed texts as it is: the author and the
-- color space have been quoted before, while channels go into quotes that the template has for them.

namespace Palette

namespace Data

-- What is the same inside quotes as outside of them.
def Plain (s : String) : Prop :=
  ∀ c ∈ s.toList, escape c = [c]

instance {s : String} : Decidable (Plain s) :=
  decidable_of_iff (s.toList.all fun c => escape c = [c]) (by simp [Plain])

def quoted (s : String) : String :=
  String.ofList (quote s.toList)

-- A member of an object, with a blank on either side of the colon.
def member (level : Nat) (f : String × Data) : List Char :=
  quote f.1.toList ++ ([' ', ':', ' '] ++ f.2.pretty [' ', ':', ' '] level)

variable {level : Nat} {k s : String} {f : String × Data} {fields : List (String × Data)}
variable {i : Data} {items : List Data}

theorem escape_of_alphanumeric {c : Char} (h : c.isAlphanum) : escape c = [c] := by
  have control : ∀ n < 0x20, (Char.ofNat n).isAlphanum = false := by decide
  have printed : ¬c.toNat < 0x20 := fun hl => by simpa [h] using control _ hl
  have other {a : Char} (ha : a.isAlphanum = false) : c ≠ a := fun he => by simp [← he, h] at ha
  simp [escape, other, printed]

theorem quote_of_plain (h : Plain s) : quote s.toList = '"' :: (s.toList ++ ['"']) := by
  rw [quote, List.flatMap_def, List.map_congr_left h, ← List.flatMap_def, List.flatMap_singleton']

theorem pretty_record_cons :
    (record (f :: fields)).pretty [' ', ':', ' '] level =
      '\x7b' :: (newLine (level + 1) ++ (member (level + 1) f ++
        prettyFields [' ', ':', ' '] level fields)) := by
  rw [pretty, member, List.append_assoc, List.append_assoc]

theorem prettyFields_cons :
    prettyFields [' ', ':', ' '] level (f :: fields) =
      ',' :: (newLine (level + 1) ++ (member (level + 1) f ++
        prettyFields [' ', ':', ' '] level fields)) := by
  rw [prettyFields, member, List.append_assoc, List.append_assoc]

theorem prettyFields_nil : prettyFields [' ', ':', ' '] level [] = newLine level ++ ['\x7d'] := by
  rw [prettyFields]

theorem prettyItems_cons :
    prettyItems [' ', ':', ' '] level (i :: items) =
      ',' :: (newLine (level + 1) ++ (i.pretty [' ', ':', ' '] (level + 1) ++
        prettyItems [' ', ':', ' '] level items)) := by
  rw [prettyItems]

theorem member_text :
    member level (k, .text s) = quote k.toList ++ ([' ', ':', ' '] ++ quote s.toList) := by
  rw [member, pretty]

theorem member_list_cons :
    member level (k, .list (i :: items)) =
      quote k.toList ++ ([' ', ':', ' '] ++ '[' :: (newLine (level + 1) ++
        (i.pretty [' ', ':', ' '] (level + 1) ++ prettyItems [' ', ':', ' '] level items))) := by
  rw [member, pretty]

end Data

namespace Catalog

open Data

-- What a template for colors is filled with.
structure ColorEntry where
  author     : String
  colorSpace : String
  light      : Components
  dark       : Option Components

def ColorEntry.ofColors (author colorSpace : String) : Themed Color → ColorEntry
  | .plain c              => ⟨quoted author, quoted colorSpace, .ofColor c, none⟩
  | .lightDark light dark => ⟨quoted author, quoted colorSpace, .ofColor light, some (.ofColor dark)⟩

def infoTemplate (author : String) : String :=
  "\"info\" : \x7b\n    \"author\" : " ++ author ++ ",\n    \"version\" : 1\n  \x7d"

def groupTemplate (author : String) : String :=
  "\x7b\n  " ++ infoTemplate author ++ "\n\x7d"

def componentsTemplate (c : Components) : String :=
  "\"components\" : \x7b\n          \"alpha\" : \"" ++ c.alpha ++
    "\",\n          \"blue\" : \"" ++ c.blue ++
    "\",\n          \"green\" : \"" ++ c.green ++
    "\",\n          \"red\" : \"" ++ c.red ++ "\"\n        \x7d"

def channelsTemplate (colorSpace : String) (c : Components) : String :=
  "\"color\" : \x7b\n        \"color-space\" : " ++ colorSpace ++ ",\n        " ++
    componentsTemplate c ++ "\n      \x7d,\n      \"idiom\" : \"universal\"\n    \x7d"

-- What comes behind the light color, and brings the comma that goes before it.
def darkTemplate (colorSpace : String) (c : Components) : String :=
  ",\n    \x7b\n      \"appearances\" : [\n        \x7b\n          \"appearance\" : \"luminosity\"," ++
    "\n          \"value\" : \"dark\"\n        \x7d\n      ],\n      " ++ channelsTemplate colorSpace c

def colorTemplate (e : ColorEntry) : String :=
  "\x7b\n  \"colors\" : [\n    \x7b\n      " ++ channelsTemplate e.colorSpace e.light ++
    (match e.dark with
      | none      => ""
      | some dark => darkTemplate e.colorSpace dark) ++
    "\n  ],\n  " ++ infoTemplate e.author ++ "\n\x7d"

variable {author colorSpace : String} {c : Color} {channel : UInt8} {x : Binary32} {places : Nat}

theorem plain_fixed : Plain (x.fixed places) := by
  intro c hc
  cases Binary32.mem_fixed hc with
  | inl h => exact escape_of_alphanumeric h
  | inr h =>
    cases h with
    | inl h => exact h ▸ rfl
    | inr h => exact h ▸ rfl

theorem plain_channelText : Plain (channelText channel) := by
  have digit : ∀ n < 16, escape (Nat.digitChar n).toUpper = [(Nat.digitChar n).toUpper] := by decide
  have high : channel.toNat / 16 < 16 := Nat.div_lt_of_lt_mul channel.toNat_lt
  have low : channel.toNat % 16 < 16 := Nat.mod_lt _ (by decide)
  simp only [Plain, channelText, String.toList_ofList, List.forall_mem_cons]
  exact ⟨rfl, rfl, digit _ high, digit _ low, nofun⟩

-- Member by member, texts that are known beforehand are the same inside quotes.

theorem member_info : member 1 (info author) = (infoTemplate (quoted author)).toList := by
  have one : Nat.toDigits 10 1 = ['1'] := by decide
  unfold infoTemplate info quoted member
  simp only [String.toList_ofList, String.toList_append, pretty, prettyFields, newLine, one]
  simp (disch := decide) only [quote_of_plain]
  simp [List.replicate]

theorem member_components :
    member 4 ("components", .record [("alpha", .text (Components.ofColor c).alpha),
      ("blue", .text (Components.ofColor c).blue), ("green", .text (Components.ofColor c).green),
      ("red", .text (Components.ofColor c).red)]) = (componentsTemplate (.ofColor c)).toList := by
  have alpha := quote_of_plain <| @plain_fixed c.alpha 2
  have blue := quote_of_plain <| @plain_channelText c.blue
  have green := quote_of_plain <| @plain_channelText c.green
  have red := quote_of_plain <| @plain_channelText c.red
  unfold componentsTemplate Components.ofColor
  rw [member]
  simp only [String.toList_append, pretty_record_cons, prettyFields_cons, prettyFields_nil,
    member_text, newLine, alpha, blue, green, red]
  simp (disch := decide) only [quote_of_plain]
  simp [List.replicate]

theorem member_colorField :
    member 3 (colorField colorSpace (.ofColor c)) ++
        prettyFields [' ', ':', ' '] 2 [("idiom", .text "universal")] =
      (channelsTemplate (quoted colorSpace) (.ofColor c)).toList := by
  unfold channelsTemplate colorField quoted
  rw [member, pretty_record_cons, prettyFields_cons, member_components, prettyFields_nil,
    prettyFields_cons, prettyFields_nil, member_text, member_text]
  simp only [String.toList_append, String.toList_ofList, newLine, List.append_assoc]
  simp (disch := decide) only [quote_of_plain]
  simp [List.replicate]

theorem pretty_universalEntry :
    (universalEntry colorSpace (.ofColor c)).pretty [' ', ':', ' '] 2 =
      '\x7b' :: (newLine 3 ++ (channelsTemplate (quoted colorSpace) (.ofColor c)).toList) := by
  rw [universalEntry, pretty_record_cons, member_colorField]

theorem prettyItems_darkEntry :
    prettyItems [' ', ':', ' '] 1 [darkEntry colorSpace (.ofColor c)] =
      (darkTemplate (quoted colorSpace) (.ofColor c)).toList ++ prettyItems [' ', ':', ' '] 1 [] := by
  rw [prettyItems_cons, darkEntry, pretty_record_cons, prettyFields_cons, member_colorField,
    member_list_cons]
  unfold darkTemplate
  simp only [pretty_record_cons, prettyFields_cons, prettyFields_nil, member_text, prettyItems, newLine,
    String.toList_append]
  simp (disch := decide) only [quote_of_plain]
  simp [List.replicate]

-- Filled templates are the texts of descriptors.

theorem groupTemplate_eq :
    groupTemplate (quoted author) = (groupDescriptor author).toSpacedJson := by
  apply String.toList_inj.mp
  unfold groupTemplate toSpacedJson groupDescriptor
  rw [String.toList_ofList, pretty_record_cons, member_info, prettyFields_nil]
  simp [newLine, List.replicate]

theorem colorTemplate_eq {colors : Themed Color} :
    colorTemplate (.ofColors author colorSpace colors) =
      (colorDescriptor author colorSpace (colors.map .ofColor)).toSpacedJson := by
  have key : quote "colors".toList = '"' :: ("colors".toList ++ ['"']) := quote_of_plain (by decide)
  apply String.toList_inj.mp
  unfold colorTemplate toSpacedJson colorDescriptor
  cases colors with
  | plain c =>
    simp only [Themed.map, ColorEntry.ofColors, String.toList_ofList, String.toList_append]
    rw [pretty_record_cons, prettyFields_cons, member_info, prettyFields_nil, member_list_cons,
      pretty_universalEntry, key]
    simp [prettyItems, newLine, List.replicate]
  | lightDark light dark =>
    simp only [Themed.map, ColorEntry.ofColors, String.toList_ofList, String.toList_append]
    rw [pretty_record_cons, prettyFields_cons, member_info, prettyFields_nil, member_list_cons,
      pretty_universalEntry, prettyItems_darkEntry, key]
    simp [prettyItems, newLine, List.replicate]

end Catalog

end Palette
