import Palette.Proofs.Catalog.Alpha
import Palette.Proofs.Json.Printing
import Palette.Proofs.Number.ReadBack
import Palette.Command.Run

-- A sheet is read back from its JSON, on one line or on many: its items tell by their kinds what they
-- are, its values by the names of their only members.

namespace Palette

namespace Json

-- Channels and alphas are numerals as in a sheet.

def toChannel? : Json → Option UInt8
  | .number numeral => Reader.channel.whole? numeral
  | _               => none

def toBinary32? : Json → Option Binary32
  | .number numeral => (Reader.numeral.whole? numeral).map Numeral.toBinary32
  | _               => none

def toColor? : Json → Option Color
  | .object [("red", red), ("green", green), ("blue", blue), ("alpha", alpha)] =>
    return ⟨← red.toChannel?, ← green.toChannel?, ← blue.toChannel?, ← alpha.toBinary32?⟩
  | _ => none

def toReference? : Json → Option Reference
  | .object [("identifier", .text name), ("opacity", opacity)] => return ⟨name, ← opacity.toBinary32?⟩
  | _ => none

def toSlot? : Json → Option Slot
  | .object [("color", v)]    => v.toColor?.map .color
  | .object [("variable", v)] => v.toReference?.map .reference
  | _                         => none

def toValue? : Json → Option Palette.Value
  | .object [("color_set", .object [("light", light), ("dark", dark)])] =>
    return .lightDark (← light.toSlot?) (← dark.toSlot?)
  | v => v.toSlot?.map .plain

def toDeclaration? (kind : String) : Json → Option Declaration
  | .object [("kind", .text k), ("identifier", .text name), ("value", v)] =>
    if k = kind then return ⟨name, ← v.toValue?⟩ else none
  | _ => none

mutual

def toItem? : Json → Option Item
  | .object [("kind", .text "rule_set"), ("identifier", .text name), ("items", .list items)] =>
    (toItems? items).map (.group name)
  | v => (v.toDeclaration? "declaration").map .declaration

def toItems? : List Json → Option (List Item)
  | []        => some []
  | i :: rest => return (← i.toItem?) :: (← toItems? rest)

end

def toTopItem? (v : Json) : Option TopItem :=
  ((v.toDeclaration? "variable").map .variable).or (v.toItem?.map .item)

def toSheet? : Json → Option Sheet
  | .object [("items", .list items)] => (items.mapM toTopItem?).map .mk
  | _                                => none

end Json

-- The sheet that a text is the JSON of.
def Sheet.ofJson? (text : String) : Option Sheet :=
  (Json.read? text).bind Json.toSheet?

theorem Sheet.Writes.cons {t : TopItem} {rest : List TopItem} {v : Value}
    (h : (Sheet.mk rest).Writes v) : (Sheet.mk (t :: rest)).Writes v := by
  cases t with
  | «variable» d =>
    cases h with
    | ofVariable hd    => exact .ofVariable <| List.mem_cons_of_mem _ hd
    | ofDeclaration hd => exact .ofDeclaration hd
  | item i =>
    cases h with
    | ofVariable hd    => exact .ofVariable hd
    | ofDeclaration hd => exact .ofDeclaration <| List.mem_append_right _ hd

namespace Data

open Item (declarationsOf)

variable {x : Binary32} {c : Color} {s : Slot} {v : Value} {d : Declaration} {kind : String}

-- What is an object is left as one, with its members as data.

theorem toChannel?_whole (n : UInt8) : (whole n.toNat).json.toChannel? = some n := by
  have ⟨hn, hd⟩ := digits_toDigits n.toNat
  have hc : Grammar.Channel (Nat.toDigits 10 n.toNat ++ []) (.ofNat (Grammar.decimal _)) [] :=
    .intro (.intro hn hd) (by rw [decimal_toDigits]; exact Nat.le_of_lt_succ n.toNat_lt)
  rw [decimal_toDigits, UInt8.ofNat_toNat, List.append_nil] at hc
  rw [json, Json.toChannel?, Reader.whole?, String.toList_ofList, Reader.channel_complete hc .nil]

theorem toBinary32?_number (h : x.InUnitInterval) : (number x).json.toBinary32? = some x := by
  match x, h with
  | .finite negative _ fits, _ => exact Binary32.whole?_text negative fits

theorem toSlot?_ofSlot (h : s.InRange) : (ofSlot s).json.toSlot? = some s := by
  cases s with
  | color c =>
    have hj : (ofSlot (.color c)).json = .object [("color", .object [("red", (whole c.red.toNat).json),
        ("green", (whole c.green.toNat).json), ("blue", (whole c.blue.toNat).json),
        ("alpha", (number c.alpha).json)])] := rfl
    rw [hj, Json.toSlot?, Json.toColor?, toChannel?_whole, toChannel?_whole, toChannel?_whole,
      toBinary32?_number h]
    rfl
  | reference r =>
    have hj : (ofSlot (.reference r)).json = .object [("variable", .object [("identifier", .text r.name),
        ("opacity", (number r.opacity).json)])] := rfl
    rw [hj, Json.toSlot?, Json.toReference?, toBinary32?_number h.left]
    rfl

theorem toValue?_ofValue (h : v.InRange) : (ofValue v).json.toValue? = some v := by
  cases v with
  | lightDark light dark =>
    have hj : (ofValue (.lightDark light dark)).json = .object [("color_set",
        .object [("light", (ofSlot light).json), ("dark", (ofSlot dark).json)])] := rfl
    rw [hj, Json.toValue?, toSlot?_ofSlot h.left, toSlot?_ofSlot h.right]
    rfl
  | plain s =>
    have hs : (ofSlot s).json.toValue? = (ofSlot s).json.toSlot?.map .plain := by
      cases s <;> rfl
    rw [ofValue, hs, toSlot?_ofSlot h]
    rfl

theorem json_ofDeclaration :
    (ofDeclaration kind d).json = .object [("kind", .text kind), ("identifier", .text d.name),
      ("value", (ofValue d.value).json)] :=
  rfl

theorem toDeclaration?_ofDeclaration (h : d.value.InRange) (kind : String) :
    (ofDeclaration kind d).json.toDeclaration? kind = some d := by
  rw [json_ofDeclaration, Json.toDeclaration?, if_pos rfl, toValue?_ofValue h]
  rfl

-- By recursion over the items.

mutual

theorem toItem?_ofItem (i : Item) (h : ∀ place ∈ i.declarations, place.2.value.InRange) :
    (ofItem i).json.toItem? = some i := by
  match i with
  | .declaration d =>
    have hi : (ofDeclaration "declaration" d).json.toItem? =
        ((ofDeclaration "declaration" d).json.toDeclaration? "declaration").map .declaration := rfl
    rw [ofItem, hi, toDeclaration?_ofDeclaration <| h _ <| List.mem_singleton_self _]
    rfl
  | .group name items =>
    have hj : (ofItem (.group name items)).json = .object [("kind", .text "rule_set"),
        ("identifier", .text name), ("items", .list (jsonItems (ofItems items)))] := rfl
    have hi := toItems?_ofItems items fun place hp =>
      h (place.map (name :: ·) id) <| List.mem_map_of_mem hp
    rw [hj, Json.toItem?, hi]
    rfl

theorem toItems?_ofItems (items : List Item)
    (h : ∀ place ∈ declarationsOf items, place.2.value.InRange) :
    Json.toItems? (jsonItems (ofItems items)) = some items := by
  match items with
  | [] => rfl
  | i :: rest =>
    have ⟨hi, hr⟩ := List.forall_mem_append.mp h
    rw [ofItems, jsonItems, Json.toItems?, toItem?_ofItem i hi, toItems?_ofItems rest hr]
    rfl

end

-- What is outside of all groups is a variable only if it is called one.

theorem toTopItem?_variable (h : d.value.InRange) :
    (ofTopItem (.variable d)).json.toTopItem? = some (.variable d) := by
  rw [ofTopItem, Json.toTopItem?, toDeclaration?_ofDeclaration h]
  rfl

theorem toTopItem?_item {i : Item} (h : ∀ place ∈ i.declarations, place.2.value.InRange) :
    (ofTopItem (.item i)).json.toTopItem? = some (.item i) := by
  have hn : (ofItem i).json.toDeclaration? "variable" = none := by
    cases i with
    | declaration => rw [ofItem, json_ofDeclaration, Json.toDeclaration?, if_neg (by decide)]
    | group       => rfl
  rw [ofTopItem, Json.toTopItem?, hn, toItem?_ofItem i h]
  rfl

theorem mapM_toTopItem? {items : List TopItem} (h : ∀ v, (Sheet.mk items).Writes v → v.InRange) :
    (jsonItems (items.map ofTopItem)).mapM Json.toTopItem? = some items := by
  induction items with
  | nil => rfl
  | cons t rest ih =>
    have hr : ∀ v, (Sheet.mk rest).Writes v → v.InRange := fun v hv => h v hv.cons
    have ht : (ofTopItem t).json.toTopItem? = some t := by
      cases t with
      | «variable» d => exact toTopItem?_variable <| h _ <| .ofVariable List.mem_cons_self
      | item i =>
        exact toTopItem?_item fun _ hp => h _ <| .ofDeclaration <| List.mem_append_left _ hp
    rw [List.map_cons, jsonItems, List.mapM_cons, ht, ih hr]
    rfl

end Data

namespace Sheet

open Command (reportText)

variable {source source' : String} {sheet sheet' : Sheet}

theorem toSheet?_ofSheet (h : Sheet.parse source = .ok sheet) :
    (Data.ofSheet sheet).json.toSheet? = some sheet := by
  have hj : (Data.ofSheet sheet).json =
      .object [("items", .list (Data.jsonItems (sheet.items.map Data.ofTopItem)))] := rfl
  rw [hj, Json.toSheet?, Data.mapM_toTopItem? fun _ => Sheet.inRange_of_parse h]
  rfl

theorem ofJson?_of_denotes {text : String} (h : Sheet.parse source = .ok sheet)
    (ht : Json.Denotes text (Data.ofSheet sheet).json) : ofJson? text = some sheet := by
  rw [ofJson?, Json.read?_of_denotes ht, Option.bind_some, toSheet?_ofSheet h]

-- The texts of a sheet as JSON: on one line, on many, and as the report of a check.
inductive DumpedAs (sheet : Sheet) : String → Prop
  | compact : DumpedAs sheet (Data.ofSheet sheet).toJson
  | pretty  : DumpedAs sheet (Data.ofSheet sheet).toPrettyJson
  | report (colored input Γ) : DumpedAs sheet (reportText colored input sheet Γ .json)

theorem DumpedAs.denotes {text : String} (h : sheet.DumpedAs text) :
    Json.Denotes text (Data.ofSheet sheet).json := by
  cases h with
  | compact => exact Data.denotes_compact _
  | pretty  =>
    have h := @Data.denotes_pretty "" nofun (Data.ofSheet sheet)
    rwa [String.append_empty] at h
  | report  => exact Data.denotes_pretty (by simp [Json.whites]) _

-- What a text has been read as is what it has been dumped from, so that no other sheet is dumped as it.
theorem dump_faithful (h : Sheet.parse source = .ok sheet) :
    (∀ text, sheet.DumpedAs text → ofJson? text = some sheet) ∧
    ∀ source' sheet', Sheet.parse source' = .ok sheet' → sheet ≠ sheet' →
      ∀ text, sheet.DumpedAs text → ¬sheet'.DumpedAs text := by
  refine ⟨fun _ ht => ofJson?_of_denotes h ht.denotes, fun _ _ h' hn text ht ht' => hn ?_⟩
  have he := ofJson?_of_denotes h ht.denotes
  exact Option.some.inj <| he.symm.trans <| ofJson?_of_denotes h' ht'.denotes

def unsigned : Sheet :=
  ⟨[.item (.declaration ⟨"c", .plain (.color ⟨0, 0, 0, .zero false⟩)⟩)]⟩

theorem parse_unsigned : Sheet.parse "c: rgba(0, 0, 0, 0)" = .ok unsigned := by
  have alpha : Grammar.Alpha ['0', ')'] (.zero false) [')'] :=
    .intro (.decimal .none (.whole <| Catalog.digits_of_zero _) .none) ⟨.inl rfl, Nat.zero_le _⟩
  exact Sheet.parse_of_topItems (Catalog.topItems_of_alpha alpha) (by decide)

-- A zero that has a sign and one that has none are kept apart.
theorem dump_faithful_unsigned :
    ofJson? (Data.ofSheet unsigned).toJson = some unsigned ∧
    ofJson? (Data.ofSheet unsigned).toPrettyJson = some unsigned ∧
    (Data.ofSheet unsigned).toJson ≠ (Data.ofSheet Catalog.clear).toJson := by
  have ⟨hd, hn⟩ := dump_faithful parse_unsigned
  refine ⟨hd _ .compact, hd _ .pretty, fun he => hn _ _ Catalog.parse_clear ?_ _ .compact ?_⟩
  · simp [unsigned, Catalog.clear, Binary32.zero]
  · rw [he]
    exact .compact

end Sheet

end Palette
