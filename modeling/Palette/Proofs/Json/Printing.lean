import Palette.Data.Json
import Palette.Proofs.Json.Numerals

-- The JSON text of data denotes the data, whatever is in it.

namespace Palette

open Grammar (HexDigit)
open Json (whites White Character Characters CodeUnit Element Elements Member Members)

namespace Data

mutual

-- What data are as JSON. A variant is an object with one member, and what no numeral denotes is null.
def json : Data → Json
  | .text s                => .text s
  | .whole n               => .number (String.ofList (Nat.toDigits 10 n))
  | .number (.finite b u h) => .number (Binary32.finite b u h).text
  | .number _              => .null
  | .list items            => .list (jsonItems items)
  | .record fields         => .object (jsonFields fields)
  | .variant tag fields    => .object [(tag, .object (jsonFields fields))]

def jsonItems : List Data → List Json
  | []        => []
  | i :: rest => i.json :: jsonItems rest

def jsonFields : List (String × Data) → List (String × Json)
  | []             => []
  | (k, v) :: rest => (k, v.json) :: jsonFields rest

end

variable {s rest : List Char} {c : Char} {v : Json} {colon : List Char} {level : Nat}

-- Texts. Each way to escape a character is undone, and one that stands for itself may do so.

theorem codeUnit_control (h : c.toNat < 0x20) :
    CodeUnit ('0' :: '0' :: Nat.digitChar (c.toNat / 16) :: Nat.digitChar (c.toNat % 16) :: rest)
      c.toNat rest := by
  have zero : HexDigit '0' 0 := ⟨by decide, .inl rfl⟩
  have high : HexDigit (Nat.digitChar (c.toNat / 16)) (c.toNat / 16) := ⟨by omega, .inl rfl⟩
  have low : HexDigit (Nat.digitChar (c.toNat % 16)) (c.toNat % 16) := ⟨by omega, .inl rfl⟩
  have hu : CodeUnit _ (16 * (16 * (16 * 0 + 0) + c.toNat / 16) + c.toNat % 16) rest :=
    .intro zero zero high low
  have hn : 16 * (16 * (16 * 0 + 0) + c.toNat / 16) + c.toNat % 16 = c.toNat := by omega
  rwa [hn] at hu

theorem character_escape : Character (escape c ++ rest) c rest := by
  unfold escape
  iterate 7
    split
    case isTrue h =>
      subst h
      exact .letter (by decide)
  split
  case isTrue h =>
    have hc : Character _ (Char.ofNat c.toNat) rest := .code (codeUnit_control h) (.inl (by omega))
    rwa [Char.ofNat_toNat] at hc
  case isFalse h => exact .plain (Nat.le_of_not_lt h) ‹_› ‹_›

theorem characters_escape : Characters (s.flatMap escape ++ '"' :: rest) s rest := by
  induction s with
  | nil => exact .nil
  | cons c s ih =>
    rw [List.flatMap_cons, List.append_assoc]
    exact .cons character_escape ih

theorem value_quote (s : String) : Json.Value (quote s.toList ++ rest) (.text s) rest := by
  have hv := Json.Value.text (@characters_escape s.toList rest)
  rw [String.ofList_toList] at hv
  simpa [quote] using hv

theorem value_number (x : Binary32) :
    Json.Value (x.text.toList ++ rest) (Data.number x).json rest := by
  match x with
  | .finite negative units fits =>
    have h := @Json.Value.number _ rest <| @Binary32.numeral_text units negative fits
    rwa [String.ofList_toList] at h
  | .infinite _ | .nan =>
    have null : "null".toList = ['n', 'u', 'l', 'l'] := by decide
    show Json.Value ("null".toList ++ rest) .null rest
    rw [null]
    exact .null

-- Layout.

theorem white_append {w : List Char} (h : ∀ c ∈ w, c ∈ whites) : White (w ++ rest) rest := by
  induction w with
  | nil       => exact .nil
  | cons _ _ ih =>
    have ⟨hc, h⟩ := List.forall_mem_cons.mp h
    exact .cons hc <| ih h

theorem white_of_mem_newLine : ∀ c ∈ newLine level, c ∈ whites :=
  List.forall_mem_cons.mpr ⟨by decide, fun _ hc => List.eq_of_mem_replicate hc ▸ by decide⟩

theorem white_newLine : White (newLine level ++ rest) rest :=
  white_append white_of_mem_newLine

-- A colon, maybe with white space around it.
inductive Separates : List Char → Prop
  | intro : (∀ c ∈ before, c ∈ whites) → (∀ c ∈ after, c ∈ whites) →
    Separates (before ++ ':' :: after)

theorem member_quote {w : List Char} (hw : ∀ c ∈ w, c ∈ whites) (hc : Separates colon) (k : String)
    (hv : Json.Value s v rest) : Member (w ++ (quote k.toList ++ (colon ++ s))) (k, v) rest := by
  cases hc with
  | intro hb ha =>
    have hm := Member.intro (white_append hw) (@characters_escape k.toList _)
      (white_append hb) (.intro (white_append ha) hv)
    rw [String.ofList_toList] at hm
    simpa [quote] using hm

-- By recursion over the data. What stands behind the first item of a list goes on to close the list.

mutual

theorem value_pretty (hc : Separates colon) (level : Nat) (rest : List Char) (d : Data) :
    Json.Value (d.pretty colon level ++ rest) d.json rest := by
  match d with
  | .text s =>
    rw [pretty, json]
    exact value_quote s
  | .whole n =>
    rw [pretty, json]
    exact .number <| numeral_toDigits n
  | .number x =>
    rw [pretty]
    exact value_number x
  | .list [] => exact .emptyList .nil
  | .list (i :: items) =>
    have h := elements_pretty hc level rest items (value_pretty hc (level + 1) _ i)
    rw [pretty, json, jsonItems]
    simpa using Json.Value.list h
  | .record [] => exact .emptyObject .nil
  | .record ((k, v) :: fields) =>
    have h := members_pretty hc level rest fields k (value_pretty hc (level + 1) _ v)
    rw [pretty, json, jsonFields]
    simpa using Json.Value.object h
  | .variant tag [] =>
    have h := Members.last (member_quote (@white_of_mem_newLine (level + 1)) hc tag (.emptyObject .nil)) <|
      @white_newLine ('\x7d' :: rest) level
    rw [pretty, json, jsonFields]
    simpa using Json.Value.object h
  | .variant tag ((k, v) :: fields) =>
    have h := members_pretty hc (level + 1) (newLine level ++ '\x7d' :: rest) fields k
      (value_pretty hc (level + 2) _ v)
    have h := Members.last (member_quote (@white_of_mem_newLine (level + 1)) hc tag (.object h)) white_newLine
    rw [pretty, json, jsonFields]
    simpa using Json.Value.object h

theorem elements_pretty (hc : Separates colon) (level : Nat) (rest : List Char) (items : List Data)
    {s : List Char} {v : Json} (hv : Json.Value s v (prettyItems colon level items ++ rest)) :
    Elements (newLine (level + 1) ++ s) (v :: jsonItems items) rest := by
  match items with
  | [] =>
    rw [prettyItems, List.append_assoc] at hv
    rw [jsonItems]
    exact .last (.intro white_newLine hv) white_newLine
  | i :: more =>
    have h := elements_pretty hc level rest more (value_pretty hc (level + 1) _ i)
    rw [prettyItems, List.cons_append, List.append_assoc, List.append_assoc] at hv
    rw [jsonItems]
    exact .cons (.intro white_newLine hv) .nil h

theorem members_pretty (hc : Separates colon) (level : Nat) (rest : List Char)
    (fields : List (String × Data)) (k : String) {s : List Char} {v : Json}
    (hv : Json.Value s v (prettyFields colon level fields ++ rest)) :
    Members (newLine (level + 1) ++ (quote k.toList ++ (colon ++ s))) ((k, v) :: jsonFields fields)
      rest := by
  match fields with
  | [] =>
    rw [prettyFields, List.append_assoc] at hv
    rw [jsonFields]
    exact .last (member_quote white_of_mem_newLine hc k hv) white_newLine
  | (k', v') :: more =>
    have h := members_pretty hc level rest more k' (value_pretty hc (level + 1) _ v')
    rw [prettyFields] at hv
    simp only [List.cons_append, List.append_assoc] at hv
    rw [jsonFields]
    exact .cons (member_quote white_of_mem_newLine hc k hv) .nil h

end

-- Without any white space, in the same way.

theorem separates_colon : Separates [':'] :=
  @Separates.intro [] [] nofun nofun

theorem member_compact (k : String) (hv : Json.Value s v rest) :
    Member (quote k.toList ++ ':' :: s) (k, v) rest :=
  @member_quote s rest v [':'] [] nofun separates_colon k hv

mutual

theorem value_compact (rest : List Char) (d : Data) :
    Json.Value (d.compact ++ rest) d.json rest := by
  match d with
  | .text s =>
    rw [compact, json]
    exact value_quote s
  | .whole n =>
    rw [compact, json]
    exact .number <| numeral_toDigits n
  | .number x =>
    rw [compact]
    exact value_number x
  | .list [] => exact .emptyList .nil
  | .list (i :: items) =>
    have h := elements_compact rest items (value_compact _ i)
    rw [compact, json, jsonItems]
    simpa using Json.Value.list h
  | .record [] => exact .emptyObject .nil
  | .record ((k, v) :: fields) =>
    have h := members_compact rest fields k (value_compact _ v)
    rw [compact, json, jsonFields]
    simpa using Json.Value.object h
  | .variant tag [] =>
    have h := Members.last (member_compact tag (.emptyObject .nil)) (@White.nil ('\x7d' :: rest))
    rw [compact, json, jsonFields]
    simpa using Json.Value.object h
  | .variant tag ((k, v) :: fields) =>
    have h := members_compact ('\x7d' :: rest) fields k (value_compact _ v)
    have h := Members.last (member_compact tag (.object h)) .nil
    rw [compact, json, jsonFields]
    simpa using Json.Value.object h

theorem elements_compact (rest : List Char) (items : List Data) {s : List Char} {v : Json}
    (hv : Json.Value s v (compactItems items ++ rest)) : Elements s (v :: jsonItems items) rest := by
  match items with
  | [] =>
    rw [jsonItems]
    exact .last (.intro .nil hv) .nil
  | i :: more =>
    have h := elements_compact rest more (value_compact _ i)
    rw [compactItems, List.cons_append, List.append_assoc] at hv
    rw [jsonItems]
    exact .cons (.intro .nil hv) .nil h

theorem members_compact (rest : List Char) (fields : List (String × Data)) (k : String)
    {s : List Char} {v : Json} (hv : Json.Value s v (compactFields fields ++ rest)) :
    Members (quote k.toList ++ ':' :: s) ((k, v) :: jsonFields fields) rest := by
  match fields with
  | [] =>
    rw [jsonFields]
    exact .last (member_compact k hv) .nil
  | (k', v') :: more =>
    have h := members_compact rest more k' (value_compact _ v')
    rw [compactFields] at hv
    simp only [List.cons_append, List.append_assoc] at hv
    rw [jsonFields]
    exact .cons (member_compact k hv) .nil h

end

-- White space behind a text makes no difference.
theorem denotes_of_value {text behind : String} (hw : ∀ c ∈ behind.toList, c ∈ whites)
    (hv : Json.Value (text.toList ++ behind.toList) v behind.toList) :
    Json.Denotes (text ++ behind) v := by
  have hb := @white_append [] _ hw
  rw [List.append_nil] at hb
  exact ⟨_, String.toList_append ▸ .intro .nil hv, hb⟩

theorem denotes_compact (d : Data) : Json.Denotes d.toJson d.json := by
  have h := @denotes_of_value d.json d.toJson "" nofun <| by
    rw [toJson, String.toList_ofList]
    exact value_compact _ d
  rwa [String.append_empty] at h

theorem denotes_pretty {behind : String} (hw : ∀ c ∈ behind.toList, c ∈ whites) (d : Data) :
    Json.Denotes (d.toPrettyJson ++ behind) d.json := by
  have hc := @Separates.intro [] [' '] nofun <| List.forall_mem_singleton.mpr List.mem_cons_self
  refine denotes_of_value hw ?_
  rw [toPrettyJson, String.toList_ofList]
  exact value_pretty hc 0 _ d

theorem denotes_spaced (d : Data) : Json.Denotes d.toSpacedJson d.json := by
  have space : ∀ c ∈ [' '], c ∈ whites := List.forall_mem_singleton.mpr List.mem_cons_self
  have h := @denotes_of_value d.json d.toSpacedJson "" nofun <| by
    rw [toSpacedJson, String.toList_ofList]
    exact value_pretty (.intro space space) 0 _ d
  rwa [String.append_empty] at h

end Data

end Palette
