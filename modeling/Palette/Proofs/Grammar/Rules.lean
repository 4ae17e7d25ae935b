import Mathlib.Data.Nat.Digits.Defs
import Palette.Sheet.Numeral

-- The grammar of color sheets, without any order among its alternatives.
--
-- A rule relates the text where a construct begins to what the construct means and to the text that
-- is left behind it. Rules do not say how far a construct goes: a name may end before its letters
-- do, and blanks may be left over. Only what has to follow a construct settles where it ends.

namespace Palette.Grammar

abbrev Rule (α : Type) := List Char → α → List Char → Prop

inductive Blanks : List Char → List Char → Prop
  | nil   : Blanks s s
  | space : Blanks s rest → Blanks (' ' :: s) rest
  | tab   : Blanks s rest → Blanks ('\t' :: s) rest

inductive LineBreak : List Char → List Char → Prop
  | lf   : LineBreak ('\n' :: rest) rest
  | crlf : LineBreak ('\r' :: '\n' :: rest) rest

def NoLineBreak (text : List Char) : Prop :=
  ∀ c ∈ text, c ≠ '\r' ∧ c ≠ '\n'

-- Two slashes and what follows them up to a line break or the end of the text, neither of which is
-- part of the comment. A lone carriage return is neither part of a comment nor the end of one.
inductive Comment : List Char → List Char → Prop
  | line : NoLineBreak text → LineBreak rest behind → Comment ('/' :: '/' :: (text ++ rest)) rest
  | last : NoLineBreak text → Comment ('/' :: '/' :: text) []

inductive Trivia : List Char → List Char → Prop
  | nil     : Trivia s s
  | blank   : c ∈ [' ', '\t', '\r', '\n'] → Trivia s rest → Trivia (c :: s) rest
  | comment : Comment s s₁ → Trivia s₁ rest → Trivia s rest

-- What stands behind an item: blanks and a comment, either of which may be missing, and then a line
-- break with more trivia. Instead of a line break there may be what closes the items, which is left.
inductive ItemEnd (Closes : List Char → Prop) : List Char → List Char → Prop
  | line : Blanks s s₁ → s₁ = s₂ ∨ Comment s₁ s₂ → LineBreak s₂ s₃ → Trivia s₃ rest →
    ItemEnd Closes s rest
  | last : Blanks s s₁ → s₁ = rest ∨ Comment s₁ rest → Closes rest → ItemEnd Closes s rest

inductive Separator (c : Char) : List Char → List Char → Prop
  | intro : Blanks s (c :: s₁) → Blanks s₁ rest → Separator c s rest

inductive Name : Rule String
  | intro : cs ≠ [] → (∀ c ∈ cs, c.isAlphanum) → Name (cs ++ rest) (String.ofList cs) rest

inductive Digits : Rule (List Char)
  | intro : ds ≠ [] → (∀ d ∈ ds, d.isDigit) → Digits (ds ++ rest) ds rest

def decimal (ds : List Char) : Nat :=
  Nat.ofDigits 10 (ds.reverse.map fun d => d.toNat - '0'.toNat)

-- A hex digit is of either case.
def HexDigit (c : Char) (n : Nat) : Prop :=
  n < 16 ∧ (c = Nat.digitChar n ∨ c = (Nat.digitChar n).toUpper)

inductive HexByte : Rule UInt8
  | intro : HexDigit a m → HexDigit b n → HexByte (a :: b :: rest) (UInt8.ofNat (16 * m + n)) rest

inductive Opacity : Rule Binary32
  | full    : Opacity s .one s
  | percent : b ∈ [' ', '\t'] → Blanks s s₁ → Digits s₁ ds ('%' :: rest) → decimal ds ≤ 100 →
    Opacity (b :: s) (.ofRatio false (decimal ds) 100) rest

inductive HexColor : Rule Color
  | intro : HexByte s red s₁ → HexByte s₁ green s₂ → HexByte s₂ blue s₃ → Opacity s₃ alpha rest →
    HexColor ('#' :: s) ⟨red, green, blue, alpha⟩ rest

inductive Channel : Rule UInt8
  | intro : Digits s ds rest → decimal ds ≤ 255 → Channel s (UInt8.ofNat (decimal ds)) rest

inductive Sign : Rule Bool
  | plus  : Sign ('+' :: rest) false rest
  | minus : Sign ('-' :: rest) true rest
  | none  : Sign rest false rest

-- The digits before a point and those behind it. The point may be missing if no digits follow it.
inductive Mantissa : Rule (List Char × List Char)
  | whole    : Digits s ds rest → Mantissa s (ds, []) rest
  | point    : Digits s ds ('.' :: rest) → Mantissa s (ds, []) rest
  | both     : Digits s ds ('.' :: s₁) → Digits s₁ fs rest → Mantissa s (ds, fs) rest
  | fraction : Digits s fs rest → Mantissa ('.' :: s) ([], fs) rest

inductive Exponent : Rule Int
  | none : Exponent s 0 s
  | mark : c ∈ ['e', 'E'] → Sign s negative s₁ → Digits s₁ ds rest →
    Exponent (c :: s) (if negative then -decimal ds else decimal ds) rest

inductive Numeral : Rule Palette.Numeral
  | decimal : Sign s negative s₁ → Mantissa s₁ (ds, fs) s₂ → Exponent s₂ exponent rest →
    Numeral s (.decimal negative (decimal (ds ++ fs)) (exponent - fs.length)) rest
  | infinity : a ∈ ['i', 'I'] → b ∈ ['n', 'N'] → c ∈ ['f', 'F'] →
    Numeral (a :: b :: c :: rest) .infinity rest
  | nan : a ∈ ['n', 'N'] → b ∈ ['a', 'A'] → c ∈ ['n', 'N'] → Numeral (a :: b :: c :: rest) .nan rest

inductive Alpha : Rule Binary32
  | intro : Numeral s n rest → n.toBinary32.InUnitInterval → Alpha s n.toBinary32 rest

inductive ChannelColor : Rule Color
  | intro : Blanks s s₁ → Channel s₁ red s₂ → Separator ',' s₂ s₃ → Channel s₃ green s₄ →
    Separator ',' s₄ s₅ → Channel s₅ blue s₆ → Separator ',' s₆ s₇ → Alpha s₇ alpha s₈ →
    Blanks s₈ (')' :: rest) →
    ChannelColor ('r' :: 'g' :: 'b' :: 'a' :: '(' :: s) ⟨red, green, blue, alpha⟩ rest

inductive Reference : Rule Palette.Reference
  | intro : Name s n s₁ → Opacity s₁ opacity rest → Reference ('$' :: s) ⟨n, opacity⟩ rest

inductive Slot : Rule Palette.Slot
  | hexColor     : HexColor s c rest → Slot s (.color c) rest
  | channelColor : ChannelColor s c rest → Slot s (.color c) rest
  | reference    : Reference s r rest → Slot s (.reference r) rest

inductive Labelled (label : String) : Rule Palette.Slot
  | intro : Name s label s₁ → Separator ':' s₁ s₂ → Slot s₂ slot rest → Labelled label s slot rest

inductive Pair : Rule Palette.Value
  | lightDark : Blanks s s₁ → Labelled "light" s₁ light s₂ → Separator ',' s₂ s₃ →
    Labelled "dark" s₃ dark s₄ → Blanks s₄ (')' :: rest) →
    Pair ('(' :: s) (.lightDark light dark) rest
  | darkLight : Blanks s s₁ → Labelled "dark" s₁ dark s₂ → Separator ',' s₂ s₃ →
    Labelled "light" s₃ light s₄ → Blanks s₄ (')' :: rest) →
    Pair ('(' :: s) (.lightDark light dark) rest

inductive Value : Rule Palette.Value
  | plain : Slot s slot rest → Value s (.plain slot) rest
  | pair  : Pair s v rest → Value s v rest

inductive Declaration : Rule Palette.Declaration
  | intro : Name s n s₁ → Separator ':' s₁ s₂ → Value s₂ v rest → Declaration s ⟨n, v⟩ rest

def ClosingBrace (s : List Char) : Prop :=
  s.head? = some '}'

mutual

inductive Item : Rule Palette.Item
  | declaration : Declaration s d rest → Item s (.declaration d) rest
  | group : Name s n s₁ → Blanks s₁ ('{' :: s₂) → Trivia s₂ s₃ → Items s₃ items rest →
    Item s (.group n items) rest

-- The items of a group and its closing brace.
inductive Items : Rule (List Palette.Item)
  | nil  : Items ('}' :: rest) [] rest
  | cons : Item s i s₁ → ItemEnd ClosingBrace s₁ s₂ → Items s₂ items rest → Items s (i :: items) rest

end

inductive TopItem : Rule Palette.TopItem
  | variable : Declaration s d rest → TopItem ('$' :: s) (.variable d) rest
  | item     : Item s i rest → TopItem s (.item i) rest

inductive TopItems : List Char → List Palette.TopItem → Prop
  | nil  : TopItems [] []
  | cons : TopItem s i s₁ → ItemEnd (· = []) s₁ s₂ → TopItems s₂ items → TopItems s (i :: items)

end Grammar

mutual

-- How deep groups nest.
def Item.depth : Item → Nat
  | .declaration _ => 0
  | .group _ items => Item.depths items + 1

def Item.depths : List Item → Nat
  | []        => 0
  | i :: rest => max i.depth (Item.depths rest)

end

-- What the text of a sheet means. Groups nest at most 64 deep.
def Grammar.Derives (source : String) (sheet : Sheet) : Prop :=
  ∃ start, Trivia source.toList start ∧ TopItems start sheet.items ∧ Item.depths sheet.body ≤ 64

end Palette
