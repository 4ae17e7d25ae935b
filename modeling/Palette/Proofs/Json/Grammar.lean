import Palette.Proofs.Grammar.Rules

-- JSON texts and what they denote. Rules are as for color sheets: they relate the text where a
-- construct begins to what it denotes and to the text behind it.

namespace Palette

-- What a JSON text denotes. Fields keep their order, and a number is the numeral that it is written as.
inductive Json where
  | null
  | boolean (b : Bool)
  | number (numeral : String)
  | text (s : String)
  | list (items : List Json)
  | object (fields : List (String × Json))
  deriving Inhabited

namespace Json

open Grammar (Rule HexDigit)

def whites : List Char :=
  [' ', '\t', '\n', '\r']

inductive White : List Char → List Char → Prop
  | nil  : White s s
  | cons : c ∈ whites → White s rest → White (c :: s) rest

def Digits (ds : List Char) : Prop :=
  ds ≠ [] ∧ ∀ d ∈ ds, d.isDigit

-- A number does not begin with a zero unless there are no more digits before the point.
def Whole (ds : List Char) : Prop :=
  ds = ['0'] ∨ Digits ds ∧ ds.head? ≠ some '0'

inductive Fraction : List Char → Prop
  | none  : Fraction []
  | point : Digits ds → Fraction ('.' :: ds)

inductive Exponent : List Char → Prop
  | none : Exponent []
  | mark : c ∈ ['e', 'E'] → sign ∈ [[], ['+'], ['-']] → Digits ds → Exponent (c :: (sign ++ ds))

inductive Magnitude : List Char → Prop
  | intro : Whole whole → Fraction fraction → Exponent exponent →
    Magnitude (whole ++ (fraction ++ exponent))

inductive Numeral : List Char → Prop
  | intro : sign ∈ [[], ['-']] → Magnitude m → Numeral (sign ++ m)

-- The letters that may stand behind a backslash, and what they stand for.
def escapes : List (Char × Char) :=
  [('"', '"'), ('\\', '\\'), ('/', '/'), ('b', '\x08'), ('f', '\x0c'), ('n', '\n'), ('r', '\r'),
    ('t', '\t')]

inductive CodeUnit : Rule Nat
  | intro : HexDigit a i → HexDigit b j → HexDigit c k → HexDigit d l →
    CodeUnit (a :: b :: c :: d :: rest) (16 * (16 * (16 * i + j) + k) + l) rest

-- A character of a text. Those that take two code units are given as a pair of surrogates, which do
-- not denote anything on their own.
inductive Character : Rule Char
  | plain  : 0x20 ≤ c.toNat → c ≠ '"' → c ≠ '\\' → Character (c :: rest) c rest
  | letter : (letter, c) ∈ escapes → Character ('\\' :: letter :: rest) c rest
  | code   : CodeUnit s n rest → n < 0xD800 ∨ 0xE000 ≤ n →
    Character ('\\' :: 'u' :: s) (Char.ofNat n) rest
  | pair   : CodeUnit s high ('\\' :: 'u' :: s₁) → CodeUnit s₁ low rest →
    0xD800 ≤ high ∧ high < 0xDC00 → 0xDC00 ≤ low ∧ low < 0xE000 →
    Character ('\\' :: 'u' :: s) (Char.ofNat (0x10000 + 0x400 * (high - 0xD800) + (low - 0xDC00))) rest

-- The characters of a text and the quotation mark behind them.
inductive Characters : Rule (List Char)
  | nil  : Characters ('"' :: rest) [] rest
  | cons : Character s c s₁ → Characters s₁ cs rest → Characters s (c :: cs) rest

mutual

inductive Value : Rule Json
  | null        : Value ('n' :: 'u' :: 'l' :: 'l' :: rest) .null rest
  | isTrue      : Value ('t' :: 'r' :: 'u' :: 'e' :: rest) (.boolean true) rest
  | isFalse     : Value ('f' :: 'a' :: 'l' :: 's' :: 'e' :: rest) (.boolean false) rest
  | number      : Numeral n → Value (n ++ rest) (.number (String.ofList n)) rest
  | text        : Characters s cs rest → Value ('"' :: s) (.text (String.ofList cs)) rest
  | emptyList   : White s (']' :: rest) → Value ('[' :: s) (.list []) rest
  | list        : Elements s items rest → Value ('[' :: s) (.list items) rest
  | emptyObject : White s ('\x7d' :: rest) → Value ('\x7b' :: s) (.object []) rest
  | object      : Members s fields rest → Value ('\x7b' :: s) (.object fields) rest

inductive Element : Rule Json
  | intro : White s s₁ → Value s₁ v rest → Element s v rest

-- The elements of a list and the bracket that closes it.
inductive Elements : Rule (List Json)
  | last : Element s v s₁ → White s₁ (']' :: rest) → Elements s [v] rest
  | cons : Element s v s₁ → White s₁ (',' :: s₂) → Elements s₂ items rest →
    Elements s (v :: items) rest

inductive Member : Rule (String × Json)
  | intro : White s ('"' :: s₁) → Characters s₁ name s₂ → White s₂ (':' :: s₃) →
    Element s₃ v rest → Member s (String.ofList name, v) rest

-- The members of an object and the brace that closes it.
inductive Members : Rule (List (String × Json))
  | last : Member s field s₁ → White s₁ ('\x7d' :: rest) → Members s [field] rest
  | cons : Member s field s₁ → White s₁ (',' :: s₂) → Members s₂ fields rest →
    Members s (field :: fields) rest

end

-- A whole text, with any white space around what it denotes.
def Denotes (text : String) (v : Json) : Prop :=
  ∃ rest, Element text.toList v rest ∧ White rest []

end Json

end Palette
