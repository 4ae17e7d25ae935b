import Palette.Accessor.Tree
import Palette.Number.Fixed

-- Accessors as Swift source, line by line. Groups become nested enums and colors become static
-- constants, which either look a color up in the catalog by its qualified name or build it in place.

namespace Palette.Accessor

-- How a color is come by: from the asset catalog, or built where it is used.
inductive Mode where
  | assetCatalog
  | dynamicColor
  deriving DecidableEq, Inhabited

-- Who may use the accessors: the module that they are part of, or others too.
inductive Access where
  | internal
  | exported
  deriving DecidableEq, Inhabited

-- How accessors are written.
structure Style where
  mode : Mode := .assetCatalog
  access : Access := .internal
  indent : String := "  "
  deriving DecidableEq, Inhabited

-- One line, without its end.
abbrev Line := List Char

-- The modifier in front of what is declared.
def Access.modifier : Access → Line
  | .internal => []
  | .exported => "public ".toList

-- A color channel as a fraction with three places.
def channelText (channel : UInt8) : Line :=
  ((Binary32.ofRatio false channel.toNat 255).fixed 3).toList

-- An expression that builds a color.
def colorExpression (c : Color) : Line :=
  "UIColor(red: ".toList ++ channelText c.red ++ ", green: ".toList ++ channelText c.green ++
    ", blue: ".toList ++ channelText c.blue ++ ", alpha: ".toList ++ (c.alpha.fixed 3).toList ++ [')']

-- An expression for colors that depend on the appearance, where the dark one comes first.
def colorsExpression : Resolved → Line
  | .plain c => colorExpression c
  | .lightDark light dark =>
    "UIColor \x7b $0.userInterfaceStyle == .dark ? ".toList ++ colorExpression dark ++
      " : ".toList ++ colorExpression light ++ " \x7d".toList

-- What an accessor is defined as.
def initializer (mode : Mode) (qualified : String) (colors : Resolved) : Line :=
  match mode with
  | .assetCatalog =>
    "UIColor(named: \"".toList ++ qualified.toList ++
      "\", in: BundleToken.bundle, compatibleWith: nil)!".toList
  | .dynamicColor => colorsExpression colors

variable (style : Style)

-- The white space in front of a line so many levels deep.
def indentation (depth : Nat) : Line := (List.replicate depth style.indent.toList).flatten

mutual

def memberLines (depth : Nat) : Member → List Line
  | .entry name qualified colors =>
    [indentation style depth ++ (style.access.modifier ++ ("static let ".toList ++ (name.toList ++
      (" = ".toList ++ initializer style.mode qualified colors))))]
  | .group name _ members =>
    (indentation style depth ++
        (style.access.modifier ++ ("enum ".toList ++ (name.toList ++ " \x7b".toList)))) ::
      (membersLines (depth + 1) members ++ [indentation style depth ++ ['\x7d']])

def membersLines (depth : Nat) : List Member → List Line
  | [] => []
  | m :: rest => memberLines depth m ++ membersLines depth rest

end

-- The lines above the accessors.
def headerLines : List Line :=
  ["// This file is automatically generated. Do not edit, your changes will be erased.".toList,
    [], "import UIKit".toList, [], "extension UIColor \x7b".toList]

-- The lines below the accessors: what they look colors up in, if they do.
def footerLines : Mode → List Line
  | .dynamicColor => []
  | .assetCatalog =>
    [[], "private final class BundleToken \x7b".toList, "  static let bundle: Bundle = \x7b".toList,
      "    #if SWIFT_PACKAGE".toList, "    return Bundle.module".toList, "    #else".toList,
      "    return Bundle(for: BundleToken.self)".toList, "    #endif".toList,
      "  \x7d()".toList, "\x7d".toList]

-- All lines of a source.
def sourceLines (root : Member) : List Line :=
  headerLines ++ (memberLines style 1 root ++ (['\x7d'] :: footerLines style.mode))

-- The source for a tree of accessors, every line of it ended by a line feed.
def source (root : Member) : String :=
  String.ofList ((sourceLines style root).flatMap (· ++ ['\n']))

-- The source for the accessors of a sheet.
def render (sheet : Sheet) (Γ : Context) : Except ResolveError String := do
  let root ← tree Γ sheet
  return source style root

end Palette.Accessor
