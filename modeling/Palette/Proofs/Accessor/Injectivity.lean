import Palette.Proofs.Accessor.Lines
import Palette.Proofs.Number.Fixed

-- A source tells which tree it is for, up to what is not written down in it. Lines are told apart by
-- how they begin, and each part of a line by the character that ends it.

namespace Palette

open Binary32 (pointed pointed_injective roundUnits unitsPerOne)

namespace Accessor

-- Colors that are written in the same way.
structure SameColor (c c' : Color) : Prop where
  red   : c.red = c'.red
  green : c.green = c'.green
  blue  : c.blue = c'.blue
  alpha : c.alpha.fixed 3 = c'.alpha.fixed 3

inductive SameColors : Resolved → Resolved → Prop
  | plain     : SameColor c c' → SameColors (.plain c) (.plain c')
  | lightDark : SameColor light light' → SameColor dark dark' →
    SameColors (.lightDark light dark) (.lightDark light' dark')

-- What is looked up in a catalog has a name, and what is built in place has colors.
def SameInitializer : Mode → String → Resolved → String → Resolved → Prop
  | .assetCatalog, qualified, _, qualified', _ => qualified = qualified'
  | .dynamicColor, _, colors, _, colors'       => SameColors colors colors'

mutual

-- Members of the same names, nested and ordered in the same way, with the same initializers.
inductive Alike (mode : Mode) : Member → Member → Prop
  | entry : SameInitializer mode qualified colors qualified' colors' →
    Alike mode (.entry name qualified colors) (.entry name qualified' colors')
  | group : AllAlike mode members members' →
    Alike mode (.group name qualified members) (.group name qualified' members')

inductive AllAlike (mode : Mode) : List Member → List Member → Prop
  | nil  : AllAlike mode [] []
  | cons : Alike mode m m' → AllAlike mode members members' →
    AllAlike mode (m :: members) (m' :: members')

end

mutual

-- All names that may be written down for a member.

def Member.names : Member → List String
  | .entry name qualified _ => [name, qualified]
  | .group name _ members   => name :: namesOf members

def namesOf : List Member → List String
  | []        => []
  | m :: rest => m.names ++ namesOf rest

end

def Alphanumeric (names : List String) : Prop :=
  ∀ name ∈ names, ∀ c ∈ name.toList, c.isAlphanum

def Blank (text : String) : Prop :=
  ∀ c ∈ text.toList, c = ' ' ∨ c = '\t'

instance {names : List String} : Decidable (Alphanumeric names) :=
  decidable_of_iff (names.all fun name => name.toList.all Char.isAlphanum) (by simp [Alphanumeric])

instance {text : String} : Decidable (Blank text) :=
  decidable_of_iff (text.toList.all fun c => c = ' ' ∨ c = '\t') (by simp [Blank])

section

variable {a : Char} {x x' y y' : Line} {lines lines' : List Line}

-- What stands before the first character of a kind, and what stands behind it.
theorem append_cons_inj (hx : a ∉ x) (hx' : a ∉ x') (h : x ++ a :: y = x' ++ a :: y') :
    x = x' ∧ y = y' := by
  have hr : y.reverse ++ a :: x.reverse = y'.reverse ++ a :: x'.reverse := by
    simpa using congrArg List.reverse h
  have hx : x = x' := List.reverse_inj.mp <| eq_of_append_cons (by simpa) (by simpa) hr
  subst hx
  exact ⟨rfl, (List.cons.inj <| List.append_cancel_left h).right⟩

theorem flatMap_lineFeed_inj (hl : ∀ line ∈ lines, '\n' ∉ line) (hl' : ∀ line ∈ lines', '\n' ∉ line)
    (h : lines.flatMap (· ++ ['\n']) = lines'.flatMap (· ++ ['\n'])) : lines = lines' := by
  induction lines generalizing lines'
  case nil => cases lines' <;> simp at h ⊢
  case cons line rest ih =>
    cases lines'
    case nil => simp at h
    case cons line' rest' =>
      have ⟨hn, hl⟩ := List.forall_mem_cons.mp hl
      have ⟨hn', hl'⟩ := List.forall_mem_cons.mp hl'
      simp only [List.flatMap_cons, List.append_assoc, List.singleton_append] at h
      have ⟨he, h⟩ := append_cons_inj hn hn' h
      rw [he, ih hl hl' h]

end

-- Channels are written with more places than it takes to tell them apart.

section

def thousandths (n : Nat) : Nat :=
  roundDiv (roundUnits (n * unitsPerOne) 255 * Nat.pow 10 3) unitsPerOne

theorem channelText_eq (channel : UInt8) :
    channelText channel = pointed 3 (thousandths channel.toNat) := by
  have all : ∀ n : Fin 256, roundUnits (n * unitsPerOne) 255 < unitsLimit := by decide +kernel
  have fits : roundUnits (channel.toNat * unitsPerOne) 255 < unitsLimit := all channel.toFin
  rw [channelText, Binary32.ofRatio, Binary32.ofUnits, dif_pos fits, Binary32.toList_fixed_finite,
    thousandths, if_neg (by decide), List.nil_append]

theorem channelText_injective : Function.Injective channelText := by
  have all : ∀ n : Fin 256, (thousandths n * 255 + 500) / 1000 = n := by decide +kernel
  have back (c : UInt8) : (thousandths c.toNat * 255 + 500) / 1000 = c.toNat := all c.toFin
  intro c c' h
  rw [channelText_eq, channelText_eq] at h
  rw [← UInt8.toNat_inj, ← back c, pointed_injective h, back c']

end

-- Expressions, with anything behind them.

section

variable {c c' : Color} {colors colors' : Resolved} {rest rest' : Line}

theorem not_mem_fixed {x : Binary32} {a : Char} (ha : a.isAlphanum = false ∧ a ≠ '.' ∧ a ≠ '-') :
    a ∉ (x.fixed places).toList := by
  intro h
  cases Binary32.mem_fixed h <;> simp_all

theorem colorExpression_append :
    colorExpression c ++ rest =
      "UIColor(red: ".toList ++ (channelText c.red ++ ',' ::
        (" green: ".toList ++ (channelText c.green ++ ',' ::
          (" blue: ".toList ++ (channelText c.blue ++ ',' ::
            (" alpha: ".toList ++ ((c.alpha.fixed 3).toList ++ ')' :: rest))))))) := by
  have green : ", green: ".toList = ',' :: " green: ".toList := by decide
  have blue : ", blue: ".toList = ',' :: " blue: ".toList := by decide
  have alpha : ", alpha: ".toList = ',' :: " alpha: ".toList := by decide
  unfold colorExpression
  simp only [green, blue, alpha, List.append_assoc, List.cons_append, List.nil_append]

theorem colorExpression_append_inj (h : colorExpression c ++ rest = colorExpression c' ++ rest') :
    SameColor c c' ∧ rest = rest' := by
  have comma {channel : UInt8} : ',' ∉ channelText channel := not_mem_fixed (by decide)
  have bracket {alpha : Binary32} : ')' ∉ (alpha.fixed 3).toList := not_mem_fixed (by decide)
  rw [colorExpression_append, colorExpression_append] at h
  have ⟨red, h⟩ := append_cons_inj comma comma <| List.append_cancel_left h
  have ⟨green, h⟩ := append_cons_inj comma comma <| List.append_cancel_left h
  have ⟨blue, h⟩ := append_cons_inj comma comma <| List.append_cancel_left h
  have ⟨alpha, h⟩ := append_cons_inj bracket bracket <| List.append_cancel_left h
  have hc : SameColor c c' := {
    red   := channelText_injective red
    green := channelText_injective green
    blue  := channelText_injective blue
    alpha := String.toList_inj.mp alpha
  }
  exact ⟨hc, h⟩

theorem colorsExpression_lightDark :
    colorsExpression (.lightDark c c') =
      "UIColor".toList ++ ' ' :: ("\x7b $0.userInterfaceStyle == .dark ? ".toList ++
        (colorExpression c' ++ (" : ".toList ++ (colorExpression c ++ " \x7d".toList)))) := by
  have opening : "UIColor \x7b $0.userInterfaceStyle == .dark ? ".toList =
      "UIColor".toList ++ ' ' :: "\x7b $0.userInterfaceStyle == .dark ? ".toList := by
    decide
  unfold colorsExpression
  simp only [opening, List.append_assoc, List.cons_append]

-- One color opens a bracket where a pair of them has a blank.
theorem colorExpression_ne_lightDark :
    colorExpression c ≠ colorsExpression (.lightDark light dark) := by
  have opening : "UIColor(red: ".toList = "UIColor".toList ++ '(' :: "red: ".toList := by decide
  intro h
  rw [← List.append_nil (colorExpression c), colorExpression_append, colorsExpression_lightDark,
    opening, List.append_assoc, List.cons_append] at h
  have h := List.head_eq_of_cons_eq <| List.append_cancel_left h
  exact absurd h (by decide)

theorem colorsExpression_inj (h : colorsExpression colors = colorsExpression colors') :
    SameColors colors colors' := by
  cases colors with
  | plain c =>
    cases colors' with
    | plain c' =>
      have h : colorExpression c ++ [] = colorExpression c' ++ [] := congrArg (· ++ []) h
      exact .plain (colorExpression_append_inj h).left
    | lightDark => exact absurd h colorExpression_ne_lightDark
  | lightDark light dark =>
    cases colors' with
    | plain => exact absurd h.symm colorExpression_ne_lightDark
    | lightDark light' dark' =>
      rw [colorsExpression_lightDark, colorsExpression_lightDark] at h
      have h := List.tail_eq_of_cons_eq <| List.append_cancel_left h
      have ⟨hd, h⟩ := colorExpression_append_inj <| List.append_cancel_left h
      have ⟨hl, _⟩ := colorExpression_append_inj <| List.append_cancel_left h
      exact .lightDark hl hd

theorem initializer_inj {mode : Mode} {qualified qualified' : String}
    (h : initializer mode qualified colors = initializer mode qualified' colors') :
    SameInitializer mode qualified colors qualified' colors' := by
  cases mode with
  | assetCatalog =>
    rw [initializer_assetCatalog, initializer_assetCatalog] at h
    exact String.toList_inj.mp <| List.append_cancel_left <| List.append_cancel_right h
  | dynamicColor => exact colorsExpression_inj h

end

-- Lines. None of them holds the character that ends it.

section

variable {style : Style} {depth : Nat} {name name' qualified qualified' : String}
variable {colors colors' : Resolved}

-- What opens a group, and what closes it.

def groupLine (style : Style) (depth : Nat) (name : String) : Line :=
  indentation style depth ++ (style.access.modifier ++ ("enum ".toList ++ (name.toList ++
    " \x7b".toList)))

def closingLine (style : Style) (depth : Nat) : Line :=
  indentation style depth ++ ['\x7d']

theorem not_mem_of_alphanumeric {c : Char} (h : ∀ c ∈ name.toList, c.isAlphanum)
    (hc : c.isAlphanum = false) : c ∉ name.toList :=
  fun hm => absurd (h c hm) (by simp [hc])

theorem accessorLine_inj (hn : ∀ c ∈ name.toList, c.isAlphanum)
    (hn' : ∀ c ∈ name'.toList, c.isAlphanum)
    (h : accessorLine style depth name qualified colors =
      accessorLine style depth name' qualified' colors') :
    name = name' ∧ SameInitializer style.mode qualified colors qualified' colors' := by
  have equals : " = ".toList = ' ' :: "= ".toList := by decide
  simp only [accessorLine, equals, List.append_cancel_left_eq, List.cons_append] at h
  obtain ⟨he, h⟩ :=
    append_cons_inj (not_mem_of_alphanumeric hn rfl) (not_mem_of_alphanumeric hn' rfl) h
  exact ⟨String.toList_inj.mp he, initializer_inj <| List.append_cancel_left h⟩

theorem groupLine_inj (h : groupLine style depth name = groupLine style depth name') :
    name = name' := by
  simp only [groupLine, List.append_cancel_left_eq, List.append_cancel_right_eq] at h
  exact String.toList_inj.mp h

theorem accessorLine_ne_groupLine :
    accessorLine style depth name qualified colors ≠ groupLine style depth name' := by
  have accessor : "static let ".toList = 's' :: "tatic let ".toList := by decide
  have group : "enum ".toList = 'e' :: "num ".toList := by decide
  intro h
  simp only [accessorLine, groupLine, accessor, group, List.append_cancel_left_eq,
    List.cons_append] at h
  exact absurd (List.head_eq_of_cons_eq h) (by decide)

-- The line that opens a member.
def firstLine (style : Style) (depth : Nat) : Member → Line
  | .entry name qualified colors => accessorLine style depth name qualified colors
  | .group name _ _              => groupLine style depth name

theorem mem_indentation {c : Char} (h : c ∈ indentation style depth) : c ∈ style.indent.toList := by
  have ⟨_, hl, hc⟩ := List.mem_flatten.mp h
  exact List.eq_of_mem_replicate hl ▸ hc

-- Other than the line that closes a group, it has letters in it.
theorem firstLine_ne_closingLine {m : Member} {depth' : Nat} (hb : Blank style.indent) :
    firstLine style depth m ≠ closingLine style depth' := by
  have opens : 'e' ∈ firstLine style depth m := by
    have accessor : 'e' ∈ "static let ".toList := by decide
    have group : 'e' ∈ "enum ".toList := by decide
    cases m <;>
      simp only [firstLine, accessorLine, groupLine, List.mem_append, accessor, group, true_or, or_true]
  have closes : 'e' ∉ closingLine style depth' := by
    intro h
    cases List.mem_append.mp h with
    | inl h => exact absurd (hb 'e' <| mem_indentation h) (by decide)
    | inr h => exact absurd h (by decide)
  exact fun h => closes <| h ▸ opens

variable {m : Member} {members : List Member} {rest rest' : List Line}

theorem memberLines_entry_append :
    memberLines style depth (.entry name qualified colors) ++ rest =
      accessorLine style depth name qualified colors :: rest := by
  rw [memberLines]
  rfl

theorem memberLines_group_append :
    memberLines style depth (.group name qualified members) ++ rest =
      groupLine style depth name ::
        (membersLines style (depth + 1) members ++ closingLine style depth :: rest) := by
  rw [memberLines, List.cons_append, List.append_assoc]
  rfl

theorem memberLines_eq_cons : ∃ more, memberLines style depth m = firstLine style depth m :: more := by
  cases m with
  | entry => exact ⟨[], by rw [memberLines]; rfl⟩
  | group => exact ⟨_, by rw [memberLines]; rfl⟩

-- By recursion over the members, which are cancelled line by line. Members end where a group closes.

mutual

theorem memberLines_append_inj {m m' : Member} {depth : Nat} {rest rest' : List Line}
    (hb : Blank style.indent) (hn : Alphanumeric m.names) (hn' : Alphanumeric m'.names)
    (h : memberLines style depth m ++ rest = memberLines style depth m' ++ rest') :
    Alike style.mode m m' ∧ rest = rest' := by
  match m, m' with
  | .entry name .., .entry name' .. =>
    rw [memberLines_entry_append, memberLines_entry_append] at h
    have ⟨hl, hr⟩ := List.cons.inj h
    have ⟨he, hi⟩ := accessorLine_inj (hn name List.mem_cons_self) (hn' name' List.mem_cons_self) hl
    exact ⟨he ▸ .entry hi, hr⟩
  | .entry .., .group .. =>
    rw [memberLines_entry_append, memberLines_group_append] at h
    exact absurd (List.cons.inj h).left accessorLine_ne_groupLine
  | .group .., .entry .. =>
    rw [memberLines_entry_append, memberLines_group_append] at h
    exact absurd (List.cons.inj h).left.symm accessorLine_ne_groupLine
  | .group .., .group .. =>
    rw [memberLines_group_append, memberLines_group_append] at h
    have ⟨hl, h⟩ := List.cons.inj h
    have ⟨ha, hr⟩ := membersLines_append_inj hb (List.forall_mem_cons.mp hn).right
      (List.forall_mem_cons.mp hn').right h
    exact ⟨groupLine_inj hl ▸ .group ha, hr⟩

theorem membersLines_append_inj {members members' : List Member} {depth outer : Nat}
    {rest rest' : List Line} (hb : Blank style.indent) (hn : Alphanumeric (namesOf members))
    (hn' : Alphanumeric (namesOf members'))
    (h : membersLines style depth members ++ closingLine style outer :: rest =
      membersLines style depth members' ++ closingLine style outer :: rest') :
    AllAlike style.mode members members' ∧ rest = rest' := by
  match members, members' with
  | [], [] => exact ⟨.nil, (List.cons.inj h).right⟩
  | [], m :: _ =>
    have ⟨_, he⟩ := @memberLines_eq_cons style depth m
    rw [membersLines, membersLines, he] at h
    exact absurd (List.cons.inj h).left.symm (firstLine_ne_closingLine hb)
  | m :: _, [] =>
    have ⟨_, he⟩ := @memberLines_eq_cons style depth m
    rw [membersLines, membersLines, he] at h
    exact absurd (List.cons.inj h).left (firstLine_ne_closingLine hb)
  | m :: more, m' :: more' =>
    have ⟨hm, hr⟩ := List.forall_mem_append.mp hn
    have ⟨hm', hr'⟩ := List.forall_mem_append.mp hn'
    rw [membersLines, membersLines, List.append_assoc, List.append_assoc] at h
    have ⟨ha, h⟩ := memberLines_append_inj hb hm hm' h
    have ⟨hs, h⟩ := membersLines_append_inj hb hr hr' h
    exact ⟨.cons ha hs, h⟩

end

-- Nothing else is written down.

theorem SameColor.colorExpression_eq {c c' : Color} (h : SameColor c c') :
    colorExpression c = colorExpression c' := by
  unfold colorExpression
  rw [h.red, h.green, h.blue, h.alpha]

theorem SameColors.colorsExpression_eq (h : SameColors colors colors') :
    colorsExpression colors = colorsExpression colors' := by
  cases h with
  | plain h => exact h.colorExpression_eq
  | lightDark hl hd =>
    rw [colorsExpression_lightDark, colorsExpression_lightDark, hl.colorExpression_eq,
      hd.colorExpression_eq]

theorem initializer_eq {mode : Mode} (h : SameInitializer mode qualified colors qualified' colors') :
    initializer mode qualified colors = initializer mode qualified' colors' := by
  cases mode with
  | dynamicColor => exact SameColors.colorsExpression_eq h
  | assetCatalog =>
    have h : qualified = qualified' := h
    rw [initializer_assetCatalog, initializer_assetCatalog, h]

mutual

theorem Alike.memberLines_eq {m m' : Member} {depth : Nat} (h : Alike style.mode m m') :
    memberLines style depth m = memberLines style depth m' := by
  match h with
  | .entry hi => rw [memberLines, memberLines, initializer_eq hi]
  | .group ha => rw [memberLines, memberLines, ha.membersLines_eq]

theorem AllAlike.membersLines_eq {members members' : List Member} {depth : Nat}
    (h : AllAlike style.mode members members') :
    membersLines style depth members = membersLines style depth members' := by
  match h with
  | .nil        => rfl
  | .cons ha hs => rw [membersLines, membersLines, ha.memberLines_eq, hs.membersLines_eq]

end

-- No line holds the character that ends it.

theorem lineFeed_not_mem_colorExpression {c : Color} : '\n' ∉ colorExpression c := by
  unfold colorExpression channelText
  simp only [List.mem_append, not_or]
  and_intros
  all_goals first | decide | exact not_mem_fixed (by decide)

theorem lineFeed_not_mem_initializer {mode : Mode} (hn : ∀ c ∈ qualified.toList, c.isAlphanum) :
    '\n' ∉ initializer mode qualified colors := by
  cases mode with
  | assetCatalog =>
    have opening : '\n' ∉ lookupOpening := by decide
    have closing : '\n' ∉ lookupClosing := by decide
    simp only [initializer_assetCatalog, List.mem_append, opening, closing,
      not_mem_of_alphanumeric hn (c := '\n') rfl, or_self, not_false_eq_true]
  | dynamicColor =>
    cases colors with
    | plain => exact lineFeed_not_mem_colorExpression
    | lightDark light dark =>
      have h : '\n' ∉ colorsExpression (.lightDark light dark) := by
        rw [colorsExpression_lightDark]
        simp only [List.mem_append, List.mem_cons, not_or]
        and_intros
        all_goals first | decide | exact lineFeed_not_mem_colorExpression
      exact h

theorem lineFeed_not_mem_opening (hb : Blank style.indent) (hn : ∀ c ∈ name.toList, c.isAlphanum) :
    '\n' ∉ indentation style depth ∧ '\n' ∉ style.access.modifier ∧ '\n' ∉ name.toList := by
  refine ⟨fun h => ?_, ?_, not_mem_of_alphanumeric hn rfl⟩
  · exact absurd (hb '\n' <| mem_indentation h) (by decide)
  · cases style.access <;> decide

theorem lineFeed_not_mem_accessorLine (hb : Blank style.indent)
    (hn : ∀ c ∈ name.toList, c.isAlphanum) (hq : ∀ c ∈ qualified.toList, c.isAlphanum) :
    '\n' ∉ accessorLine style depth name qualified colors := by
  have ⟨hi, hm, hn⟩ := @lineFeed_not_mem_opening style depth name hb hn
  simp only [accessorLine, List.mem_append, not_or]
  exact ⟨hi, hm, by decide, hn, by decide, lineFeed_not_mem_initializer hq⟩

theorem lineFeed_not_mem_groupLine (hb : Blank style.indent)
    (hn : ∀ c ∈ name.toList, c.isAlphanum) : '\n' ∉ groupLine style depth name := by
  have ⟨hi, hm, hn⟩ := @lineFeed_not_mem_opening style depth name hb hn
  simp only [groupLine, List.mem_append, not_or]
  exact ⟨hi, hm, by decide, hn, by decide⟩

mutual

theorem lineFeed_not_mem_memberLines {m : Member} {depth : Nat} (hb : Blank style.indent)
    (hn : Alphanumeric m.names) : ∀ line ∈ memberLines style depth m, '\n' ∉ line := by
  match m with
  | .entry name qualified _ =>
    have ⟨hn, hq⟩ := List.forall_mem_cons.mp hn
    rw [memberLines]
    exact List.forall_mem_singleton.mpr <|
      lineFeed_not_mem_accessorLine hb hn (hq qualified List.mem_cons_self)
  | .group .. =>
    have ⟨hn, hr⟩ := List.forall_mem_cons.mp hn
    have closing : '\n' ∉ closingLine style depth := by
      have ⟨hi, _⟩ := @lineFeed_not_mem_opening style depth _ hb hn
      simp [closingLine, hi]
    rw [memberLines, List.forall_mem_cons, List.forall_mem_append, List.forall_mem_singleton]
    exact ⟨lineFeed_not_mem_groupLine hb hn, lineFeed_not_mem_membersLines hb hr, closing⟩

theorem lineFeed_not_mem_membersLines {members : List Member} {depth : Nat}
    (hb : Blank style.indent) (hn : Alphanumeric (namesOf members)) :
    ∀ line ∈ membersLines style depth members, '\n' ∉ line := by
  match members with
  | [] => nofun
  | m :: rest =>
    have ⟨hm, hr⟩ := List.forall_mem_append.mp hn
    rw [membersLines, List.forall_mem_append]
    exact ⟨lineFeed_not_mem_memberLines hb hm, lineFeed_not_mem_membersLines hb hr⟩

end

theorem lineFeed_not_mem_sourceLines (hb : Blank style.indent) (hn : Alphanumeric m.names) :
    ∀ line ∈ sourceLines style m, '\n' ∉ line := by
  have header : ∀ line ∈ headerLines, '\n' ∉ line := by decide +kernel
  have footer : ∀ line ∈ ['\x7d'] :: footerLines style.mode, '\n' ∉ line := by
    cases style.mode <;> decide +kernel
  rw [sourceLines, List.forall_mem_append, List.forall_mem_append]
  exact ⟨header, lineFeed_not_mem_memberLines hb hn, footer⟩

end

-- Sources are the same only for trees that are, as far as they are written down.
theorem source_eq_iff {style : Style} {root root' : Member} (hb : Blank style.indent)
    (hn : Alphanumeric root.names) (hn' : Alphanumeric root'.names) :
    source style root = source style root' ↔ Alike style.mode root root' := by
  constructor
  case mp =>
    intro h
    have h := flatMap_lineFeed_inj (lineFeed_not_mem_sourceLines hb hn)
      (lineFeed_not_mem_sourceLines hb hn') (String.ofList_inj.mp h)
    have h := List.append_cancel_left h
    exact (memberLines_append_inj hb hn hn' h).left
  case mpr => exact fun h => by rw [source, source, sourceLines, sourceLines, h.memberLines_eq]

-- Without any indentation, only the braces tell a group beside another one from a group inside of it.

def siblings : Member :=
  .group rootName "" [.group "a" "a" [], .group "b" "b" []]

def nested : Member :=
  .group rootName "" [.group "a" "a" [.group "b" "ab" []]]

theorem source_siblings_ne_nested :
    source ⟨.dynamicColor, .internal, ""⟩ siblings ≠ source ⟨.dynamicColor, .internal, ""⟩ nested := by
  intro h
  have h := (source_eq_iff (by decide) (by decide) (by decide)).mp h
  cases h with
  | group h =>
    cases h with
    | cons h _ =>
      cases h with
      | group h => cases h

end Accessor

end Palette
