import Palette.Catalog.Write
import Palette.Proofs.Catalog.Descriptors
import Palette.Proofs.Number.Hundredths
import Palette.Proofs.Resolution.Fading

-- Alpha in the descriptors of colors. It is written in hundredths, except that a zero which has been
-- written with a minus sign keeps that sign, however it is faded.

namespace Palette

open Item (declarationsOf)

namespace Json

mutual

-- The texts that are held under a name, in their order, if the value itself is held under `here`.
def textsUnder (name here : String) : Json → List String
  | .text s        => if here = name then [s] else []
  | .list items    => itemTextsUnder name here items
  | .object fields => fieldTextsUnder name fields
  | _              => []

def itemTextsUnder (name here : String) : List Json → List String
  | []        => []
  | i :: rest => i.textsUnder name here ++ itemTextsUnder name here rest

def fieldTextsUnder (name : String) : List (String × Json) → List String
  | []             => []
  | (k, v) :: rest => v.textsUnder name k ++ fieldTextsUnder name rest

end

end Json

-- The appearances that are told apart.
def Themed.appearances : Themed α → List Appearance
  | .plain _      => [.light]
  | .lightDark .. => [.light, .dark]

-- How the alpha of a color is written, by what it was where the color comes from.
structure Context.AlphaWritten (Γ : Context) (v : Value) (a : Appearance) (c : Color) : Prop where
  origin    : ∃ opacities written, Γ.Origin v a opacities written
  signed    : Γ.Origin v a opacities written → written.alpha = .zero true →
    c.alpha.fixed 2 = "-0.00"
  fractions : Γ.Origin v a opacities written → written.alpha ≠ .zero true →
    ∃ n, c.alpha.InHundredths (c.alpha.fixed 2) n

variable {alpha : Binary32} {opacities : List Binary32}

-- No opacity turns the sign, since there is none with a minus sign.
theorem Binary32.isNegative_foldl_mul (h : alpha.InUnitInterval)
    (ho : ∀ o ∈ opacities, o.InUnitInterval ∧ o.isNegative = false) :
    (opacities.foldl (· * ·) alpha).isNegative = alpha.isNegative := by
  induction opacities generalizing alpha
  case nil => rfl
  case cons first rest ih =>
    have ⟨⟨hf, hn⟩, hr⟩ := List.forall_mem_cons.mp ho
    rw [List.foldl_cons, ih (h.mul hf).left hr, h.isNegative_mul hf, hn, Bool.xor_false]

namespace Context

variable {Γ : Context} {v : Value} {x : Resolved}

theorem alphaWritten_of_resolve (declared : ∀ name v, Γ.value? name = some v → v.InRange)
    (hv : v.InRange) (hx : Γ.resolve v = .ok x) (a : Appearance) :
    Γ.AlphaWritten v a (x.under a) := by
  have hy := resolve_eq_ok.mp hx
  have hu : (x.under a).alpha.InUnitInterval :=
    Binary32.inUnitInterval_iff.mpr (fades_of_resolve declared hv hx a).inRange
  have sign {opacities written} (h : Γ.Origin v a opacities written) :
      (x.under a).alpha.isNegative = written.alpha.isNegative := by
    have ⟨hw, ho⟩ := h.inRange declared hv
    rw [h.under_eq hy]
    exact Binary32.isNegative_foldl_mul hw ho
  refine ⟨hy.origin a, fun h hz => ?signed, fun h hz => hu.inHundredths ?fractions⟩
  case signed =>
    have he : (x.under a).alpha = .zero true := hu.eq_zero <| by rw [sign h, hz]; rfl
    rw [he]
    rfl
  case fractions =>
    rw [sign h, ← Bool.not_eq_true]
    exact fun hn => hz <| (h.inRange declared hv).left.eq_zero hn

end Context

namespace Catalog

variable {source author colorSpace : String} {sheet : Sheet} {d : Declaration} {path : List String}
variable {colors : Resolved}

theorem textsUnder_alpha :
    (Json.object [colorsMember colorSpace colors, infoMember author]).textsUnder "alpha" "" =
      colors.appearances.map fun a => (colors.under a).alpha.fixed 2 := by
  cases colors <;>
    simp [Json.textsUnder, Json.itemTextsUnder, Json.fieldTextsUnder, colorsMember, colorMember,
      componentsMember, darkMember, idiomMember, infoMember, Themed.appearances, Themed.under]

theorem read?_descriptorOf (o : Options) (colors : Resolved) :
    Json.read? (descriptorOf o colors).toSpacedJson =
      some (.object [colorsMember o.colorSpace.tag colors, infoMember o.author]) := by
  have hd := (descriptorOf o colors).denotes_spaced
  rw [descriptorOf, json_colorDescriptor] at hd
  exact Json.read?_of_denotes hd

-- The alphas that are read back from the descriptor of a declaration, one for each appearance.
theorem alphas_of_parse (h : Sheet.parse source = .ok sheet)
    (hd : (path, d) ∈ declarationsOf sheet.body)
    (hx : (Context.ofSheet sheet).resolve d.value = .ok colors) (o : Options) :
    ∃ descriptor, Json.read? (descriptorOf o colors).toSpacedJson = some descriptor ∧
      descriptor.textsUnder "alpha" "" =
        colors.appearances.map (fun a => (colors.under a).alpha.fixed 2) ∧
      ∀ a, (Context.ofSheet sheet).AlphaWritten d.value a (colors.under a) := by
  have declared name v (hv : (Context.ofSheet sheet).value? name = some v) : v.InRange :=
    Sheet.inRange_of_parse h <| Sheet.writes_of_value? hv
  have hv : d.value.InRange := Sheet.inRange_of_parse h <| .ofDeclaration hd
  exact ⟨_, read?_descriptorOf o colors, textsUnder_alpha,
    Context.alphaWritten_of_resolve declared hv hx⟩

def clear : Sheet :=
  ⟨[.item (.declaration ⟨"c", .plain (.color ⟨0, 0, 0, .zero true⟩)⟩)]⟩

theorem digits_of_zero (rest : List Char) : Grammar.Digits ('0' :: rest) ['0'] rest :=
  @Grammar.Digits.intro ['0'] rest (by simp) (by simp)

theorem topItems_of_alpha {s : List Char} {x : Binary32} (ha : Grammar.Alpha s x [')']) :
    Grammar.TopItems ('c' :: ':' :: ' ' :: 'r' :: 'g' :: 'b' :: 'a' :: '(' :: '0' :: ',' :: ' ' :: '0' ::
        ',' :: ' ' :: '0' :: ',' :: ' ' :: s)
      [.item (.declaration ⟨"c", .plain (.color ⟨0, 0, 0, x⟩)⟩)] := by
  have zero rest : Grammar.Channel ('0' :: rest) 0 rest := .intro (digits_of_zero _) (by decide)
  have comma rest : Grammar.Separator ',' (',' :: ' ' :: rest) rest := .intro .nil (.space .nil)
  have hc : Grammar.Declaration ('c' :: ':' :: ' ' :: _) _ [] :=
    .intro (.of_all 'c' [] rfl) (.intro .nil (.space .nil)) <| .plain <| .channelColor <|
      .intro .nil (zero _) (comma _) (zero _) (comma _) (zero _) (comma _) ha .nil
  exact .cons (.item <| .declaration hc) (.last .nil (.inl rfl) rfl) .nil

theorem parse_clear : Sheet.parse "c: rgba(0, 0, 0, -0)" = .ok clear := by
  have alpha : Grammar.Alpha ['-', '0', ')'] (.zero true) [')'] :=
    .intro (.decimal .minus (.whole <| digits_of_zero _) .none) ⟨.inr rfl, Nat.zero_le _⟩
  exact Sheet.parse_of_topItems (topItems_of_alpha alpha) (by decide)

theorem alphas_of_clear :
    ∃ descriptor,
      Json.read? (descriptorOf {} (.plain ⟨0, 0, 0, .zero true⟩)).toSpacedJson = some descriptor ∧
        descriptor.textsUnder "alpha" "" = ["-0.00"] := by
  have ⟨descriptor, hr, ht, ha⟩ := alphas_of_parse parse_clear (.head _) rfl {}
  have hs := (ha .light).signed .color rfl
  exact ⟨descriptor, hr, ht.trans <| congrArg (fun text => [text]) hs⟩

-- Not all alphas are without a sign.
theorem alphas_not_always_unsigned :
    ¬∀ source sheet path d colors o, Sheet.parse source = .ok sheet →
      (path, d) ∈ declarationsOf sheet.body → (Context.ofSheet sheet).resolve d.value = .ok colors →
      ∃ descriptor, Json.read? (descriptorOf o colors).toSpacedJson = some descriptor ∧
        ∀ text ∈ descriptor.textsUnder "alpha" "", ∃ n ≤ 100, text = hundredths n := by
  intro h
  obtain ⟨_, hr, hu⟩ := h _ _ _ _ (.plain ⟨0, 0, 0, .zero true⟩) {} parse_clear (.head _) rfl
  obtain rfl := Option.some.inj <| (read?_descriptorOf ..).symm.trans hr
  rw [textsUnder_alpha] at hu
  have ⟨n, hn, ht⟩ := hu "-0.00" (.head _)
  have hl : ∀ n ≤ 100, "-0.00" ≠ hundredths n := by decide
  exact hl n hn ht

end Catalog

end Palette
