import Palette.Proofs.Grammar.Ranges
import Palette.Proofs.Resolution.Exactness

-- Where colors come from and what becomes of their alpha on the way. It is multiplied by one opacity
-- after the other, and however many of them there are it stays between zero and one and below them all.

namespace Palette

inductive Appearance where
  | light
  | dark
  deriving DecidableEq, Inhabited

def Themed.under (x : Themed α) : Appearance → α :=
  fun
    | .light => match x with | .plain both => both | .lightDark light _ => light
    | .dark  => match x with | .plain both => both | .lightDark _ dark => dark

-- A slot of a value. One that is a value by itself is its own.
inductive Value.HasSlot : Value → Slot → Prop
  | plain : HasSlot (.plain s) s
  | light : HasSlot (.lightDark l d) l
  | dark  : HasSlot (.lightDark l d) d

theorem Value.HasSlot.inRange {v : Value} {s : Slot} (h : v.HasSlot s) (hv : v.InRange) :
    Value.InRange (.plain s) := by
  cases h with
  | plain => exact hv
  | light => exact hv.left
  | dark  => exact hv.right

namespace Context

variable (Γ : Context)

-- The color that is written where the references of a value end for an appearance, and the opacities
-- that are met on the way there. The one that is met last comes first.
inductive Origin : Value → Appearance → List Binary32 → Color → Prop
  | color     : Origin (.plain (.color c)) a [] c
  | reference : Γ.value? r.name = some v → Origin v a opacities c →
    Origin (.plain (.reference r)) a (opacities ++ [r.opacity]) c
  | light     : Origin (.plain l) .light opacities c → Origin (.lightDark l d) .light opacities c
  | dark      : Origin (.plain d) .dark opacities c → Origin (.lightDark l d) .dark opacities c

-- What becomes of the color that a value has for an appearance, from wherever it comes.
structure Fades (v : Value) (a : Appearance) (c : Color) : Prop where
  inRange : ∃ q, c.alpha.toRat? = some q ∧ 0 ≤ q ∧ q ≤ 1
  origin  : ∃ opacities written, Γ.Origin v a opacities written
  bounded : Γ.Origin v a opacities written → c = written.fadeAll opacities ∧
    c.alpha.AtMost written.alpha ∧ ∀ o ∈ opacities, c.alpha.AtMost o

variable {Γ} {v : Value} {s : Slot} {a : Appearance} {c written : Color} {x : Resolved}
variable {opacities : List Binary32} {alpha o : Binary32}

-- By recursion on the derivation, for either appearance.

mutual

theorem ReferenceYields.origin {r : Reference} {x : Resolved} (h : Γ.ReferenceYields r x)
    (a : Appearance) : ∃ opacities written, Γ.Origin (.plain (.reference r)) a opacities written := by
  match h with
  | .intro hv hy =>
    have ⟨_, _, ho⟩ := hy.origin a
    exact ⟨_, _, .reference hv ho⟩

theorem SlotYields.origin {s : Slot} {c : Color} (h : Γ.SlotYields s c) (a : Appearance) :
    ∃ opacities written, Γ.Origin (.plain s) a opacities written := by
  match h with
  | .color       => exact ⟨_, _, .color⟩
  | .reference h => exact h.origin a

theorem ValueYields.origin {v : Value} {x : Resolved} (h : Γ.ValueYields v x) (a : Appearance) :
    ∃ opacities written, Γ.Origin v a opacities written := by
  match h, a with
  | .color, _              => exact ⟨_, _, .color⟩
  | .reference h, a        => exact h.origin a
  | .lightDark hl _, .light =>
    have ⟨_, _, ho⟩ := hl.origin .light
    exact ⟨_, _, .light ho⟩
  | .lightDark _ hd, .dark =>
    have ⟨_, _, ho⟩ := hd.origin .dark
    exact ⟨_, _, .dark ho⟩

end

theorem SlotYields.plain (h : Γ.SlotYields s c) : Γ.ValueYields (.plain s) (.plain c) := by
  cases h with
  | color       => exact .color
  | reference h => exact .reference h

theorem under_map {f : Color → Color} : (x.map f).under a = f (x.under a) := by
  cases x <;> cases a <;> rfl

-- By induction on the way to where the color is written. What is met last fades it first.
theorem Origin.under_eq (h : Γ.Origin v a opacities written) (hx : Γ.ValueYields v x) :
    x.under a = written.fadeAll opacities := by
  induction h generalizing x with
  | color =>
    cases hx
    cases ‹Appearance› <;> rfl
  | reference hv _ ih =>
    cases hx with
    | reference hr =>
      cases hr with
      | intro hv' hy =>
        cases hv.symm.trans hv'
        rw [under_map, ih hy]
        simp [Color.fadeAll, Color.fade]
  | light _ ih =>
    cases hx with
    | lightDark hl _ =>
      have he := ih hl.plain
      exact he
  | dark _ ih =>
    cases hx with
    | lightDark _ hd =>
      have he := ih hd.plain
      exact he

-- By induction on the opacities. Each product lies below what came before it and below its opacity.
theorem foldl_mul_atMost (h : alpha.InUnitInterval) (ho : ∀ o ∈ opacities, o.InUnitInterval) :
    (opacities.foldl (· * ·) alpha).InUnitInterval ∧
    (opacities.foldl (· * ·) alpha).AtMost alpha ∧
    ∀ o ∈ opacities, (opacities.foldl (· * ·) alpha).AtMost o := by
  induction opacities generalizing alpha
  case nil => exact ⟨h, h.atMost_self, nofun⟩
  case cons first rest ih =>
    have ⟨hf, hr⟩ := List.forall_mem_cons.mp ho
    have ⟨hu, hl, hl'⟩ := h.mul hf
    have ⟨hi, ha, hb⟩ := ih hu hr
    exact ⟨hi, ha.trans hl, List.forall_mem_cons.mpr ⟨ha.trans hl', hb⟩⟩

section

variable (declared : ∀ name v, Γ.value? name = some v → v.InRange)

include declared

-- All that is met on the way is in range if the value is, since what is declared always is.
theorem Origin.inRange (h : Γ.Origin v a opacities written) (hv : v.InRange) :
    written.alpha.InUnitInterval ∧ ∀ o ∈ opacities, o.InUnitInterval ∧ o.isNegative = false := by
  induction h with
  | color => exact ⟨hv, nofun⟩
  | reference hd _ ih =>
    have ⟨hw, ho⟩ := ih <| declared _ _ hd
    refine ⟨hw, fun o hm => ?_⟩
    rcases List.mem_append.mp hm with hm | hm
    · exact ho o hm
    · exact List.mem_singleton.mp hm ▸ hv
  | light _ ih => exact ih hv.left
  | dark _ ih  => exact ih hv.right

theorem fades_of_resolve (hv : v.InRange) (hx : Γ.resolve v = .ok x) (a : Appearance) :
    Γ.Fades v a (x.under a) := by
  have hy := resolve_eq_ok.mp hx
  have bounds {opacities written} (h : Γ.Origin v a opacities written) := by
    have ⟨hw, ho⟩ := h.inRange declared hv
    exact foldl_mul_atMost hw fun o hm => (ho o hm).left
  obtain ⟨opacities, written, ho⟩ := hy.origin a
  refine ⟨?_, ⟨_, _, ho⟩, fun h => ?_⟩
  case refine_1 =>
    rw [ho.under_eq hy, ← Binary32.inUnitInterval_iff]
    exact (bounds ho).left
  case refine_2 =>
    rw [h.under_eq hy]
    exact ⟨rfl, (bounds h).right⟩

end

-- A slot by itself is a value that is the same for both appearances.
theorem resolve_plain_of_resolveSlot (h : Γ.resolveSlot s = .ok c) :
    Γ.resolve (.plain s) = .ok (.plain c) :=
  resolve_eq_ok.mpr (resolveSlot_eq_ok.mp h).plain

end Context

-- Whatever a sheet that was read from a text asks to resolve: one of its values, one slot of them, or
-- a variable by its name.
theorem Sheet.fades_of_parse {source : String} {sheet : Sheet}
    (h : Sheet.parse source = .ok sheet) :
    let Γ := Context.ofSheet sheet
    (∀ v x a, sheet.Writes v → Γ.resolve v = .ok x → Γ.Fades v a (x.under a)) ∧
    (∀ v s c a, sheet.Writes v → v.HasSlot s → Γ.resolveSlot s = .ok c →
      Γ.Fades (.plain s) a c) ∧
    ∀ name x a, Γ.resolveReference ⟨name, .one⟩ = .ok x →
      Γ.Fades (.plain (.reference ⟨name, .one⟩)) a (x.under a) := by
  intro Γ
  have declared name v (hv : Γ.value? name = some v) : v.InRange :=
    Sheet.inRange_of_parse h <| Sheet.writes_of_value? hv
  refine ⟨fun v x a hv hx => ?values, fun v s c a hv hs hc => ?slots, fun name x a hx => ?names⟩
  case values => exact Context.fades_of_resolve declared (Sheet.inRange_of_parse h hv) hx a
  case slots =>
    have hr : Value.InRange (.plain s) := hs.inRange <| Sheet.inRange_of_parse h hv
    have hx := Context.resolve_plain_of_resolveSlot hc
    cases a <;> exact Context.fades_of_resolve declared hr hx _
  case names =>
    exact Context.fades_of_resolve declared (v := .plain (.reference _)) ⟨.one, rfl⟩ hx a

-- Half of a half.
def dimmed : Sheet :=
  ⟨[.variable ⟨"a", .plain (.color ⟨0, 0, 0, .ofRatio false 50 100⟩)⟩,
    .item (.declaration ⟨"b", .plain (.reference ⟨"a", .ofRatio false 50 100⟩)⟩)]⟩

theorem parse_dimmed : Sheet.parse "$a:#000000 50%\nb:$a 50%" = .ok dimmed := by
  have fifty : Grammar.decimal ['5', '0'] = 50 := by decide
  have half rest :
      Grammar.Opacity (' ' :: '5' :: '0' :: '%' :: rest) (.ofRatio false 50 100) rest := by
    have hd : Grammar.Digits (['5', '0'] ++ '%' :: rest) ['5', '0'] ('%' :: rest) :=
      .intro (by simp) (by simp)
    exact fifty ▸ .percent (by decide) .nil hd (by decide)
  have digit : Grammar.HexDigit '0' 0 := ⟨by decide, .inl rfl⟩
  have black rest : Grammar.HexColor ('#' :: '0' :: '0' :: '0' :: '0' :: '0' :: '0' :: _)
      ⟨0, 0, 0, .ofRatio false 50 100⟩ rest :=
    .intro (.intro digit digit) (.intro digit digit) (.intro digit digit) (half rest)
  have ha rest : Grammar.Declaration ('a' :: ':' :: _) _ rest :=
    .intro (.of_all 'a' [] rfl) (.intro .nil .nil) <| .plain <| .hexColor <| black rest
  have hb : Grammar.Declaration ('b' :: ':' :: '$' :: 'a' :: _) _ [] :=
    .intro (.of_all 'b' [] rfl) (.intro .nil .nil) <| .plain <| .reference <|
      .intro (.of_all 'a' [] rfl) (half [])
  exact Sheet.parse_of_topItems (.cons (.variable <| ha _) (.line .nil (.inl rfl) .lf .nil) <|
    .cons (.item <| .declaration hb) (.last .nil (.inl rfl) rfl) .nil) (by decide)

theorem fades_dimmed :
    ∃ c, (Context.ofSheet dimmed).resolve (.plain (.reference ⟨"a", .ofRatio false 50 100⟩)) =
        .ok (.plain c) ∧
      c.alpha = .ofRatio false 25 100 ∧
      (Context.ofSheet dimmed).Fades (.plain (.reference ⟨"a", .ofRatio false 50 100⟩)) .light c := by
  have ha : (Context.ofSheet dimmed).ValueYields (.plain (.color ⟨0, 0, 0, .ofRatio false 50 100⟩)) _ :=
    .color
  have hx := Context.resolve_eq_ok.mpr (.reference (.intro (r := ⟨"a", .ofRatio false 50 100⟩) rfl ha))
  have ⟨values, _, _⟩ := Sheet.fades_of_parse parse_dimmed
  exact ⟨_, hx, by decide, values _ _ .light (.ofDeclaration (.head _)) hx⟩

end Palette
