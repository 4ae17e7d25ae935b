import Palette.Proofs.Arrangement.Accessor
import Palette.Proofs.Arrangement.Catalog
import Palette.Proofs.Catalog.Exactness
import Palette.Proofs.Resolution.Declarations

-- Nothing that is made of a sheet depends on the order that the sheet is written in, up to variables
-- that are declared again and siblings that share a name.

namespace Palette.Sheet

open Accessor (render render_rearrange)
open Catalog (Fills PathsFit described groupContent write write_of_fills write_rearrange)
open Context (ofSheet)
open Item (Distinct)
open Program (outcome)

variable {d d' : Sheet}

theorem Rearranged.ofSheet_eq (h : d.Rearranged d') : ofSheet d = ofSheet d' :=
  Context.ofSheet_eq h.order

theorem outputs_of_rearranged (h : d.Rearranged d') :
    (∀ r, (ofSheet d).resolveReference r = (ofSheet d').resolveReference r) ∧
    (∀ s, (ofSheet d).resolveSlot s = (ofSheet d').resolveSlot s) ∧
    (∀ v, (ofSheet d).resolve v = (ofSheet d').resolve v) ∧
    (ofSheet d).validate = (ofSheet d').validate ∧
    (∀ e, (ofSheet d).validate = .error e ↔ ∃ name, (ofSheet d).FirstFailure name e) ∧
    (∀ source, Sheet.parse source = .ok d → ∀ (fs : FileSystem) o p c fs',
      outcome (write o (ofSheet d) d p) fs = (.ok c, fs') ↔
        outcome (write o (ofSheet d') d' p) fs = (.ok c, fs')) ∧
    (Distinct d.body → ∀ style text,
      render style d (ofSheet d) = .ok text ↔ render style d' (ofSheet d') = .ok text) := by
  rw [← h.ofSheet_eq]
  refine ⟨fun _ => rfl, fun _ => rfl, fun _ => rfl, rfl, fun e => ?validate, ?catalog, ?accessors⟩
  case validate => exact Context.validate_eq_error
  case catalog =>
    intro source hs fs o p c fs'
    have hn := Sheet.named_of_parse hs
    exact ⟨write_rearrange h hn, write_rearrange h.symm (h.body.named hn)⟩
  case accessors =>
    intro hd style text
    exact ⟨render_rearrange h hd, render_rearrange h.symm (h.body.distinct hd)⟩

-- A sheet that can be written in another order.

def arranged : Sheet :=
  ⟨[.variable ⟨"v", .plain (.color ⟨0, 0, 0, .one⟩)⟩, .item (.group "y"
    [.declaration ⟨"b", .plain (.reference ⟨"v", .one⟩)⟩,
      .declaration ⟨"a", .plain (.color ⟨0, 0, 0, .one⟩)⟩])]⟩

def rearranged : Sheet :=
  ⟨[.item (.group "y"
    [.declaration ⟨"a", .plain (.color ⟨0, 0, 0, .one⟩)⟩,
      .declaration ⟨"b", .plain (.reference ⟨"v", .one⟩)⟩]),
    .variable ⟨"v", .plain (.color ⟨0, 0, 0, .one⟩)⟩]⟩

theorem rearranged_arranged : arranged.Rearranged rearranged where
  items := .trans (.of_perm <| .swap ..) <| .group (.of_perm <| .swap ..) <| .cons .nil
  order _ := rfl

theorem parse_arranged : Sheet.parse "$v:#000000\ny\x7bb:$v\na:#000000\x7d" = .ok arranged := by
  have hv rest := Catalog.declaration_of_hexColor 'v' [] rfl <| Catalog.hexColor_black ('\n' :: rest)
  have ha := Catalog.declaration_of_hexColor 'a' [] rfl <| Catalog.hexColor_black ['\x7d']
  have hb rest : Grammar.Declaration ('b' :: ':' :: '$' :: 'v' :: '\n' :: rest) _ ('\n' :: rest) :=
    .intro (.of_all 'b' [] rfl) (.intro .nil .nil) <|
      .plain <| .reference <| .intro (.of_all 'v' [] rfl) .full
  have hy : Grammar.Item ('y' :: '\x7b' :: _) _ [] :=
    .group (.of_all 'y' [] rfl) .nil .nil <|
      .cons (.declaration <| hb _) (.line .nil (.inl rfl) .lf .nil) <|
        .cons (.declaration ha) (.last .nil (.inl rfl) rfl) .nil
  exact Sheet.parse_of_topItems (.cons (.variable <| hv _) (.line .nil (.inl rfl) .lf .nil) <|
    .cons (.item hy) (.last .nil (.inl rfl) rfl) .nil) (by decide)

theorem distinct_arranged : Distinct arranged.body := by
  refine .of_members (by decide) fun _ _ hg => ?_
  cases List.mem_singleton.mp hg
  exact .of_members (by decide) fun _ _ hg => by simp at hg

theorem write_arranged :
    ∃ c fs', outcome (write {} (ofSheet arranged) arranged (.ofText "x")) .empty = (.ok c, fs') := by
  have hx : (ofSheet arranged).resolve (.plain (.reference ⟨"v", .one⟩)) = .ok _ :=
    Context.resolve_eq_ok.mpr <| .reference <| .intro rfl .color
  have hp : PathsFit "" arranged.body (.ofText "x") :=
    .cons_group (.cons_declaration (by decide) <| .cons_declaration (by decide) <| .nil (by decide)) <|
      .nil (by decide)
  have ⟨_, ht⟩ : ∃ t, Fills {} (ofSheet arranged) "" arranged.body (described (groupContent {})) t :=
    ⟨_, .group rfl (by decide) (.declaration rfl (by decide) hx <|
      .declaration rfl (by decide) rfl .nil) .nil⟩
  exact ⟨_, _, write_of_fills (Sheet.named_of_parse parse_arranged) hp ht⟩

theorem outputs_of_arranged :
    Sheet.parse "$v:#000000\ny\x7bb:$v\na:#000000\x7d" = .ok arranged ∧
    arranged.Rearranged rearranged ∧ Distinct arranged.body ∧
    ∃ c fs' text,
      outcome (write {} (ofSheet arranged) arranged (.ofText "x")) .empty = (.ok c, fs') ∧
      outcome (write {} (ofSheet rearranged) rearranged (.ofText "x")) .empty = (.ok c, fs') ∧
      render {} arranged (ofSheet arranged) = .ok text ∧
      render {} rearranged (ofSheet rearranged) = .ok text := by
  have ⟨_, _, _, _, _, hc, ha⟩ := outputs_of_rearranged rearranged_arranged
  have ⟨c, fs', hw⟩ := write_arranged
  have ⟨text, ht⟩ := Catalog.render_of_write {} hw
  exact ⟨parse_arranged, rearranged_arranged, distinct_arranged, c, fs', text, hw,
    (hc _ parse_arranged _ _ _ _ _).mp hw, ht, (ha distinct_arranged _ _).mp ht⟩

end Palette.Sheet
