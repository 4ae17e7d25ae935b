import Palette.Proofs.Accessor.Agreement
import Palette.Proofs.Accessor.Lines

-- Whose colors the accessors of a source denote in the catalog that was written beside it.

namespace Palette

open Catalog (Fills Holds Named WrittenFolder colorContent colorFolderName descriptorName
  groupContent qualified)
open Item (Scope declarationsOf fullName mem_declarationsOf)

variable {o : Options} {Γ : Context} {style : Accessor.Style} {qualifier name : String} {items : List Item}
variable {d : Declaration} {path : List String} {sheet : Sheet} {line : Accessor.Line}

namespace Catalog

theorem Named.quotes_not_mem_qualified (h : Named items) (hd : (path, d) ∈ declarationsOf items) :
    '"' ∉ (qualified "" path d).toList := by
  have ⟨_, hs, hd⟩ := mem_declarationsOf.mp hd
  intro hm
  cases alphanumeric_qualified (by simp) (alphanumeric_of_scope h hs)
    (h.declaration hs hd).right _ hm

section

variable {before : FileSystem} {p : Path} {place : Place} {t u : Table Node}

-- All folders of colors are those of declarations, in the folders of their groups.
theorem written_color_iff (hn : Named items) (ha : before.At p place t)
    (hu : Fills o Γ "" items (t.insert descriptorName (.file (groupContent o))) u) :
    WrittenFolder before (before.putFolder place u) place (path ++ [colorFolderName name]) ↔
      ∃ d, (path, d) ∈ declarationsOf items ∧ name = qualified "" path d := by
  rw [written_iff ha hu]
  constructor
  case mp =>
    rintro ⟨_, hh⟩
    generalize he : path ++ [colorFolderName name] = folder at hh
    cases hh with
    | group hs    => exact absurd ⟨_, _, he.symm⟩ <| not_endsInColor hn hs
    | color hs hd =>
      obtain ⟨rfl, he⟩ := List.append_inj' he rfl
      refine ⟨_, mem_declarationsOf.mpr ⟨_, hs, hd⟩, ?_⟩
      simpa [colorFolderName, ← String.toList_inj] using he
  case mpr =>
    rintro ⟨d, hd, rfl⟩
    obtain ⟨_, hs, hd⟩ := mem_declarationsOf.mp hd
    exact ⟨by simp, .color hs hd⟩

end

end Catalog

namespace Accessor

-- What looks a color up is the accessor of a declaration, and looks up the name of that one.
theorem LooksUp.accesses {root : Member} (hu : LooksUp line name) (hn : Named sheet.body)
    (hm : style.mode = .assetCatalog) (h : tree Γ sheet = .ok root)
    (hl : line ∈ sourceLines style root) :
    ∃ path d colors, (path, d) ∈ declarationsOf sheet.body ∧ name = qualified "" path d ∧
      Γ.resolve d.value = .ok colors ∧
      line = accessorLine style (2 + path.length) d.name name colors := by
  obtain ⟨path, d, colors, hd, hx, he⟩ := (mem_sourceLines hm h).mp ⟨hl, hu.exclaims⟩
  have hn := hn.quotes_not_mem_qualified hd
  obtain rfl := hu.unique ⟨hn, he ▸ accessorLine_eq_append hm⟩
  exact ⟨path, d, colors, hd, rfl, hx, he⟩

theorem render_eq_ok {text : String} :
    render style sheet Γ = .ok text ↔
      ∃ root, tree Γ sheet = .ok root ∧ text = source style root := by
  rw [render]
  cases tree Γ sheet <;> simp [bind, Except.bind, pure, Except.pure, eq_comm]

end Accessor

namespace Catalog

open Accessor (LooksUp accessorLine render render_eq_ok source sourceLines tree)
open Program (outcome)

-- Whatever can be written can be rendered, too.
theorem render_of_write {fs fs' : FileSystem} {p : Path} {c : Counts} (style : Accessor.Style)
    (h : outcome (write o Γ sheet p) fs = (.ok c, fs')) :
    ∃ text, render style sheet Γ = .ok text := by
  have ⟨_, _, _, _, _, _, hi⟩ := write_eq_ok.mp h
  have ⟨members, hm⟩ := members_of_writeItems hi
  exact ⟨_, render_eq_ok.mpr ⟨_, Accessor.tree_eq_ok.mpr ⟨members, hm, rfl⟩, rfl⟩⟩

theorem names_identify {input text : String} (hs : Sheet.parse input = .ok sheet)
    {fs fs' : FileSystem} {p : Path} {c : Counts}
    (hw : outcome (write o (.ofSheet sheet) sheet p) fs = (.ok c, fs'))
    (hm : style.mode = .assetCatalog) (ht : render style sheet (.ofSheet sheet) = .ok text) :
    ((declarationsOf sheet.body).Pairwise fun a b =>
      fullName a ≠ fullName b ∧ (qualified "" a.1 a.2 = qualified "" b.1 b.2 →
        Item.Confusable sheet.body (fullName a) (fullName b) ∨
        Item.Confusable sheet.body (fullName b) (fullName a))) ∧
    ∃ root before place,
      tree (.ofSheet sheet) sheet = .ok root ∧ text = source style root ∧
      fs.Opened p before place ∧
      (∀ path name, WrittenFolder before fs' place (path ++ [colorFolderName name]) ↔
        ∃ d, (path, d) ∈ declarationsOf sheet.body ∧ name = qualified "" path d) ∧
      (∀ path d, (path, d) ∈ declarationsOf sheet.body →
        ∃ colors, Context.resolve (.ofSheet sheet) d.value = .ok colors ∧
          fs'.root.contentAt
              (place ++ (path ++ [colorFolderName (qualified "" path d), descriptorName])) =
            some (some (colorContent o colors)) ∧
          ∃ line ∈ sourceLines style root, LooksUp line (qualified "" path d) ∧
            line = accessorLine style (2 + path.length) d.name (qualified "" path d) colors) ∧
      ∀ line ∈ sourceLines style root, ∀ name, LooksUp line name →
        ∃ path d colors, (path, d) ∈ declarationsOf sheet.body ∧ name = qualified "" path d ∧
          Context.resolve (.ofSheet sheet) d.value = .ok colors ∧
          line = accessorLine style (2 + path.length) d.name name colors := by
  have hn := Sheet.named_of_parse hs
  obtain ⟨root, hr, rfl⟩ := render_eq_ok.mp ht
  obtain ⟨cleared, before, place, t, u, hcl, hcr, ha, hu, rfl⟩ := fills_of_write hn hw
  have hd := hu.admissible
  refine ⟨hd.pairwise_qualified hn, root, before, place, hr, rfl,
    ⟨⟨cleared, hcl, hcr⟩, ha.leads.right⟩, fun path name => written_color_iff hn ha hu, ?every,
    fun line hl name hu' => hu'.accesses hn hm hr hl⟩
  intro path d hp
  have ⟨_, hs, hi⟩ := mem_declarationsOf.mp hp
  have ⟨colors, hx⟩ := hd.resolves hs hi
  have ⟨hl, _⟩ := (Accessor.mem_sourceLines hm hr).mpr ⟨path, d, colors, hp, hx, rfl⟩
  exact ⟨colors, hx, contentAt_colorDescriptor ha hu hs hi hx, _, hl,
    ⟨hn.quotes_not_mem_qualified hp, Accessor.accessorLine_eq_append hm⟩, rfl⟩

theorem names_identify_sample :
    ∃ c fs' text before place,
      outcome (write {} (.ofSheet sample) sample (.ofText "x")) .empty = (.ok c, fs') ∧
      render {} sample (.ofSheet sample) = .ok text ∧
      WrittenFolder before fs' place ["y", colorFolderName "yc"] := by
  have ⟨c, fs', hw⟩ := write_sample
  have ⟨text, ht⟩ := render_of_write {} hw
  have ⟨_, _, before, place, _, _, _, hc, _⟩ := names_identify parse_sample hw rfl ht
  have hd : (["y"], _) ∈ declarationsOf sample.body := .head _
  exact ⟨c, fs', text, before, place, hw, ht, (hc ["y"] "yc").mpr ⟨_, hd, by decide⟩⟩

-- Where the name of a group begins that of another one, both names can go on to the same text.

def splitTwice : Sheet :=
  ⟨[.item (.group "A" [.declaration ⟨"BC", .plain (.color ⟨0, 0, 0, .one⟩)⟩]),
    .item (.group "AB" [.declaration ⟨"C", .plain (.color ⟨255, 255, 255, .one⟩)⟩])]⟩

theorem parse_splitTwice :
    Sheet.parse "A\x7bBC:#000000\x7d\nAB\x7bC:#ffffff\x7d" = .ok splitTwice := by
  have digit : Grammar.HexDigit 'f' 15 := ⟨by decide, .inl rfl⟩
  have white rest : Grammar.HexColor ('#' :: 'f' :: 'f' :: 'f' :: 'f' :: 'f' :: 'f' :: rest)
      ⟨255, 255, 255, .one⟩ rest :=
    .intro (.intro digit digit) (.intro digit digit) (.intro digit digit) .full
  have hb rest := declaration_of_hexColor 'B' ['C'] rfl <| hexColor_black ('\x7d' :: rest)
  have hc := declaration_of_hexColor 'C' [] rfl <| white ['\x7d']
  have ha rest : Grammar.Item ('A' :: '\x7b' :: _) _ rest :=
    .group (.of_all 'A' [] rfl) .nil .nil <|
      .cons (.declaration <| hb rest) (.last .nil (.inl rfl) rfl) .nil
  have ha' : Grammar.Item ('A' :: 'B' :: '\x7b' :: _) _ [] :=
    .group (.of_all 'A' ['B'] rfl) .nil .nil <|
      .cons (.declaration hc) (.last .nil (.inl rfl) rfl) .nil
  exact Sheet.parse_of_topItems (.cons (.item <| ha _) (.line .nil (.inl rfl) .lf .nil) <|
    .cons (.item ha') (.last .nil (.inl rfl) rfl) .nil) (by decide)

theorem names_of_splitTwice :
    let a : Declaration := ⟨"BC", .plain (.color ⟨0, 0, 0, .one⟩)⟩
    let b : Declaration := ⟨"C", .plain (.color ⟨255, 255, 255, .one⟩)⟩
    Sheet.parse "A\x7bBC:#000000\x7d\nAB\x7bC:#ffffff\x7d" = .ok splitTwice ∧
    (["A"], a) ∈ declarationsOf splitTwice.body ∧ (["AB"], b) ∈ declarationsOf splitTwice.body ∧
    a ≠ b ∧ qualified "" ["A"] a = qualified "" ["AB"] b ∧
    ∃ c fs' text,
      outcome (write {} (.ofSheet splitTwice) splitTwice (.ofText "x")) .empty = (.ok c, fs') ∧
      render {} splitTwice (.ofSheet splitTwice) = .ok text ∧
      fs'.root.contentAt ["x", "A", colorFolderName "ABC"] = some none ∧
      fs'.root.contentAt ["x", "AB", colorFolderName "ABC"] = some none := by
  intro a b
  have ⟨t, ht⟩ : ∃ t, Fills {} (.ofSheet splitTwice) "" splitTwice.body (described (groupContent {})) t :=
    ⟨_, .group rfl (by decide) (.declaration rfl (by decide) rfl .nil) <|
      .group rfl (by decide) (.declaration rfl (by decide) rfl .nil) .nil⟩
  have hp : PathsFit "" splitTwice.body (.ofText "x") :=
    .cons_group (.cons_declaration (by decide) <| .nil (by decide)) <|
      .cons_group (.cons_declaration (by decide) <| .nil (by decide)) <| .nil (by decide)
  have hw := write_of_fills (Sheet.named_of_parse parse_splitTwice) hp ht
  have ⟨text, hr⟩ := render_of_write {} hw
  refine ⟨parse_splitTwice, .head _, .tail _ <| .head _, by simp [a, b], by decide,
    _, _, text, hw, hr, ?_, ?_⟩
  · exact (contentAt_after creates_x.opens).trans <| ht.holds.mpr <|
      .color (.inner (.head _) .here) (.head _)
  · exact (contentAt_after creates_x.opens).trans <| ht.holds.mpr <|
      .color (.inner (.tail _ <| .head _) .here) (.head _)

end Catalog

end Palette
