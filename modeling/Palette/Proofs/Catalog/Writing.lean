import Palette.Proofs.Catalog.Admissible
import Palette.Proofs.FileSystem.Operations
import Palette.Proofs.FileSystem.Programs

-- Writing items into a folder fills the table of that folder and changes nothing else.

namespace Palette

namespace Catalog

open FileSystem (At maxNameBytes)
open Item (Scope)
open Program

variable {o : Options} {Γ : Context} {qualifier name : String} {items inner : List Item}
variable {path : List String} {d : Declaration} {t t' u : Table Node}
variable {fs fs' : FileSystem} {p : Path} {place : Place} {c : Counts}

-- Names that are made of letters and digits are plain, and so are those of colors then.

theorem plainName_of_alphanumeric (hn : name ≠ "") (hc : ∀ c ∈ name.toList, c.isAlphanum) :
    PlainName name := by
  have dot : name ≠ "." := by rintro rfl; cases hc '.' (by decide)
  have dots : name ≠ ".." := by rintro rfl; cases hc '.' (by decide)
  refine ⟨by simp [FileSystem.isName, Path.staysPut, *], fun h => ?_⟩
  cases hc _ h

theorem alphanumeric_append (hq : ∀ c ∈ qualifier.toList, c.isAlphanum)
    (hn : ∀ c ∈ name.toList, c.isAlphanum) : ∀ c ∈ (qualifier ++ name).toList, c.isAlphanum := by
  intro c hc
  rw [String.toList_append, List.mem_append] at hc
  exact hc.elim (hq c) (hn c)

theorem alphanumeric_of_scope {scope : List Item} (hn : Named items) (hs : Scope items path scope) :
    ∀ name ∈ path, ∀ c ∈ name.toList, c.isAlphanum := by
  induction hs
  case here           => exact nofun
  case inner hg _ ih  => exact List.forall_mem_cons.mpr ⟨(hn.group .here hg).right, ih <| hn.of_mem hg⟩

theorem alphanumeric_qualified (hq : ∀ c ∈ qualifier.toList, c.isAlphanum)
    (hp : ∀ name ∈ path, ∀ c ∈ name.toList, c.isAlphanum) (hd : ∀ c ∈ d.name.toList, c.isAlphanum) :
    ∀ c ∈ (qualified qualifier path d).toList, c.isAlphanum := by
  induction path generalizing qualifier
  case nil => exact qualified_nil ▸ alphanumeric_append hq hd
  case cons name path ih =>
    have ⟨hn, hp⟩ := List.forall_mem_cons.mp hp
    exact qualified_cons ▸ ih (alphanumeric_append hq hn) hp

theorem plainName_colorFolderName (hc : ∀ c ∈ name.toList, c.isAlphanum) :
    PlainName (colorFolderName name) := by
  have long {s : String} (hs : s.length ≤ 2) : colorFolderName name ≠ s := by
    rintro rfl
    have : ".colorset".length = 9 := by decide
    simp only [colorFolderName, String.length_append] at hs
    omega
  refine ⟨?_, ?_⟩
  case refine_1 =>
    simp [FileSystem.isName, Path.staysPut, long (s := "") (by decide),
      long (s := ".") (by decide), long (s := "..") (by decide)]
  case refine_2 =>
    intro h
    rw [colorFolderName, String.toList_append, List.mem_append] at h
    rcases h with h | h
    · cases hc _ h
    · exact absurd h (by decide)

theorem plainName_descriptorName : PlainName descriptorName :=
  ⟨by decide, by decide⟩

-- The path of a folder is shorter than that of its descriptor.
theorem fits_of_join (hn : name ≠ "") (h : ((p.join name).join descriptorName).Fits) :
    (p.join name).Fits := by
  have ⟨before, hj, _⟩ := p.join_segments name
  have ht := congrArg String.utf8ByteSize <| Path.text_join hj hn descriptorName
  simp only [String.utf8ByteSize_append] at ht
  unfold Path.Fits at h ⊢
  omega

namespace PathsFit

theorem tail {i : Item} (h : PathsFit qualifier (i :: items) p) : PathsFit qualifier items p where
  group hs :=
    have ⟨_, hs', _⟩ := hs.cons
    h.group hs'
  color hs hd :=
    have ⟨_, hs', hl⟩ := hs.cons
    h.color hs' (hl.mem hd)

theorem of_mem (h : PathsFit qualifier items p) (hg : .group name inner ∈ items) :
    PathsFit (qualifier ++ name) inner (p.join name) where
  group hs := h.group (.inner hg hs)
  color hs hd := qualified_cons ▸ h.color (.inner hg hs) hd

end PathsFit

theorem writeDescriptor_eq_ok {descriptor : Data} (h : fs.At p place .empty)
    (hl : (p.join descriptorName).Fits) :
    outcome (writeDescriptor p descriptor) fs = (.ok (), fs') ↔
      fs' = fs.putFolder place (described descriptor.toSpacedJson.toUTF8) := by
  rw [writeDescriptor, attempt_eq_ok, FileSystem.writeBytes_eq_ok,
    h.leads.writeBytes_join h.folder plainName_descriptorName hl (by decide) rfl]
  simp only [Except.ok.injEq]
  exact eq_comm

-- A new folder with its descriptor, which is what all items begin with.
theorem describe_eq_ok {descriptor : Data} (h : fs.At p place t) (hn : PlainName name)
    (hl : ((p.join name).join descriptorName).Fits) (hf : t.find? name = none)
    (hs : name.utf8ByteSize ≤ maxNameBytes) :
    outcome (writeDescriptor (p.join name) descriptor)
        (fs.putFolder place (t.insert name (.folder .empty))) = (.ok (), fs') ↔
      fs' = fs.putFolder place
        (t.insert name (.folder (described descriptor.toSpacedJson.toUTF8))) := by
  have h' := h.insert hf (.folder .empty)
  rw [writeDescriptor_eq_ok (h'.enter Table.find?_insert_self hn hs) hl,
    FileSystem.putFolder_concat h.folder, Table.insert_insert]

theorem writeDeclaration_eq_ok (h : fs.At p place t)
    (hq : ∀ c ∈ qualifier.toList, c.isAlphanum) (hd : ∀ c ∈ d.name.toList, c.isAlphanum)
    (hl : ((p.join (colorFolderName (qualifier ++ d.name))).join descriptorName).Fits) :
    outcome (writeItem o Γ p qualifier (.declaration d)) fs = (.ok c, fs') ↔
      t.find? (colorFolderName (qualifier ++ d.name)) = none ∧
      (colorFolderName (qualifier ++ d.name)).utf8ByteSize ≤ maxNameBytes ∧
      ∃ colors, Γ.resolve d.value = .ok colors ∧ c = ⟨0, 1⟩ ∧
        fs' = fs.putFolder place (t.insert (colorFolderName (qualifier ++ d.name))
          (.folder (described (colorContent o colors)))) := by
  have hn : PlainName (colorFolderName (qualifier ++ d.name)) :=
    plainName_colorFolderName <| alphanumeric_append hq hd
  simp only [writeItem, bind_eq_ok, attempt_eq_ok, FileSystem.createFolder_eq_ok,
    h.createFolder_eq_ok hn (fits_of_join hn.ne_empty hl), resolving_eq_ok, pure_outcome]
  constructor
  case mp =>
    rintro ⟨_, _, ⟨hf, hs, rfl⟩, colors, _, ⟨hx, rfl⟩, _, _, hw, hr⟩
    rw [describe_eq_ok h hn hl hf hs] at hw
    cases hr
    exact ⟨hf, hs, colors, hx, rfl, hw⟩
  case mpr =>
    rintro ⟨hf, hs, colors, hx, rfl, rfl⟩
    exact ⟨(), _, ⟨hf, hs, rfl⟩, colors, _, ⟨hx, rfl⟩, (), _,
      (describe_eq_ok h hn hl hf hs).mpr rfl, rfl⟩

theorem writeGroup_eq_ok (h : fs.At p place t) (hn : PlainName name)
    (hl : ((p.join name).join descriptorName).Fits) :
    outcome (writeItem o Γ p qualifier (.group name inner)) fs = (.ok c, fs') ↔
      t.find? name = none ∧ name.utf8ByteSize ≤ maxNameBytes ∧
      ∃ c', c = ⟨1, 0⟩ + c' ∧
        outcome (writeItems o Γ (p.join name) (qualifier ++ name) inner)
          (fs.putFolder place (t.insert name (.folder (described (groupContent o))))) =
            (.ok c', fs') := by
  simp only [writeItem, bind_eq_ok, attempt_eq_ok, FileSystem.createFolder_eq_ok,
    h.createFolder_eq_ok hn (fits_of_join hn.ne_empty hl), pure_outcome]
  constructor
  case mp =>
    rintro ⟨_, _, ⟨hf, hs, rfl⟩, _, _, hw, c', _, hi, hr⟩
    rw [describe_eq_ok h hn hl hf hs] at hw
    cases hw
    cases hr
    exact ⟨hf, hs, c', rfl, hi⟩
  case mpr =>
    rintro ⟨hf, hs, c', rfl, hi⟩
    exact ⟨(), _, ⟨hf, hs, rfl⟩, (), _, (describe_eq_ok h hn hl hf hs).mpr rfl, c', _, hi, rfl⟩

-- Writing items into a folder succeeds if and only if its table can be filled with them, and then
-- nothing else has changed.
def FillsFolder (o : Options) (Γ : Context) (qualifier : String) (items : List Item) (p : Path)
    (place : Place) : Prop :=
  ∀ fs fs' t c, fs.At p place t →
    (outcome (writeItems o Γ p qualifier items) fs = (.ok c, fs') ↔
      ∃ t', Fills o Γ qualifier items t t' ∧ fs' = fs.putFolder place t' ∧
        c = Counts.ofItems items)

namespace FillsFolder

variable {rest : List Item}

theorem nil : FillsFolder o Γ qualifier [] p place := by
  intro fs fs' t c h
  simp only [writeItems, pure_outcome, Prod.mk.injEq, Except.ok.injEq]
  constructor
  case mp =>
    rintro ⟨hc, hf⟩
    exact ⟨t, .nil, hf ▸ h.putFolder_self.symm, hc.symm⟩
  case mpr =>
    rintro ⟨_, ⟨⟩, hf, hc⟩
    exact ⟨hc.symm, hf ▸ h.putFolder_self.symm⟩

-- The remaining items find the folder with the new entry in its table.

theorem declaration (hq : ∀ c ∈ qualifier.toList, c.isAlphanum)
    (hd : ∀ c ∈ d.name.toList, c.isAlphanum)
    (hl : ((p.join (colorFolderName (qualifier ++ d.name))).join descriptorName).Fits)
    (hr : FillsFolder o Γ qualifier rest p place) :
    FillsFolder o Γ qualifier (.declaration d :: rest) p place := by
  intro fs fs' t c h
  simp only [writeItems, bind_eq_ok, writeDeclaration_eq_ok h hq hd hl, pure_outcome]
  constructor
  case mp =>
    rintro ⟨_, _, ⟨hf, hs, colors, hx, rfl, rfl⟩, _, _, hw, hc⟩
    have h' := h.insert hf (.folder (described (colorContent o colors)))
    obtain ⟨t', ht, rfl, rfl⟩ := (hr _ _ _ _ h').mp hw
    cases hc
    exact ⟨t', .declaration hf hs hx ht, FileSystem.putFolder_putFolder h.folder, rfl⟩
  case mpr =>
    rintro ⟨t', ht, rfl, rfl⟩
    cases ht with
    | @declaration _ colors _ _ _ _ hf hs hx ht =>
      have h' := h.insert hf (.folder (described (colorContent o colors)))
      have hw := (hr _ _ _ _ h').mpr ⟨t', ht, rfl, rfl⟩
      refine ⟨_, _, ⟨hf, hs, colors, hx, rfl, rfl⟩, _, _, hw, ?_⟩
      rw [FileSystem.putFolder_putFolder h.folder]
      rfl

theorem «group» (hn : PlainName name) (hl : ((p.join name).join descriptorName).Fits)
    (hi : FillsFolder o Γ (qualifier ++ name) inner (p.join name) (place ++ [name]))
    (hr : FillsFolder o Γ qualifier rest p place) :
    FillsFolder o Γ qualifier (.group name inner :: rest) p place := by
  intro fs fs' t c h
  simp only [writeItems, bind_eq_ok, writeGroup_eq_ok h hn hl, pure_outcome]
  constructor
  case mp =>
    rintro ⟨_, _, ⟨hf, hs, _, rfl, hw⟩, _, _, hw', hc⟩
    have h' := h.insert hf (.folder (described (groupContent o)))
    have he := h'.enter Table.find?_insert_self hn hs
    obtain ⟨u, hu, rfl, rfl⟩ := (hi _ _ _ _ he).mp hw
    rw [FileSystem.putFolder_concat h.folder, Table.insert_insert] at hw'
    have h' := h.insert hf (.folder u)
    obtain ⟨t', ht, rfl, rfl⟩ := (hr _ _ _ _ h').mp hw'
    cases hc
    exact ⟨t', .group hf hs hu ht, FileSystem.putFolder_putFolder h.folder, rfl⟩
  case mpr =>
    rintro ⟨t', ht, rfl, rfl⟩
    cases ht with
    | @group _ _ _ u _ _ _ hf hs hu ht =>
      have h' := h.insert hf (.folder (described (groupContent o)))
      have he := h'.enter Table.find?_insert_self hn hs
      have hw := (hi _ _ _ _ he).mpr ⟨_, hu, rfl, rfl⟩
      rw [FileSystem.putFolder_concat h.folder, Table.insert_insert] at hw
      have h' := h.insert hf (.folder u)
      have hw' := (hr _ _ _ _ h').mpr ⟨t', ht, rfl, rfl⟩
      refine ⟨_, _, ⟨hf, hs, _, rfl, hw⟩, _, _, hw', ?_⟩
      rw [FileSystem.putFolder_putFolder h.folder]
      rfl

-- By recursion over the items.
theorem of_named {items : List Item} {qualifier : String} {p : Path} {place : Place}
    (hq : ∀ c ∈ qualifier.toList, c.isAlphanum) (hn : Named items)
    (hp : PathsFit qualifier items p) : FillsFolder o Γ qualifier items p place := by
  match items with
  | [] => exact nil
  | .declaration d :: rest =>
    have hd := (hn.declaration .here List.mem_cons_self).right
    have hl := hp.color .here List.mem_cons_self
    exact declaration hq hd (qualified_nil ▸ hl) <| of_named hq hn.tail hp.tail
  | .group name inner :: rest =>
    have hm : .group name inner ∈ (.group name inner :: rest : List Item) := List.mem_cons_self
    obtain ⟨hn', hc'⟩ := hn.group .here hm
    exact «group» (plainName_of_alphanumeric hn' hc') ((hp.of_mem hm).group .here)
      (of_named (alphanumeric_append hq hc') (hn.of_mem hm) (hp.of_mem hm))
      (of_named hq hn.tail hp.tail)

end FillsFolder

end Catalog

end Palette
