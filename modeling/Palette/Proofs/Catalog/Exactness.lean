import Palette.Proofs.Catalog.Names
import Palette.Proofs.Catalog.Success
import Palette.Proofs.Grammar.Exactness

-- A catalog is written if and only if its sheet is admissible, and then it is what the sheet says,
-- whatever was there before.

namespace Palette

namespace Catalog

open FileSystem (At Cleared)
open Item (Scope)
open Program

variable {o : Options} {Γ : Context} {sheet : Sheet} {fs fs' cleared created : FileSystem} {p : Path}
variable {place : Place} {c : Counts}

theorem write_exact {source : String} (hs : Sheet.parse source = .ok sheet)
    (hf : fs.Replaceable p) (hp : PathsFit "" sheet.body p) (o : Options) :
    ((∃ c fs', outcome (write o (.ofSheet sheet) sheet p) fs = (.ok c, fs')) ↔
      Admissible (.ofSheet sheet) "" sheet.body) ∧
    ∀ c fs', outcome (write o (.ofSheet sheet) sheet p) fs = (.ok c, fs') →
      (∃ place, fs'.locate p = .ok place ∧ ∀ rest content,
        fs'.root.contentAt (place ++ rest) = some content ↔
          Holds o (.ofSheet sheet) "" sheet.body rest content) ∧
      outcome (write o (.ofSheet sheet) sheet p) fs' = (.ok c, fs') := by
  have hn := Sheet.named_of_parse hs
  have ⟨cleared, created, hr, hb, hc⟩ := hf.created
  obtain ⟨fs₁, parent, name, entries, h, rfl⟩ := hr.creates hb hf.written hc
  have hw c fs' : outcome (write o (.ofSheet sheet) sheet p) fs = (.ok c, fs') ↔ _ :=
    write_eq_ok_of_created hr hc h.opens hn hp
  refine ⟨?succeeds, fun c fs' h' => ?result⟩
  case succeeds =>
    rw [admissible_iff (o := o) hn]
    simp only [hw]
    exact ⟨fun ⟨_, _, t, ht, _⟩ => ⟨t, ht⟩, fun ⟨t, ht⟩ => ⟨_, _, t, ht, rfl, rfl⟩⟩
  case result =>
    obtain ⟨t, ht, rfl, rfl⟩ := (hw c fs').mp h'
    refine ⟨⟨parent ++ [name], h.locate_eq, fun rest content => ?_⟩, ?_⟩
    · rw [FileSystem.putFolder, Node.contentAt, Node.at?_put h.at_created]
      exact ht.holds
    · exact (write_eq_ok_of_created (.again h) h.createFolders_eq h.opens hn hp).mpr
        ⟨t, ht, rfl, rfl⟩

-- What samples are made of: declarations of colors in hex.

theorem hexColor_black (rest : List Char) :
    Grammar.HexColor ('#' :: '0' :: '0' :: '0' :: '0' :: '0' :: '0' :: rest) ⟨0, 0, 0, .one⟩ rest :=
  have digit : Grammar.HexDigit '0' 0 := ⟨by decide, .inl rfl⟩
  .intro (.intro digit digit) (.intro digit digit) (.intro digit digit) .full

theorem declaration_of_hexColor (a : Char) (cs : List Char) {s rest : List Char} {c : Color}
    (ha : (a :: cs).all Char.isAlphanum) (hc : Grammar.HexColor s c rest) :
    Grammar.Declaration (a :: (cs ++ ':' :: s)) ⟨String.ofList (a :: cs), .plain (.color c)⟩ rest :=
  .intro (.of_all a cs ha) (.intro .nil .nil) <| .plain <| .hexColor hc

-- A sheet with a color in a group.
def sample : Sheet :=
  ⟨[.item (.group "y" [.declaration ⟨"c", .plain (.color ⟨0, 0, 0, .one⟩)⟩])]⟩

theorem parse_sample : Sheet.parse "y\x7bc:#000000\x7d" = .ok sample := by
  have hy {rest : List Char} : Grammar.Name ('y' :: rest) "y" rest := .of_all 'y' [] rfl
  have hd := declaration_of_hexColor 'c' [] rfl <| hexColor_black ['\x7d']
  have hi : Grammar.Item ('y' :: '\x7b' :: _) _ [] :=
    .group hy .nil .nil <| .cons (.declaration hd) (.last .nil (.inl rfl) rfl) .nil
  exact Sheet.parse_of_topItems (.cons (.item hi) (.last .nil (.inl rfl) rfl) .nil) (by decide)

theorem fills_sample :
    ∃ t, Fills o Γ "" sample.body (described (groupContent o)) t :=
  ⟨_, .group rfl (by decide) (.declaration rfl (by decide) rfl .nil) .nil⟩

theorem admissible_sample : Admissible Γ "" sample.body :=
  have ⟨_, h⟩ := fills_sample (o := {})
  h.admissible

theorem pathsFit_sample (h : (p.join descriptorName).Fits)
    (hy : ((p.join "y").join descriptorName).Fits)
    (hc : (((p.join "y").join "yc.colorset").join descriptorName).Fits) :
    PathsFit "" sample.body p :=
  .cons_group (.cons_declaration hc (.nil hy)) (.nil h)

theorem creates_x : FileSystem.empty.Creates (.ofText "x") [] "x" .empty where
  entry  := rfl
  proper := rfl
  short  := by decide
  free   := rfl

theorem replaceable_x : FileSystem.empty.Replaceable (.ofText "x") := by
  refine ⟨rfl, .empty, _, .absent rfl, ?_, creates_x.createFolders_eq⟩
  exact fun before hb => absurd (hb.subset <| List.mem_concat_self ..) (by decide)

-- Where nothing is, the folder that is made is filled.
theorem write_of_fills {t : Table Node} (hn : Named sheet.body)
    (hp : PathsFit "" sheet.body (.ofText "x"))
    (ht : Fills o Γ "" sheet.body (described (groupContent o)) t) :
    outcome (write o Γ sheet (.ofText "x")) .empty =
      (.ok (Counts.ofItems sheet.body), (FileSystem.empty.created [] "x").putFolder ["x"] t) :=
  (write_eq_ok_of_created (.absent rfl) creates_x.createFolders_eq creates_x.opens hn hp).mpr
    ⟨t, ht, rfl, rfl⟩

theorem write_sample :
    ∃ c fs', outcome (write {} (.ofSheet sample) sample (.ofText "x")) .empty = (.ok c, fs') := by
  have ⟨_, ht⟩ := fills_sample (o := {}) (Γ := .ofSheet sample)
  exact ⟨_, _, write_of_fills (Sheet.named_of_parse parse_sample)
    (pathsFit_sample (by decide) (by decide) (by decide)) ht⟩

theorem write_exact_sample :
    ∃ c fs', outcome (write {} (.ofSheet sample) sample (.ofText "x")) .empty = (.ok c, fs') ∧
      outcome (write {} (.ofSheet sample) sample (.ofText "x")) fs' = (.ok c, fs') ∧
      ∃ place, fs'.locate (.ofText "x") = .ok place ∧
        fs'.root.contentAt (place ++ ["y", "yc.colorset"]) = some none := by
  have ⟨hs, hr⟩ := write_exact parse_sample replaceable_x (pathsFit_sample (by decide) (by decide) (by decide)) {}
  have ⟨c, fs', hw⟩ := hs.mpr admissible_sample
  have ⟨⟨place, hl, hc⟩, ha⟩ := hr c fs' hw
  refine ⟨c, fs', hw, ha, place, hl, (hc _ _).mpr ?_⟩
  exact .color (.inner List.mem_cons_self .here) List.mem_cons_self

-- What creation leaves inside of the destination stands in the way of a group of that name.
theorem write_of_leftover {t : Table Node} {name : String} {inner rest : List Item}
    (hr : fs.Cleared p cleared) (hc : cleared.createFolders p = (.ok (), created))
    (h : created.At p place t) (hd : t.find? descriptorName = none)
    (hl : (p.join descriptorName).Fits) (hb : sheet.body = .group name inner :: rest)
    (hn : PlainName name) (hs : name.utf8ByteSize ≤ FileSystem.maxNameBytes)
    (hl' : (p.join name).Fits) (hf : (t.find? name).isSome) :
    outcome (write o Γ sheet p) fs =
      (.error (.file (p.join name) .alreadyExists),
        created.putFolder place (t.insert descriptorName (.file (groupContent o)))) := by
  have hw : created.writeBytes (p.join descriptorName) (groupContent o) = .ok _ :=
    h.leads.writeBytes_join h.folder plainName_descriptorName hl (by decide) hd
  have hi := h.insert hd (.file (groupContent o))
  have hne : name ≠ descriptorName := by rintro rfl; simp [hd] at hf
  have he : (created.putFolder place (t.insert descriptorName (.file (groupContent o)))).createFolder
      (p.join name) = .error .alreadyExists := by
    rw [hi.leads.createFolder_join hi.folder hn hl', if_neg (Nat.not_lt.mpr hs), if_pos]
    rwa [Table.find?_insert_of_ne hne]
  rw [write_outcome hr hc, bind_eq_error]
  refine .inr ⟨(), _, attempt_eq_ok.mpr <| FileSystem.writeBytes_eq_ok.mpr hw, ?_⟩
  simp only [hb, writeItems, writeItem, bind_eq_error, attempt_eq_error,
    FileSystem.createFolder_eq_error]
  exact .inl <| .inl ⟨_, ⟨he, rfl⟩, rfl⟩

-- A path that leads back through its own destination has folders made in there.

def tangledPath : Path :=
  .ofText "x/y/../../x"

def tangled : FileSystem :=
  (FileSystem.empty.created [] "x").created ["x"] "y"

theorem createFolders_tangledPath :
    FileSystem.empty.createFolders tangledPath = (.ok (), tangled) := by
  have step {p : Path} {fs : FileSystem} := @FileSystem.createFolders_of_parent .empty p fs
  have h₂ := step (p := .ofText "x/y") (by decide) rfl rfl creates_x.createFolders_eq
  have h₃ := step (p := .ofText "x/y/..") (by decide) rfl rfl h₂
  have h₄ := step (p := .ofText "x/y/../..") (by decide) rfl rfl h₃
  exact step (p := tangledPath) (by decide) rfl rfl h₄

theorem opens_tangledPath : tangled.At tangledPath ["x"] (.insert "y" (.folder .empty) .empty) :=
  ⟨⟨by decide, rfl⟩, rfl⟩

theorem write_of_tangledPath :
    outcome (write o Γ sample tangledPath) .empty =
      (.error (.file (tangledPath.join "y") .alreadyExists),
        tangled.putFolder ["x"] (.insert descriptorName (.file (groupContent o)) <|
          .insert "y" (.folder .empty) .empty)) :=
  write_of_leftover (.absent rfl) createFolders_tangledPath opens_tangledPath rfl (by decide) rfl
    ⟨by decide, by decide⟩ (by decide) (by decide) rfl

theorem write_tangledPath_fails :
    Sheet.parse "y\x7bc:#000000\x7d" = .ok sample ∧
    FileSystem.empty.pathExists tangledPath = false ∧
    FileSystem.empty.createFolders tangledPath = (.ok (), tangled) ∧
    PathsFit "" sample.body tangledPath ∧
    Admissible (.ofSheet sample) "" sample.body ∧
    ∀ c fs', outcome (write {} (.ofSheet sample) sample tangledPath) .empty ≠ (.ok c, fs') := by
  have hp := pathsFit_sample (p := tangledPath) (by decide) (by decide) (by decide)
  refine ⟨parse_sample, rfl, createFolders_tangledPath, hp, admissible_sample,
    fun c fs' hw => ?_⟩
  cases write_of_tangledPath.symm.trans hw

end Catalog

end Palette
