import Palette.Proofs.Accessor.Counting
import Palette.Proofs.Accessor.Injectivity
import Palette.Sheet.Lexical

-- What access makes of a source: in every line that declares something a modifier follows the blanks in
-- front, and all else stays as it is. What a line is for is told by how it begins, whatever names are in
-- it.

namespace Palette

namespace Accessor

open Reader (isBlank)

-- Each line with the line feed that ends it.
def textOf (lines : List Line) : String :=
  String.ofList (lines.flatMap (· ++ ['\n']))

def OpensEnum (line : Line) : Prop :=
  "enum ".toList <+: line.dropWhile isBlank

def DeclaresAccessor (line : Line) : Prop :=
  "static let ".toList <+: line.dropWhile isBlank

def ClosesEnum (line : Line) : Prop :=
  line.dropWhile isBlank = ['\x7d']

instance : DecidablePred OpensEnum :=
  fun _ => inferInstanceAs <| Decidable (_ <+: _)

instance : DecidablePred DeclaresAccessor :=
  fun _ => inferInstanceAs <| Decidable (_ <+: _)

-- The line for others to see, if it declares something.
def published (line : Line) : Line :=
  if OpensEnum line ∨ DeclaresAccessor line then
    line.takeWhile isBlank ++ ("public ".toList ++ line.dropWhile isBlank)
  else line

-- All lines declare enums or accessors or close enums, of which there are given numbers.
structure Declare (lines : List Line) (c : Counts) : Prop where
  enums     : lines.countP OpensEnum = c.groups
  accessors : lines.countP DeclaresAccessor = c.colors
  closing   : ∀ line ∈ lines, ¬OpensEnum line → ¬DeclaresAccessor line → ClosesEnum line

variable {mode : Mode} {access : Access} {indent : String} {depth : Nat} {name qualified : String}
variable {colors : Resolved} {word rest : Line} {lines lines' : List Line} {c c' : Counts}

namespace Declare

theorem nil : Declare [] {} :=
  ⟨rfl, rfl, nofun⟩

theorem append (h : Declare lines c) (h' : Declare lines' c') : Declare (lines ++ lines') (c + c') where
  enums     := by rw [List.countP_append, h.enums, h'.enums, Counts.groups_add]
  accessors := by rw [List.countP_append, h.accessors, h'.accessors, Counts.colors_add]
  closing   := List.forall_mem_append.mpr ⟨h.closing, h'.closing⟩

end Declare

-- Behind the blanks in front, a line begins with one of three words.

theorem not_prefix_of_head {w w' : Line} (h : w.head? ≠ w'.head?) (hw : w ≠ []) (hw' : w' ≠ []) :
    ¬w <+: w' ++ rest := by
  cases w with
  | nil => exact absurd rfl hw
  | cons =>
    cases w' with
    | nil  => exact absurd rfl hw'
    | cons =>
      rw [List.cons_append, List.cons_prefix_cons]
      exact fun he => h <| congrArg some he.left

section

variable (hb : Blank indent)

include hb

theorem indented (hw : word.head?.any (!isBlank ·)) :
    (indentation ⟨mode, access, indent⟩ depth ++ (word ++ rest)).takeWhile isBlank =
      indentation ⟨mode, access, indent⟩ depth ∧
    (indentation ⟨mode, access, indent⟩ depth ++ (word ++ rest)).dropWhile isBlank = word ++ rest := by
  have hi : ∀ c ∈ indentation ⟨mode, access, indent⟩ depth, isBlank c := fun c hc => by
    simpa [isBlank] using hb c <| mem_indentation hc
  rw [List.takeWhile_append_of_pos hi, List.dropWhile_append_of_pos hi]
  cases word with
  | nil      => cases hw
  | cons a _ =>
    have ha : isBlank a = false := by simpa using hw
    simp [ha]

-- In front of what a line declares there is nothing but blanks, until the modifier is put there.

theorem published_groupLine :
    published (groupLine ⟨mode, .internal, indent⟩ depth name) =
      groupLine ⟨mode, .exported, indent⟩ depth name ∧
    Declare [groupLine ⟨mode, .internal, indent⟩ depth name] ⟨1, 0⟩ := by
  have hw : "enum ".toList.head?.any (!isBlank ·) := by decide
  have ⟨ht, hd⟩ := @indented mode .internal indent depth _ (name.toList ++ " \x7b".toList) hb hw
  have hl : groupLine ⟨mode, .internal, indent⟩ depth name =
      indentation ⟨mode, .internal, indent⟩ depth ++
        ("enum ".toList ++ (name.toList ++ " \x7b".toList)) :=
    rfl
  have ho : OpensEnum (groupLine ⟨mode, .internal, indent⟩ depth name) := by
    rw [OpensEnum, hl, hd]
    exact List.prefix_append ..
  have ha : ¬DeclaresAccessor (groupLine ⟨mode, .internal, indent⟩ depth name) := by
    rw [DeclaresAccessor, hl, hd]
    exact not_prefix_of_head (by decide) (by decide) (by decide)
  refine ⟨?_, by simp [ho], by simp [ha], by simp [ho]⟩
  rw [published, if_pos <| .inl ho, hl, ht, hd]
  rfl

theorem published_accessorLine :
    published (accessorLine ⟨mode, .internal, indent⟩ depth name qualified colors) =
      accessorLine ⟨mode, .exported, indent⟩ depth name qualified colors ∧
    Declare [accessorLine ⟨mode, .internal, indent⟩ depth name qualified colors] ⟨0, 1⟩ := by
  have hw : "static let ".toList.head?.any (!isBlank ·) := by decide
  have ⟨ht, hd⟩ := @indented mode .internal indent depth _
    (name.toList ++ (" = ".toList ++ initializer mode qualified colors)) hb hw
  have hl : accessorLine ⟨mode, .internal, indent⟩ depth name qualified colors =
      indentation ⟨mode, .internal, indent⟩ depth ++ ("static let ".toList ++
        (name.toList ++ (" = ".toList ++ initializer mode qualified colors))) :=
    rfl
  have ho : ¬OpensEnum (accessorLine ⟨mode, .internal, indent⟩ depth name qualified colors) := by
    rw [OpensEnum, hl, hd]
    exact not_prefix_of_head (by decide) (by decide) (by decide)
  have ha : DeclaresAccessor (accessorLine ⟨mode, .internal, indent⟩ depth name qualified colors) := by
    rw [DeclaresAccessor, hl, hd]
    exact List.prefix_append ..
  refine ⟨?_, by simp [ho], by simp [ha], by simp [ha]⟩
  rw [published, if_pos <| .inr ha, hl, ht, hd]
  rfl

theorem published_closingLine :
    published (closingLine ⟨mode, .internal, indent⟩ depth) =
      closingLine ⟨mode, .exported, indent⟩ depth ∧
    Declare [closingLine ⟨mode, .internal, indent⟩ depth] {} := by
  have hw : ['\x7d'].head?.any (!isBlank ·) := by decide
  have ⟨_, hd⟩ := @indented mode .internal indent depth _ [] hb hw
  have hc : ClosesEnum (closingLine ⟨mode, .internal, indent⟩ depth) := by
    rwa [List.append_nil] at hd
  have ho : ¬OpensEnum (closingLine ⟨mode, .internal, indent⟩ depth) := by
    rw [OpensEnum, hc]
    decide
  have ha : ¬DeclaresAccessor (closingLine ⟨mode, .internal, indent⟩ depth) := by
    rw [DeclaresAccessor, hc]
    decide
  refine ⟨?_, by simp [ho], by simp [ha], by simp [hc]⟩
  rw [published, if_neg <| not_or.mpr ⟨ho, ha⟩]
  rfl

end

-- By recursion over the members.

mutual

theorem published_memberLines (hb : Blank indent) (m : Member) (depth : Nat) :
    (memberLines ⟨mode, .internal, indent⟩ depth m).map published =
      memberLines ⟨mode, .exported, indent⟩ depth m ∧
    Declare (memberLines ⟨mode, .internal, indent⟩ depth m) m.counts := by
  match m with
  | .entry name qualified colors =>
    have ⟨he, hd⟩ := @published_accessorLine mode indent depth name qualified colors hb
    rw [memberLines, memberLines, Member.counts]
    exact ⟨congrArg ([·]) he, hd⟩
  | .group name qualified members =>
    have ⟨he, hd⟩ := @published_groupLine mode indent depth name hb
    have ⟨he', hd'⟩ := published_membersLines hb members (depth + 1)
    have ⟨he'', hd''⟩ := @published_closingLine mode indent depth hb
    have hm (access : Access) : memberLines ⟨mode, access, indent⟩ depth (.group name qualified members) =
        [groupLine ⟨mode, access, indent⟩ depth name] ++
          (membersLines ⟨mode, access, indent⟩ (depth + 1) members ++
            [closingLine ⟨mode, access, indent⟩ depth]) := by
      rw [memberLines]
      rfl
    have hc : (Member.group name qualified members).counts = ⟨1, 0⟩ + (countsOf members + {}) := rfl
    rw [hm, hm, hc]
    refine ⟨?_, hd.append <| hd'.append hd''⟩
    rw [List.map_append, List.map_append, he', List.map_singleton, List.map_singleton, he, he'']

theorem published_membersLines (hb : Blank indent) (members : List Member) (depth : Nat) :
    (membersLines ⟨mode, .internal, indent⟩ depth members).map published =
      membersLines ⟨mode, .exported, indent⟩ depth members ∧
    Declare (membersLines ⟨mode, .internal, indent⟩ depth members) (countsOf members) := by
  match members with
  | []        => exact ⟨rfl, .nil⟩
  | m :: rest =>
    have ⟨he, hd⟩ := published_memberLines hb m depth
    have ⟨hr, hd'⟩ := published_membersLines hb rest depth
    rw [membersLines, membersLines, List.map_append, he, hr, countsOf]
    exact ⟨rfl, hd.append hd'⟩

end

-- The source for others to see is the one for the module itself but for a modifier behind the blanks in
-- front of each line that declares something. There is one such line for every enum, the outermost one
-- included, and one for every accessor. Above and below them and where enums are closed both are alike.
theorem source_exported (mode : Mode) {indent name qualified : String} {members : List Member}
    (hb : Blank indent) (hn : Alphanumeric (Member.group name qualified members).names) :
    ∃ inside,
      (∀ line ∈ headerLines ++ (inside ++ (['\x7d'] :: footerLines mode)), '\n' ∉ line) ∧
      Declare inside ⟨1 + (countsOf members).groups, (countsOf members).colors⟩ ∧
      source ⟨mode, .internal, indent⟩ (.group name qualified members) =
        textOf (headerLines ++ (inside ++ (['\x7d'] :: footerLines mode))) ∧
      source ⟨mode, .exported, indent⟩ (.group name qualified members) =
        textOf (headerLines ++ (inside.map published ++ (['\x7d'] :: footerLines mode))) := by
  have ⟨he, hd⟩ := @published_memberLines mode indent hb (.group name qualified members) 1
  have hc : (Member.group name qualified members).counts =
      ⟨1 + (countsOf members).groups, 0 + (countsOf members).colors⟩ :=
    rfl
  rw [hc, Nat.zero_add] at hd
  exact ⟨_, lineFeed_not_mem_sourceLines hb hn, hd, rfl, he ▸ rfl⟩

-- Names that look like what lines begin with.
theorem source_exported_of_words :
    let members : List Member := [.group "enum" "enum" [.entry "public" "enumpublic" (.plain default)]]
    ∃ inside, Declare inside ⟨2, 1⟩ ∧
      source ⟨.assetCatalog, .exported, "\t"⟩ (.group "static" "" members) =
        textOf (headerLines ++ (inside.map published ++ (['\x7d'] :: footerLines .assetCatalog))) := by
  intro members
  have ⟨inside, _, hd, _, he⟩ :=
    @source_exported .assetCatalog "\t" "static" "" members (by decide) (by decide)
  exact ⟨inside, hd, he⟩

end Accessor

end Palette
