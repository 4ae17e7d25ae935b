import Palette.Command.Run
import Palette.Proofs.Catalog.Names
import Palette.Proofs.Catalog.Success
import Palette.Proofs.FileSystem.Footprint

-- What a task does to files and what it prints. Files only change at its output, and not before the
-- sheet has been read; what is printed tells of what was done.

namespace Palette

open FileSystem (Builds ChangesOnly)
open OutputError (attempt resolving)
open Program

namespace Catalog

variable {o : Options} {Γ : Context} {p : Path} {name : String} {q : Place}

-- What is at a path of a name in a folder is in that folder.
theorem below_of_join (hn : FileSystem.isName name)
    (hq : Path.target [] (p.join name).segments <+: q) : Path.target [] p.segments <+: q := by
  rw [Path.target_join hn] at hq
  exact (List.prefix_append ..).trans hq

theorem leaves_createFolder {there : Path} (hn : FileSystem.isName name) :
    Leaves (ChangesOnly (Path.target [] p.segments <+: ·))
      (attempt there (FileStore.createFolder (p.join name))) :=
  Leaves.createFolder.mono fun _ _ h =>
    h.changesOnly.mono fun _ hq => below_of_join hn <| hq ▸ List.prefix_rfl

theorem leaves_writeDescriptor {descriptor : Data} :
    Leaves (ChangesOnly (Path.target [] p.segments <+: ·)) (writeDescriptor p descriptor) :=
  Leaves.writeBytes.mono fun _ _ h =>
    h.mono fun _ hq => below_of_join plainName_descriptorName.left <| hq ▸ List.prefix_rfl

mutual

theorem leaves_writeItem {i : Item} {rest : List Item} {qualifier : String} {p : Path}
    (hn : Named (i :: rest)) (hq : ∀ c ∈ qualifier.toList, c.isAlphanum) :
    Leaves (ChangesOnly (Path.target [] p.segments <+: ·)) (writeItem o Γ p qualifier i) := by
  have inside {name : String} {α : Type} {x : Program α} (hs : FileSystem.isName name)
      (h : Leaves (ChangesOnly (Path.target [] (p.join name).segments <+: ·)) x) :
      Leaves (ChangesOnly (Path.target [] p.segments <+: ·)) x :=
    h.mono fun _ _ h => h.mono fun _ => below_of_join hs
  cases i
  case declaration d =>
    have hd := (hn.declaration .here List.mem_cons_self).right
    have hs := (plainName_colorFolderName <| alphanumeric_append hq hd).left
    rw [writeItem]
    exact (leaves_createFolder hs).bind fun _ => (Leaves.resolving _).bind fun _ =>
      (inside hs leaves_writeDescriptor).bind fun _ => .pure _
  case group name inner =>
    have ⟨he, hc⟩ := hn.group .here List.mem_cons_self
    have hs := (plainName_of_alphanumeric he hc).left
    have hi := leaves_writeItems (p := p.join name) (hn.of_mem List.mem_cons_self) <|
      alphanumeric_append hq hc
    rw [writeItem]
    exact (leaves_createFolder hs).bind fun _ => (inside hs leaves_writeDescriptor).bind fun _ =>
      (inside hs hi).bind fun _ => .pure _

theorem leaves_writeItems {items : List Item} {qualifier : String} {p : Path}
    (hn : Named items) (hq : ∀ c ∈ qualifier.toList, c.isAlphanum) :
    Leaves (ChangesOnly (Path.target [] p.segments <+: ·)) (writeItems o Γ p qualifier items) := by
  cases items
  case nil => exact .pure _
  case cons i rest =>
    rw [writeItems]
    exact (leaves_writeItem hn hq).bind fun _ => (leaves_writeItems hn.tail hq).bind fun _ => .pure _

end

theorem leaves_write {sheet : Sheet} (hn : Named sheet.body) :
    Leaves (Builds p) (write o Γ sheet p) := by
  have inside {α : Type} {x : Program α}
      (h : Leaves (ChangesOnly (Path.target [] p.segments <+: ·)) x) : Leaves (Builds p) x :=
    h.mono fun _ _ => Builds.of_changesOnly
  have next : Leaves (Builds p) (do
      attempt p (FileStore.createFolders p)
      writeDescriptor p (groupDescriptor o.author)
      writeItems o Γ p "" sheet.body) :=
    (Leaves.createFolders.mono fun _ _ => Builds.of_adds).bind fun _ =>
      (inside leaves_writeDescriptor).bind fun _ => inside <| leaves_writeItems hn nofun
  refine .pathExists fun present => ?_
  cases present
  case false => exact next
  case true  => exact (inside Leaves.removeFolder).bind fun _ => next

end Catalog

namespace Accessor

variable {style : Style} {Γ : Context} {sheet : Sheet} {p : Path} {force : Bool}
variable {fs fs' : FileSystem} {content : ByteArray}

theorem leaves_holds : Leaves Eq (holds p content) := by
  refine .pathExists fun present => ?_
  cases present
  case false => exact .pure _
  case true  => exact Leaves.readBytes.bind fun _ => .pure _

-- Whether the file is left as it is.
def keeps (p : Path) (content : ByteArray) (force : Bool) : Program Bool :=
  if force then pure false else holds p content

theorem leaves_keeps : Leaves Eq (keeps p content force) := by
  cases force
  case false => exact leaves_holds
  case true  => exact .pure _

theorem write_eq_keeps :
    (write style Γ sheet p force : Program Written) = do
      let text ← resolving (render style sheet Γ)
      let same ← keeps p text.toUTF8 force
      if same then return .unchanged
      attempt p (FileStore.writeBytes p text.toUTF8)
      return .written := by
  cases force <;> rfl

theorem leaves_write :
    Leaves (ChangesOnly (· = Path.target [] p.segments)) (write style Γ sheet p force) := by
  have keeps {content : ByteArray} :
      Leaves (ChangesOnly (· = Path.target [] p.segments)) (keeps p content force) :=
    leaves_keeps.mono fun _ _ he _ _ => he ▸ rfl
  rw [write_eq_keeps]
  refine (Leaves.resolving _).bind fun text => keeps.bind fun same => ?_
  cases same
  case false => exact Leaves.writeBytes.bind fun _ => .pure _
  case true  => exact .pure _

-- The file is written last.
theorem files_of_write_eq_error {x : OutputError}
    (h : outcome (write style Γ sheet p force) fs = (.error x, fs')) : fs' = fs := by
  simp only [write_eq_keeps, bind_eq_error, resolving_eq_error, resolving_eq_ok] at h
  rcases h with ⟨_, _, _, rfl⟩ | ⟨text, fs, ⟨_, rfl⟩, hs | ⟨same, fs₁, hs, h⟩⟩
  · rfl
  · exact ((leaves_keeps fs).trans <| congrArg Prod.snd hs).symm
  · obtain rfl : fs = fs₁ := (leaves_keeps fs).trans <| congrArg Prod.snd hs
    cases same
    case true => cases h
    case false =>
      simp only [Bool.false_eq_true, if_false, bind_eq_error, attempt_eq_error,
        FileSystem.writeBytes_eq_error] at h
      rcases h with ⟨_, ⟨_, rfl⟩, _⟩ | ⟨_, _, _, h⟩
      · rfl
      · cases h

end Accessor

namespace Command

-- Why there is no sheet to be read from a file.
inductive Unloadable (fs : FileSystem) (input : Path) : Prop
  | missing : fs.pathExists input = false → Unloadable fs input
  | unreadable : fs.readBytes input = .error e → Unloadable fs input
  | notUtf8 : fs.readBytes input = .ok bytes → String.fromUTF8? bytes = none → Unloadable fs input
  | unparseable : fs.readBytes input = .ok bytes → String.fromUTF8? bytes = some source →
    Sheet.parse source = .error e → Unloadable fs input

def loaded (fs : FileSystem) (input : Path) : Except RunError Sheet :=
  if fs.pathExists input then
    match fs.readBytes input with
    | .error e  => .error (.load (.file input e))
    | .ok bytes => (Sheet.ofBytes input bytes).mapError .load
  else .error (.noSuchFile input)

-- What a task does once its sheet has been read. It returns what is to be printed.
def workOn (colored : Bool) (sheet : Sheet) : Task → ExceptT RunError (StateM FileSystem) String
  | .writeCatalog _ output options =>
    (catalogWritten colored · output) <$> ExceptT.adapt (.generate output)
      (Catalog.write options (.ofSheet sheet) sheet output)
  | .writeAccessors _ output mode access force =>
    accessorsWritten colored output <$> ExceptT.adapt (.generate output)
      (Accessor.write { mode := mode, access := access } (.ofSheet sheet) sheet output force)
  | .check input report =>
    match (Context.ofSheet sheet).validate with
    | .error e => throw (.unresolvable input e)
    | .ok ()   => return reportText colored input sheet (.ofSheet sheet) report

-- What comes of a run: whether it failed, all that has been printed by then, and the files.
structure Ending where
  result : Except RunError Unit
  printed : String
  files : FileSystem

def finish (run : ExceptT RunError (StateT String (StateM FileSystem)) Unit) (printed : String)
    (fs : FileSystem) : Ending :=
  let work : StateM FileSystem (Except RunError Unit × String) := run.run.run printed
  let ((result, printed'), fs') := work.run fs
  ⟨result, printed', fs'⟩

def ending (colored : Bool) (task : Task) (printed : String) (fs : FileSystem) : Ending :=
  finish (carryOut colored task) printed fs

-- All that can come of a task: its sheet is not read, or what is done with the sheet fails, or else a
-- text is printed.
inductive Ends (colored : Bool) (task : Task) (printed : String) (fs : FileSystem) : Ending → Prop
  | unread : loaded fs task.input = .error e → Ends colored task printed fs ⟨.error e, printed, fs⟩
  | failed : loaded fs task.input = .ok sheet →
    (workOn colored sheet task).run.run fs = (.error e, fs') →
    Ends colored task printed fs ⟨.error e, printed, fs'⟩
  | done : loaded fs task.input = .ok sheet →
    (workOn colored sheet task).run.run fs = (.ok text, fs') →
    Ends colored task printed fs ⟨.ok (), printed ++ text, fs'⟩

variable {α : Type} {colored : Bool} {task : Task} {printed : String} {fs : FileSystem}
variable {input output : Path} {sheet : Sheet}

theorem adapt_run {ε ε' α : Type} {f : ε → ε'} {x : ExceptT ε (StateM FileSystem) α} :
    (ExceptT.adapt f x).run.run fs = ((x.run.run fs).1.mapError f, (x.run.run fs).2) :=
  rfl

theorem sheet_load_run :
    (Sheet.load input : ExceptT LoadError (StateM FileSystem) Sheet).run.run fs =
      ((match fs.readBytes input with
        | .error e  => .error (.file input e)
        | .ok bytes => Sheet.ofBytes input bytes), fs) := by
  have hr : (FileStore.readBytes input : StateM FileSystem _).run fs = (fs.readBytes input, fs) := rfl
  simp only [Sheet.load, ExceptT.run_mk, StateT.run_bind, hr]
  cases fs.readBytes input <;> rfl

theorem load_run :
    (load input : ExceptT RunError (StateM FileSystem) Sheet).run.run fs = (loaded fs input, fs) := by
  have hp : (liftM (FileStore.pathExists input : StateM FileSystem Bool) :
      ExceptT RunError (StateM FileSystem) Bool).run.run fs = (.ok (fs.pathExists input), fs) := rfl
  simp only [load, loaded, ExceptT.run_bind, StateT.run_bind, hp]
  cases fs.pathExists input
  case false => rfl
  case true =>
    refine adapt_run.trans ?_
    rw [sheet_load_run]
    cases fs.readBytes input <;> rfl

theorem parse_of_loaded (h : loaded fs input = .ok sheet) :
    ∃ source, Sheet.parse source = .ok sheet := by
  simp only [loaded] at h
  split at h
  case isFalse => cases h
  case isTrue =>
    split at h
    case h_1 => cases h
    case h_2 =>
      simp only [Sheet.ofBytes] at h
      split at h
      case h_1 => cases h
      case h_2 source _ =>
        refine ⟨source, ?_⟩
        cases hp : Sheet.parse source <;> rw [hp] at h <;> cases h
        rfl

theorem Unloadable.loaded (h : Unloadable fs input) : ∃ e, loaded fs input = .error e := by
  rw [Command.loaded]
  cases h with
  | missing hp           => simp [hp]
  | unreadable hr        => split <;> simp [hr]
  | notUtf8 hr hu        => split <;> simp [hr, hu, Sheet.ofBytes, Except.mapError]
  | unparseable hr hu hp => split <;> simp [hr, hu, hp, Sheet.ofBytes, Except.mapError]

-- Once files have been worked on, a run goes on as it does then.
theorem finish_onFiles {work : ExceptT RunError (StateM FileSystem) α}
    {next : α → ExceptT RunError (StateT String (StateM FileSystem)) Unit} :
    finish (onFiles work >>= next) printed fs =
      match work.run.run fs with
      | (.ok a, fs')    => finish (next a) printed fs'
      | (.error e, fs') => ⟨.error e, printed, fs'⟩ := by
  have hw : ((onFiles work).run.run printed : StateM FileSystem _).run fs =
      (((work.run.run fs).1, printed), (work.run.run fs).2) := rfl
  simp only [finish, ExceptT.run_bind, StateT.run_bind, hw]
  rcases work.run.run fs with ⟨_ | _, _⟩ <;> rfl

theorem finish_print {work : ExceptT RunError (StateM FileSystem) α} {text : α → String} :
    finish (onFiles work >>= fun a => print (text a)) printed fs =
      match (text <$> work).run.run fs with
      | (.ok text, fs') => ⟨.ok (), printed ++ text, fs'⟩
      | (.error e, fs') => ⟨.error e, printed, fs'⟩ := by
  rw [finish_onFiles, ExceptT.run_map, StateT.run_map]
  rcases work.run.run fs with ⟨_ | _, _⟩ <;> rfl

-- Every task reads its sheet, works on files and prints one text, one after the other.
theorem ending_eq :
    ending colored task printed fs =
      match loaded fs task.input with
      | .error e  => ⟨.error e, printed, fs⟩
      | .ok sheet =>
        match (workOn colored sheet task).run.run fs with
        | (.ok text, fs') => ⟨.ok (), printed ++ text, fs'⟩
        | (.error e, fs') => ⟨.error e, printed, fs'⟩ := by
  cases task <;> rw [ending, carryOut, finish_onFiles, load_run, Task.input] <;> cases loaded fs _
  case check.ok sheet =>
    simp only [workOn]
    cases (Context.ofSheet sheet).validate <;> rfl
  case writeCatalog.ok   => exact finish_print
  case writeAccessors.ok => exact finish_print
  all_goals rfl

theorem ends : Ends colored task printed fs (ending colored task printed fs) := by
  rw [ending_eq]
  cases hl : loaded fs task.input
  case error => exact .unread hl
  case ok sheet =>
    rcases hw : (workOn colored sheet task).run.run fs with ⟨_ | _, _⟩
    case error => simpa only [hw] using Ends.failed hl hw
    case ok    => simpa only [hw] using Ends.done hl hw

namespace Ends

variable {final : Ending} (h : Ends colored task printed fs final)

include h

-- What is done with a sheet is all that changes files.
theorem files : final.files = fs ∨ ∃ source sheet, Sheet.parse source = .ok sheet ∧
    final.files = ((workOn colored sheet task).run.run fs).2 := by
  cases h with
  | unread hl    => exact .inl rfl
  | failed hl hw | done hl hw =>
    have ⟨source, hp⟩ := parse_of_loaded hl
    exact .inr ⟨source, _, hp, by rw [hw]⟩

theorem unloaded {e : RunError} (hl : loaded fs task.input = .error e) :
    final = ⟨.error e, printed, fs⟩ := by
  cases h with
  | unread hl'                => cases hl.symm.trans hl'; rfl
  | failed hl' _ | done hl' _ => cases hl.symm.trans hl'

theorem printed_of_error {e : RunError} (he : final.result = .error e) : final.printed = printed := by
  cases h with
  | unread _ | failed _ _ => rfl
  | done _ _              => cases he

end Ends

theorem workOn_check {report : Report} :
    ((workOn colored sheet (.check input report)).run.run fs).2 = fs := by
  rw [workOn]
  cases (Context.ofSheet sheet).validate <;> rfl

theorem generate_run {work : Program α} {text : α → String} {wrap : OutputError → RunError} :
    (text <$> ExceptT.adapt wrap work).run.run fs =
      match outcome work fs with
      | (.ok a, fs')    => (.ok (text a), fs')
      | (.error e, fs') => (.error (wrap e), fs') := by
  rw [ExceptT.run_map, StateT.run_map, adapt_run, outcome]
  rcases work.run.run fs with ⟨_ | _, _⟩ <;> rfl

theorem files_of_generate {work : Program α} {text : α → String} {wrap : OutputError → RunError} :
    ((text <$> ExceptT.adapt wrap work).run.run fs).2 = (outcome work fs).2 := by
  rw [generate_run]
  rcases outcome work fs with ⟨_ | _, _⟩ <;> rfl

theorem files_of_check {report : Report} :
    (ending colored (.check input report) printed fs).files = fs := by
  rcases ends.files with he | ⟨_, _, _, he⟩
  · exact he
  · exact he.trans workOn_check

theorem builds_of_writeCatalog {options : Catalog.Options} :
    Builds output fs (ending colored (.writeCatalog input output options) printed fs).files := by
  rcases ends.files with he | ⟨_, _, hp, he⟩
  · exact he ▸ refl_of _ _
  · rw [he, workOn, files_of_generate]
    exact Catalog.leaves_write (Sheet.named_of_parse hp) fs

section

variable {mode : Accessor.Mode} {access : Accessor.Access} {force : Bool}

theorem changesOnly_of_writeAccessors :
    ChangesOnly (· = Path.target [] output.segments) fs
      (ending colored (.writeAccessors input output mode access force) printed fs).files := by
  rcases ends.files with he | ⟨_, _, _, he⟩
  · exact he ▸ refl_of _ _
  · rw [he, workOn, files_of_generate]
    exact Accessor.leaves_write fs

theorem files_of_writeAccessors_error {e : RunError} {final : Ending}
    (h : Ends colored (.writeAccessors input output mode access force) printed fs final)
    (he : final.result = .error e) : final.files = fs := by
  cases h with
  | unread _     => rfl
  | done _ _     => cases he
  | failed hl hw =>
    rw [workOn, generate_run] at hw
    split at hw <;> cases hw
    exact Accessor.files_of_write_eq_error ‹_›

end

-- What a task changes and prints, whatever files there are and however it ends. The way to the output
-- of a catalog goes by the folders above it, unless its path goes back by `..`.
theorem carryOut_effects (colored : Bool) (task : Task) (printed : String) (fs : FileSystem) :
    (∀ input report, task = .check input report → (ending colored task printed fs).files = fs) ∧
    (Unloadable fs task.input →
      (∃ e, (ending colored task printed fs).result = .error e) ∧
      (ending colored task printed fs).files = fs) ∧
    (∀ input output mode access force, task = .writeAccessors input output mode access force →
      ChangesOnly (· = Path.target [] output.segments) fs (ending colored task printed fs).files ∧
      ∀ e, (ending colored task printed fs).result = .error e →
        (ending colored task printed fs).files = fs) ∧
    (∀ input output options, task = .writeCatalog input output options →
      Builds output fs (ending colored task printed fs).files ∧
      (".." ∉ output.segments →
        fs.Spares (Path.target [] output.segments) (ending colored task printed fs).files)) ∧
    ∀ e, (ending colored task printed fs).result = .error e →
      (ending colored task printed fs).printed = printed := by
  refine ⟨?check, ?unloadable, ?writeAccessors, ?writeCatalog, fun _ => ends.printed_of_error⟩
  case check =>
    rintro _ _ rfl
    exact files_of_check
  case unloadable =>
    intro h
    have ⟨e, hl⟩ := h.loaded
    rw [ends.unloaded hl]
    exact ⟨⟨e, rfl⟩, rfl⟩
  case writeAccessors =>
    rintro _ _ _ _ _ rfl
    exact ⟨changesOnly_of_writeAccessors, fun _ => files_of_writeAccessors_error ends⟩
  case writeCatalog =>
    rintro _ _ _ rfl
    exact ⟨builds_of_writeCatalog, builds_of_writeCatalog.spares⟩

-- Where there is no input, nothing is made and nothing is said.
theorem carryOut_effects_missing :
    (ending false (.writeCatalog (.ofText "a") (.ofText "b") {}) "" .empty).files = .empty ∧
      (ending false (.writeCatalog (.ofText "a") (.ofText "b") {}) "" .empty).printed = "" := by
  have ⟨_, hu, _, _, hp⟩ :=
    carryOut_effects false (.writeCatalog (.ofText "a") (.ofText "b") {}) "" .empty
  have ⟨⟨e, he⟩, hf⟩ := hu (.missing rfl)
  exact ⟨hf, hp e he⟩

end Command

end Palette
