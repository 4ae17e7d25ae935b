import Palette.Proofs.Accessor.Naming
import Palette.Proofs.Command.Effects
import Palette.Proofs.FileSystem.Content

-- The file of accessors once it has been written: it holds what was rendered, and is not touched again
-- unless that is forced.

namespace Palette

open FileSystem (ChangesOnly)
open OutputError (attempt resolving)
open Program (outcome)

-- Files, and beside them the paths at which they have been worked on, in the order of doing it.
structure Journal where
  files : FileSystem
  touched : List Path

namespace Journal

variable {α β : Type}

-- An operation that only looks at files.
def look (f : FileSystem → α) : StateM Journal α :=
  fun j => (f j.files, j)

-- An operation that is without effect if it fails.
def update (p : Path) (operation : StateM FileSystem (Except FileError Unit)) :
    StateM Journal (Except FileError Unit) :=
  fun j =>
    match operation j.files with
    | (.ok (), files)   => (.ok (), ⟨files, j.touched ++ [p]⟩)
    | (.error e, files) => (.error e, ⟨files, j.touched⟩)

-- An operation that may have done something even if it fails.
def change (p : Path) (operation : StateM FileSystem (Except FileError Unit)) :
    StateM Journal (Except FileError Unit) :=
  fun j => ((operation j.files).1, ⟨(operation j.files).2, j.touched ++ [p]⟩)

instance : FileStore (StateM Journal) where
  pathExists p         := look (·.pathExists p)
  readBytes p          := look (·.readBytes p)
  writeBytes p content := update p (FileStore.writeBytes p content)
  createFolder p       := update p (FileStore.createFolder p)
  createFolders p      := change p (FileStore.createFolders p)
  removeFolder p       := change p (FileStore.removeFolder p)

end Journal

namespace Accessor

variable {style : Style} {Γ : Context} {sheet : Sheet} {p : Path} {force : Bool}
variable {fs fs' : FileSystem} {content : ByteArray} {text : String} {w : Written}

-- Whether the file is left as it is, or why that cannot be told.
def kept (p : Path) (content : ByteArray) (force : Bool) (fs : FileSystem) : Except FileError Bool :=
  if force || !fs.pathExists p then .ok false
  else (fs.readBytes p).map (· == content)

theorem kept_eq_ok_true :
    kept p content force fs = .ok true ↔ force = false ∧ fs.readBytes p = .ok content := by
  rw [kept]
  cases force with
  | true  => simp
  | false =>
    cases hr : fs.readBytes p with
    | error => cases fs.pathExists p <;> simp [Except.map]
    | ok old =>
      have ⟨_, hl, _⟩ := FileSystem.readBytes_eq_ok.mp hr
      have hb : (old == content) = (old.data == content.data) := rfl
      simp [FileSystem.pathExists, hl, Except.isOk, Except.toBool, Except.map, hb, ByteArray.ext_iff]

-- What is to be written, if anything is, or why nothing can be.
def pending (style : Style) (Γ : Context) (sheet : Sheet) (p : Path) (force : Bool)
    (fs : FileSystem) : Except OutputError (Option ByteArray) :=
  match render style sheet Γ with
  | .error e => .error (.resolve e)
  | .ok text =>
    match kept p text.toUTF8 force fs with
    | .error e  => .error (.file p e)
    | .ok true  => .ok none
    | .ok false => .ok (some text.toUTF8)

theorem pending_eq_ok_none :
    pending style Γ sheet p force fs = .ok none ↔
      force = false ∧ ∃ text, render style sheet Γ = .ok text ∧ fs.readBytes p = .ok text.toUTF8 := by
  rw [pending]
  cases render style sheet Γ with
  | error => simp
  | ok text =>
    have hk := @kept_eq_ok_true p force fs text.toUTF8
    cases hb : kept p text.toUTF8 force fs with
    | error => simp_all
    | ok b  => cases b <;> simp_all

theorem render_of_pending (h : pending style Γ sheet p force fs = .ok (some content)) :
    ∃ text, render style sheet Γ = .ok text ∧ content = text.toUTF8 := by
  rw [pending] at h
  cases hr : render style sheet Γ with
  | error => simp [hr] at h
  | ok text =>
    refine ⟨text, rfl, ?_⟩
    simp only [hr] at h
    split at h <;> cases h
    rfl

-- The one step that changes anything.
def overwrite {m : Type → Type} [Monad m] [FileStore m] (p : Path) (content : ByteArray) :
    ExceptT OutputError m Written := do
  attempt p (FileStore.writeBytes p content)
  return .written

-- What comes of a program on files that are part of some state.
def run {σ α : Type} (x : ExceptT OutputError (StateM σ) α) (s : σ) : Except OutputError α × σ :=
  x.run.run s

section

variable {σ α β : Type} {s : σ}

theorem run_bind {x : ExceptT OutputError (StateM σ) α}
    {next : α → ExceptT OutputError (StateM σ) β} :
    run (x >>= next) s =
      match run x s with
      | (.ok a, s')    => run (next a) s'
      | (.error e, s') => (.error e, s') := by
  simp only [run, ExceptT.run_bind, StateT.run_bind]
  match x.run.run s with
  | (.error _, _) => rfl
  | (.ok _, _)    => rfl

theorem run_attempt {operation : StateM σ (Except FileError α)} :
    run (attempt p operation) s =
      match operation.run s with
      | (.error e, s') => (.error (.file p e), s')
      | (.ok a, s')    => (.ok a, s') := by
  simp only [run, attempt, ExceptT.run_mk, StateT.run_bind]
  rcases operation.run s with ⟨_ | _, _⟩
  all_goals rfl

variable [FileStore (StateM σ)]

theorem run_overwrite :
    run (overwrite p content) s =
      match (FileStore.writeBytes p content : StateM σ _).run s with
      | (.error e, s') => (.error (.file p e), s')
      | (.ok (), s')   => (.ok .written, s') := by
  rw [overwrite, run_bind, run_attempt]
  match (FileStore.writeBytes p content : StateM σ _).run s with
  | (.error _, _) => rfl
  | (.ok _, _)    => rfl

variable (hp : (FileStore.pathExists p : StateM σ Bool).run s = (fs.pathExists p, s))
variable (hr : (FileStore.readBytes p : StateM σ _).run s = (fs.readBytes p, s))

include hp hr

theorem run_holds :
    run (holds p content) s = ((kept p content false fs).mapError (.file p), s) := by
  have hl : run (liftM (FileStore.pathExists p : StateM σ Bool)) s = (.ok (fs.pathExists p), s) :=
    congrArg (fun r => (Except.ok r.1, r.2)) hp
  rw [holds, run_bind, hl, kept]
  cases fs.pathExists p with
  | false => rfl
  | true  =>
    simp only [if_true, run_bind, run_attempt, hr]
    cases fs.readBytes p <;> rfl

-- Rendering comes first, then the look at the file, and only then is anything done.
theorem run_write :
    run (write style Γ sheet p force) s =
      match pending style Γ sheet p force fs with
      | .error x           => (.error x, s)
      | .ok none           => (.ok .unchanged, s)
      | .ok (some content) => run (overwrite p content) s := by
  have hx : run (resolving (render style sheet Γ)) s =
      ((render style sheet Γ).mapError .resolve, s) :=
    rfl
  rw [write, run_bind, hx, pending]
  cases render style sheet Γ with
  | error => rfl
  | ok text =>
    cases force with
    | true  => rfl
    | false =>
      simp only [Except.mapError, Bool.false_eq_true, if_false, run_bind, run_holds hp hr]
      match kept p text.toUTF8 false fs with
      | .error _  => rfl
      | .ok true  => rfl
      | .ok false => rfl

end

theorem outcome_write :
    outcome (write style Γ sheet p force) fs =
      match pending style Γ sheet p force fs with
      | .error x           => (.error x, fs)
      | .ok none           => (.ok .unchanged, fs)
      | .ok (some content) =>
        match fs.writeBytes p content with
        | .error e => (.error (.file p e), fs)
        | .ok fs'  => (.ok .written, fs') := by
  refine (run_write rfl rfl).trans ?_
  match pending style Γ sheet p force fs with
  | .error _           => rfl
  | .ok none           => rfl
  | .ok (some content) =>
    have hw : (FileStore.writeBytes p content : StateM FileSystem _).run fs =
        match fs.writeBytes p content with
        | .error e => (.error e, fs)
        | .ok fs'  => (.ok (), fs') := by
      simp only [FileStore.writeBytes, FileSystem.update, StateT.run]
      cases fs.writeBytes p content <;> rfl
    refine run_overwrite.trans ?_
    simp only [hw]
    cases fs.writeBytes p content <;> rfl

theorem write_eq_unchanged :
    outcome (write style Γ sheet p force) fs = (.ok .unchanged, fs') ↔
      pending style Γ sheet p force fs = .ok none ∧ fs' = fs := by
  rw [outcome_write]
  match pending style Γ sheet p force fs with
  | .error _           => simp
  | .ok none           => simp [eq_comm]
  | .ok (some content) => cases hw : fs.writeBytes p content <;> simp [hw]

theorem write_eq_written :
    outcome (write style Γ sheet p force) fs = (.ok .written, fs') ↔
      ∃ content, pending style Γ sheet p force fs = .ok (some content) ∧
        fs.writeBytes p content = .ok fs' := by
  rw [outcome_write]
  match pending style Γ sheet p force fs with
  | .error _           => simp
  | .ok none           => simp
  | .ok (some content) => cases hw : fs.writeBytes p content <;> simp [hw]

theorem text_of_write (h : outcome (write style Γ sheet p force) fs = (.ok w, fs')) :
    ∃ text, render style sheet Γ = .ok text ∧ fs'.readBytes p = .ok text.toUTF8 := by
  cases w with
  | unchanged =>
    have ⟨hn, he⟩ := write_eq_unchanged.mp h
    have ⟨_, hx⟩ := pending_eq_ok_none.mp hn
    exact he ▸ hx
  | written =>
    have ⟨content, hs, hw⟩ := write_eq_written.mp h
    have ⟨text, hx, ht⟩ := render_of_pending hs
    exact ⟨text, hx, ht ▸ FileSystem.readBytes_of_writeBytes hw⟩

-- Once the file holds what is rendered, only force has it written.

section

variable (hx : render style sheet Γ = .ok text) (hr : fs.readBytes p = .ok text.toUTF8)

include hx hr

theorem write_again : outcome (write style Γ sheet p false) fs = (.ok .unchanged, fs) :=
  write_eq_unchanged.mpr ⟨pending_eq_ok_none.mpr ⟨rfl, text, hx, hr⟩, rfl⟩

theorem write_forced :
    ∃ fs', outcome (write style Γ sheet p true) fs = (.ok .written, fs') ∧
      fs'.readBytes p = .ok text.toUTF8 ∧
      ∀ q, fs'.root.contentAt q = fs.root.contentAt q := by
  have ⟨fs', hw⟩ := FileSystem.writeBytes_of_readBytes hr text.toUTF8
  have hs : pending style Γ sheet p true fs = .ok (some text.toUTF8) := by simp [pending, hx, kept]
  exact ⟨fs', write_eq_written.mpr ⟨_, hs, hw⟩, FileSystem.readBytes_of_writeBytes hw,
    FileSystem.contentAt_of_writeBytes_self hr hw⟩

end

-- What has been worked on in a run with this result.
def touches (p : Path) : Except OutputError Written → List Path
  | .ok .written => [p]
  | _            => []

theorem run_journal {touched : List Path} :
    run (write style Γ sheet p force) (Journal.mk fs touched) =
      let (r, fs') := outcome (write style Γ sheet p force) fs
      (r, ⟨fs', touched ++ touches p r⟩) := by
  rw [outcome_write]
  refine (run_write rfl rfl).trans ?_
  match pending style Γ sheet p force fs with
  | .error _           => simp [touches]
  | .ok none           => simp [touches]
  | .ok (some content) =>
    have hw : (FileStore.writeBytes p content : StateM Journal _).run ⟨fs, touched⟩ =
        match fs.writeBytes p content with
        | .error e => (.error e, ⟨fs, touched⟩)
        | .ok fs'  => (.ok (), ⟨fs', touched ++ [p]⟩) := by
      simp only [FileStore.writeBytes, Journal.update, FileSystem.update, StateT.run]
      cases fs.writeBytes p content <;> rfl
    simp only [run_overwrite, hw]
    cases fs.writeBytes p content <;> simp [touches]

theorem write_settles (style : Style) (Γ : Context) (sheet : Sheet) (p : Path) (force : Bool)
    (fs : FileSystem) :
    (∀ w fs', outcome (write style Γ sheet p force) fs = (.ok w, fs') →
      ∃ text, render style sheet Γ = .ok text ∧ fs'.readBytes p = .ok text.toUTF8 ∧
        ChangesOnly (· = Path.target [] p.segments) fs fs' ∧
        outcome (write style Γ sheet p false) fs' = (.ok .unchanged, fs') ∧
        ∃ fs'', outcome (write style Γ sheet p true) fs' = (.ok .written, fs'') ∧
          fs''.readBytes p = .ok text.toUTF8 ∧
          ∀ q, fs''.root.contentAt q = fs'.root.contentAt q) ∧
    (∀ fs', outcome (write style Γ sheet p force) fs = (.ok .unchanged, fs') ↔
      force = false ∧ fs' = fs ∧
        ∃ text, render style sheet Γ = .ok text ∧ fs.readBytes p = .ok text.toUTF8) ∧
    (∀ x fs', outcome (write style Γ sheet p force) fs = (.error x, fs') → fs' = fs) ∧
    (∀ e, render style sheet Γ = .error e →
      outcome (write style Γ sheet p force) fs = (.error (.resolve e), fs)) ∧
    ∀ touched, run (write style Γ sheet p force) (Journal.mk fs touched) =
      let (r, fs') := outcome (write style Γ sheet p force) fs
      (r, ⟨fs', touched ++ touches p r⟩) := by
  refine ⟨fun w fs' h => ?ok, fun fs' => ?unchanged, fun x fs' => files_of_write_eq_error,
    fun e he => ?unresolved, fun _ => run_journal⟩
  case ok =>
    have ⟨text, hx, hr⟩ := text_of_write h
    have hc : ChangesOnly (· = Path.target [] p.segments) fs fs' := by
      have hl : Program.Leaves (ChangesOnly (· = Path.target [] p.segments))
        (write style Γ sheet p force) := leaves_write
      simpa [h] using hl fs
    exact ⟨text, hx, hr, hc, write_again hx hr, write_forced hx hr⟩
  case unchanged =>
    rw [write_eq_unchanged, pending_eq_ok_none]
    exact and_assoc.trans <| and_congr_right fun _ => and_comm
  case unresolved => simp [outcome_write, pending, he]

theorem write_settles_sample :
    ∃ text fs', render {} Catalog.sample (.ofSheet Catalog.sample) = .ok text ∧
      outcome (write {} (.ofSheet Catalog.sample) Catalog.sample (.ofText "x") false) .empty =
        (.ok .written, fs') ∧
      fs'.readBytes (.ofText "x") = .ok text.toUTF8 ∧
      outcome (write {} (.ofSheet Catalog.sample) Catalog.sample (.ofText "x") false) fs' =
        (.ok .unchanged, fs') := by
  have ⟨_, _, hc⟩ := Catalog.write_sample
  have ⟨text, hx⟩ := Catalog.render_of_write {} hc
  have ⟨fs', hf⟩ : ∃ fs', FileSystem.empty.writeBytes (.ofText "x") text.toUTF8 = .ok fs' := ⟨_, rfl⟩
  have hk : kept (.ofText "x") text.toUTF8 false .empty = .ok false := rfl
  have hp : pending {} (.ofSheet Catalog.sample) Catalog.sample (.ofText "x") false .empty =
      .ok (some text.toUTF8) := by
    simp only [pending, hx, hk]
  have hw := write_eq_written.mpr ⟨text.toUTF8, hp, hf⟩
  have ⟨hs, _⟩ :=
    write_settles {} (.ofSheet Catalog.sample) Catalog.sample (.ofText "x") false .empty
  have ⟨text, hx, hr, _, ha, _⟩ := hs _ _ hw
  exact ⟨text, fs', hx, hw, hr, ha⟩

end Accessor

end Palette
