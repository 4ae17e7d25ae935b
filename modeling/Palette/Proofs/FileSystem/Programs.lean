import Palette.OutputError

-- Programs on files that are held in memory: how they end, and what they leave behind.
--
-- Outcomes are pairs and not values of the identity monad, so that they can be taken apart.

namespace Palette

abbrev Program (α : Type) :=
  ExceptT OutputError (StateM FileSystem) α

namespace Program

open OutputError (attempt resolving)

variable {α β : Type} {fs fs' : FileSystem} {a : α} {b : β} {e : OutputError}

def perform (operation : StateM FileSystem α) (fs : FileSystem) : α × FileSystem :=
  operation.run fs

-- The result of a program or its error, and the files that there are in the end.
def outcome (x : Program α) (fs : FileSystem) : Except OutputError α × FileSystem :=
  x.run.run fs

@[simp]
theorem pure_outcome : outcome (pure a) fs = (.ok a, fs) :=
  rfl

theorem bind_outcome {x : Program α} {next : α → Program β} :
    outcome (x >>= next) fs =
      match outcome x fs with
      | (.ok a, fs')    => outcome (next a) fs'
      | (.error e, fs') => (.error e, fs') := by
  simp only [outcome, ExceptT.run_bind, StateT.run_bind]
  rcases x.run.run fs with ⟨_ | _, _⟩ <;> rfl

@[simp]
theorem bind_eq_ok {x : Program α} {next : α → Program β} :
    outcome (x >>= next) fs = (.ok b, fs') ↔
      ∃ a fs₁, outcome x fs = (.ok a, fs₁) ∧ outcome (next a) fs₁ = (.ok b, fs') := by
  rw [bind_outcome]
  rcases outcome x fs with ⟨_ | _, _⟩ <;> simp [and_assoc]

@[simp]
theorem bind_eq_error {x : Program α} {next : α → Program β} :
    outcome (x >>= next) fs = (.error e, fs') ↔
      outcome x fs = (.error e, fs') ∨
        ∃ a fs₁, outcome x fs = (.ok a, fs₁) ∧ outcome (next a) fs₁ = (.error e, fs') := by
  rw [bind_outcome]
  rcases outcome x fs with ⟨_ | _, _⟩ <;> simp [and_assoc]

theorem pathExists_outcome {p : Path} :
    outcome (liftM (FileStore.pathExists p : StateM FileSystem Bool)) fs = (.ok (fs.pathExists p), fs) :=
  rfl

theorem attempt_outcome {p : Path} {operation : StateM FileSystem (Except FileError α)} :
    outcome (attempt p operation) fs =
      match perform operation fs with
      | (.ok a, fs')    => (.ok a, fs')
      | (.error e, fs') => (.error (.file p e), fs') := by
  simp only [outcome, perform, attempt, ExceptT.run_mk, StateT.run_bind]
  rcases operation.run fs with ⟨_ | _, _⟩ <;> rfl

@[simp]
theorem attempt_eq_ok {p : Path} {operation : StateM FileSystem (Except FileError α)} :
    outcome (attempt p operation) fs = (.ok a, fs') ↔ perform operation fs = (.ok a, fs') := by
  rw [attempt_outcome]
  rcases perform operation fs with ⟨_ | _, _⟩ <;> simp

@[simp]
theorem attempt_eq_error {p : Path} {operation : StateM FileSystem (Except FileError α)} :
    outcome (attempt p operation) fs = (.error e, fs') ↔
      ∃ fe, perform operation fs = (.error fe, fs') ∧ e = .file p fe := by
  rw [attempt_outcome]
  rcases perform operation fs with ⟨_ | _, _⟩ <;> simp [and_assoc]
  exact ⟨fun h => ⟨h.right, h.left.symm⟩, fun h => ⟨h.right.symm, h.left⟩⟩

theorem resolving_outcome {r : Except ResolveError α} :
    outcome (resolving r) fs =
      match r with
      | .ok a    => (.ok a, fs)
      | .error e => (.error (.resolve e), fs) := by
  cases r <;> rfl

@[simp]
theorem resolving_eq_ok {r : Except ResolveError α} :
    outcome (resolving r) fs = (.ok a, fs') ↔ r = .ok a ∧ fs' = fs := by
  rw [resolving_outcome]
  cases r <;> simp [eq_comm]

@[simp]
theorem resolving_eq_error {r : Except ResolveError α} :
    outcome (resolving r) fs = (.error e, fs') ↔
      ∃ re, r = .error re ∧ e = .resolve re ∧ fs' = fs := by
  rw [resolving_outcome]
  cases r <;> simp [eq_comm]

end Program

namespace FileSystem

open Program (perform)

variable {fs fs' : FileSystem} {p : Path} {u : Unit}

theorem update_eq_ok {f : FileSystem → Except FileError FileSystem} :
    perform (update f) fs = (.ok u, fs') ↔ f fs = .ok fs' := by
  simp only [perform, update, StateT.run]
  cases f fs <;> simp

theorem update_eq_error {f : FileSystem → Except FileError FileSystem} {e : FileError} :
    perform (update f) fs = (.error e, fs') ↔ f fs = .error e ∧ fs' = fs := by
  simp only [perform, update, StateT.run]
  cases f fs <;> simp [eq_comm]

@[simp]
theorem createFolder_eq_ok :
    perform (FileStore.createFolder p) fs = (.ok u, fs') ↔ fs.createFolder p = .ok fs' :=
  update_eq_ok

@[simp]
theorem writeBytes_eq_ok {content : ByteArray} :
    perform (FileStore.writeBytes p content) fs = (.ok u, fs') ↔ fs.writeBytes p content = .ok fs' :=
  update_eq_ok

@[simp]
theorem createFolder_eq_error {e : FileError} :
    perform (FileStore.createFolder p) fs = (.error e, fs') ↔
      fs.createFolder p = .error e ∧ fs' = fs :=
  update_eq_error

@[simp]
theorem writeBytes_eq_error {content : ByteArray} {e : FileError} :
    perform (FileStore.writeBytes p content) fs = (.error e, fs') ↔
      fs.writeBytes p content = .error e ∧ fs' = fs :=
  update_eq_error

@[simp]
theorem createFolders_eq : perform (FileStore.createFolders p) fs = fs.createFolders p :=
  rfl

@[simp]
theorem removeFolder_eq : perform (FileStore.removeFolder p) fs = fs.removeFolder p :=
  rfl

end FileSystem

end Palette
