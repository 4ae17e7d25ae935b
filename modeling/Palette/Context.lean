import Palette.Sheet.Basic
import Palette.Table

-- The variables of a sheet and what references to them stand for. A reference stands for what its
-- variable was last declared as, wherever that is, with alpha multiplied by the opacity written at the
-- reference; references are followed until colors are reached. A name that comes back to itself on the
-- way is a cycle, and a pair of colors does not fit where a single one is wanted.

namespace Palette

-- A value with all references replaced by what they stand for.
abbrev Resolved := Themed Color

-- Why a reference stands for nothing.
inductive ResolveError where
  | undefined (name : String)
  | pairInSlot (name : String)
  | cycle (path : List String)
  deriving DecidableEq, Inhabited

-- The names that the error is about are told in full, those of a cycle in the order of following.
def ResolveError.message : ResolveError → String
  | .undefined name => "could not find variable with identifier '" ++ name ++ "'"
  | .pairInSlot name =>
    "variable '" ++ name ++ "' holds a colorset and cannot be assigned to a light or dark slot"
  | .cycle path => "cyclic variable reference: " ++ " -> ".intercalate path

-- How references are followed: to colors, or to the reason why there are none.
abbrev Follow := Reference → Except ResolveError Resolved

-- The color of a slot.
def Slot.resolveBy (follow : Follow) : Slot → Except ResolveError Color
  | .color c => .ok c
  | .reference r =>
    match follow r with
    | .ok (.plain c) => .ok c
    | .ok (.lightDark _ _) => .error (.pairInSlot r.name)
    | .error e => .error e

-- The colors of a value; of a pair the light one is settled first.
def Value.resolveBy (follow : Follow) : Value → Except ResolveError Resolved
  | .plain (.color c) => .ok (.plain c)
  | .plain (.reference r) => follow r
  | .lightDark light dark => do
    let l ← light.resolveBy follow
    let d ← dark.resolveBy follow
    return .lightDark l d

-- The variables of a sheet by name.
structure Context where
  declared : Table Value
  deriving Inhabited

namespace Context

-- The variables of a sheet. Of two with the same name the later one counts.
def ofSheet (s : Sheet) : Context where
  declared := .ofList (s.variableDeclarations.map fun d => (d.name, d.value))

variable (Γ : Context)

def size : Nat := Γ.declared.names.length

def value? (name : String) : Option Value := Γ.declared.find? name

-- The declared names that are not on a trail.
def fresh (trail : List String) : List String := Γ.declared.names.filter (· ∉ trail)

variable {Γ} in
theorem fresh_length_lt {trail : List String} (unseen : name ∉ trail)
    (declared : Γ.value? name = some v) :
    (Γ.fresh (trail ++ [name])).length < (Γ.fresh trail).length := by
  have mem : name ∈ Γ.fresh trail := by
    simpa [fresh, unseen] using Table.mem_names.mpr ⟨v, declared⟩
  have sub : Γ.fresh (trail ++ [name]) = (Γ.fresh trail).filter (· ≠ name) := by
    simp only [fresh, List.filter_filter]
    congr 1
    funext n
    simp [and_comm]
  rw [sub]
  refine Nat.lt_of_le_of_ne (List.length_filter_le _ _) fun eq => ?_
  simpa using List.length_filter_eq_length_iff.mp eq name mem

-- The colors that a reference stands for, behind a trail of names that led to it. The names on the
-- trail are distinct and declared, so that there are ever fewer names to go on with.
def follow (trail : List String) (r : Reference) : Except ResolveError Resolved :=
  if _seen : r.name ∈ trail then
    .error (.cycle (trail.dropWhile (· ≠ r.name) ++ [r.name]))
  else
    match _declared : Γ.value? r.name with
    | none => .error (.undefined r.name)
    | some v =>
      (v.resolveBy fun next => follow (trail ++ [r.name]) next).map (Themed.map (·.fade r.opacity))
termination_by (Γ.fresh trail).length
decreasing_by exact fresh_length_lt _seen _declared

def resolveReference (r : Reference) : Except ResolveError Resolved := Γ.follow [] r

def resolveSlot (s : Slot) : Except ResolveError Color := s.resolveBy (Γ.follow [])

def resolve (v : Value) : Except ResolveError Resolved := v.resolveBy (Γ.follow [])

-- Follows every variable once, in the order of names, up to the first error.
def validate : Except ResolveError Unit :=
  Γ.declared.names.forM fun name => do
    let _ ← Γ.resolveReference ⟨name, .one⟩

end Context

end Palette
