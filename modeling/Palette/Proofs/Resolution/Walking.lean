import Mathlib.Data.List.Perm.Subperm
import Palette.Proofs.Resolution.Errors

-- References followed with one trail for a whole walk, on which names are put and from which they are
-- taken again. What calls find on it are always distinct names on the way, and so walks do not go deeper
-- than there are names.

namespace Palette

-- What is kept during a walk: the trail, and the trails that all calls so far have found.
structure Walk where
  trail : List String
  found : List (List String)

-- Why a walk stops. It may go only a given number of references deep.
inductive Halt where
  | failed (e : ResolveError)
  | tooDeep

abbrev Walking (α : Type) :=
  ExceptT Halt (StateM Walk) α

namespace Walking

variable {α β : Type}

-- The trail as it is found by a call.
def look : Walking (List String) :=
  modifyGet fun w => (w.trail, { w with found := w.found ++ [w.trail] })

def fail (e : ResolveError) : Walking α :=
  throw (.failed e)

-- Goes on with a name at the end of the trail. It is only taken off again if nothing fails.
def through (name : String) (x : Walking α) : Walking α := do
  modify fun w => { w with trail := w.trail ++ [name] }
  let a ← x
  modify fun w => { w with trail := w.trail.dropLast }
  return a

section

variable (follow : Reference → Walking Resolved)

def slot (s : Slot) : Walking Color := do
  let _ ← look
  match s with
  | .color c     => return c
  | .reference r =>
    match ← follow r with
    | .plain c       => return c
    | .lightDark _ _ => fail (.pairInSlot r.name)

def pair (light dark : Slot) : Walking Resolved := do
  let _ ← look
  let l ← slot follow light
  let d ← slot follow dark
  return .lightDark l d

-- This is no call of its own.
def value : Value → Walking Resolved
  | .plain (.color c)     => return .plain c
  | .plain (.reference r) => follow r
  | .lightDark light dark => pair follow light dark

end

-- With this many calls for references inside of one another, itself included.
def reference (Γ : Context) : Nat → Reference → Walking Resolved
  | 0, _         => throw .tooDeep
  | depth + 1, r => do
    let trail ← look
    if r.name ∈ trail then fail (.cycle (trail.dropWhile (· ≠ r.name) ++ [r.name]))
    else
      match Γ.value? r.name with
      | none   => fail (.undefined r.name)
      | some v => do
        let x ← through r.name (value (reference Γ depth) v)
        return x.map (·.fade r.opacity)

def outcome (x : Walking α) (w : Walk) : Except Halt α × Walk :=
  x.run.run w

theorem bind_outcome {x : Walking α} {next : α → Walking β} {w : Walk} :
    outcome (x >>= next) w =
      match outcome x w with
      | (.ok a, w')    => outcome (next a) w'
      | (.error e, w') => (.error e, w') := by
  simp only [outcome, ExceptT.run_bind, StateT.run_bind]
  rcases x.run.run w with ⟨_ | _, _⟩ <;> rfl

-- All ways for a walk to end that has an answer to come to: with the answer, and unless that is an
-- error, with the trail as it was; or too deep, which takes a reason. What calls find has some property.
inductive Ends (deep : Prop) (good : List String → Prop) (trail : List String)
    (found : List (List String)) (answer : Except ResolveError α) : Except Halt α × Walk → Prop
  | ok : (∀ t ∈ found', t ∈ found ∨ good t) → answer = .ok a →
    Ends deep good trail found answer (.ok a, ⟨trail, found'⟩)
  | failed : (∀ t ∈ found', t ∈ found ∨ good t) → answer = .error e →
    Ends deep good trail found answer (.error (.failed e), ⟨trail', found'⟩)
  | tooDeep : (∀ t ∈ found', t ∈ found ∨ good t) → deep →
    Ends deep good trail found answer (.error .tooDeep, ⟨trail', found'⟩)

-- Whatever other calls have found.
def Gives (deep : Prop) (good : List String → Prop) (trail : List String) (x : Walking α)
    (answer : Except ResolveError α) : Prop :=
  ∀ found, Ends deep good trail found answer (outcome x ⟨trail, found⟩)

namespace Gives

variable {deep deep' : Prop} {good good' : List String → Prop} {trail : List String}
variable {x : Walking α} {next : α → Walking β} {answer : Except ResolveError α} {a : α}
variable {f : α → Except ResolveError β} {e : ResolveError} {name : String}

theorem mono (h : Gives deep good trail x answer) (hd : deep → deep') (hg : ∀ t, good t → good' t) :
    Gives deep' good' trail x answer := by
  intro found
  have hf {found' : List (List String)} (hf : ∀ t ∈ found', t ∈ found ∨ good t) :
      ∀ t ∈ found', t ∈ found ∨ good' t :=
    fun t ht => (hf t ht).imp_right <| hg t
  have h := h found
  generalize outcome x ⟨trail, found⟩ = ending at h ⊢
  cases h with
  | ok ht ha      => exact .ok (hf ht) ha
  | failed ht ha  => exact .failed (hf ht) ha
  | tooDeep ht hr => exact .tooDeep (hf ht) (hd hr)

theorem pure : Gives deep good trail (pure a) (.ok a) :=
  fun _ => .ok (fun _ => .inl) rfl

theorem fail : Gives deep good trail (fail e : Walking α) (.error e) :=
  fun _ => .failed (fun _ => .inl) rfl

-- What is found later on comes on top of what has been found.
theorem bind (h : Gives deep good trail x answer)
    (hn : ∀ a, answer = .ok a → Gives deep good trail (next a) (f a)) :
    Gives deep good trail (x >>= next) (answer >>= f) := by
  intro found
  have h := h found
  rw [bind_outcome]
  generalize outcome x ⟨trail, found⟩ = ending at h ⊢
  cases h with
  | failed ht ha  => exact ha ▸ .failed ht rfl
  | tooDeep ht hr => exact .tooDeep ht hr
  | @ok found' a ht ha =>
    have hn' := hn a ha found'
    have more {found'' : List (List String)} (hf : ∀ t ∈ found'', t ∈ found' ∨ good t) :
        ∀ t ∈ found'', t ∈ found ∨ good t :=
      fun t h => (hf t h).elim (ht t) .inr
    subst ha
    show Ends deep good trail found (f a) (outcome (next a) ⟨trail, found'⟩)
    generalize outcome (next a) ⟨trail, found'⟩ = ending at hn' ⊢
    cases hn' with
    | ok ht ha      => exact .ok (more ht) ha
    | failed ht ha  => exact .failed (more ht) ha
    | tooDeep ht hr => exact .tooDeep (more ht) hr

theorem map {g : α → β} (h : Gives deep good trail x answer) :
    Gives deep good trail (do let a ← x; return g a) (answer.map g) := by
  have hm : answer.map g = answer >>= fun a => .ok (g a) := by cases answer <;> rfl
  exact hm ▸ h.bind fun _ _ => .pure

theorem look (hg : good trail) : Gives deep good trail look (.ok trail) := by
  intro found
  refine .ok (fun t ht => ?_) rfl
  rcases List.mem_append.mp ht with ht | ht
  · exact .inl ht
  · exact .inr <| List.mem_singleton.mp ht ▸ hg

theorem through (h : Gives deep good (trail ++ [name]) x answer) :
    Gives deep good trail (Walking.through name x) answer := by
  intro found
  have h := h found
  have put : outcome (Walking.through name x) ⟨trail, found⟩ =
      outcome (do
        let a ← x
        modify fun w => { w with trail := w.trail.dropLast }
        return a) ⟨trail ++ [name], found⟩ :=
    rfl
  rw [put, bind_outcome]
  generalize outcome x ⟨trail ++ [name], found⟩ = ending at h ⊢
  cases h with
  | failed ht ha  => exact .failed ht ha
  | tooDeep ht hr => exact .tooDeep ht hr
  | @ok found' a ht ha =>
    have taken : outcome (do
        modify fun w => { w with trail := w.trail.dropLast }
        return a) ⟨trail ++ [name], found'⟩ = (.ok a, ⟨(trail ++ [name]).dropLast, found'⟩) :=
      rfl
    rw [List.dropLast_concat] at taken
    have h : Ends deep good trail found answer (.ok a, ⟨trail, found'⟩) := .ok ht ha
    rwa [← taken] at h

end Gives

-- A call for something gives what resolving it is said to give, if calls for references do.

section

variable {deep : Prop} {good : List String → Prop} {trail : List String}
variable {follow : Reference → Walking Resolved} {f : Follow}

theorem gives_slot {s : Slot} (hg : good trail)
    (hf : ∀ r, s.Mentions r.name → Gives deep good trail (follow r) (f r)) :
    Gives deep good trail (slot follow s) (s.resolveBy f) := by
  refine Gives.bind (f := fun _ => s.resolveBy f) (.look hg) fun _ _ => ?_
  cases s with
  | color c     => exact .pure
  | reference r =>
    have hs : (Slot.reference r).resolveBy f = (f r >>= fun
        | .plain c       => .ok c
        | .lightDark _ _ => .error (.pairInSlot r.name)) := by
      rw [Slot.resolveBy]
      rcases f r with _ | (_ | _) <;> rfl
    rw [hs]
    refine Gives.bind (hf r .reference) fun x _ => ?_
    cases x with
    | plain         => exact .pure
    | lightDark _ _ => exact .fail

theorem gives_pair {light dark : Slot} (hg : good trail)
    (hf : ∀ r, Value.Mentions (.lightDark light dark) r.name → Gives deep good trail (follow r) (f r)) :
    Gives deep good trail (pair follow light dark) (Value.resolveBy f (.lightDark light dark)) := by
  refine Gives.bind (f := fun _ => Value.resolveBy f (.lightDark light dark)) (.look hg) fun _ _ => ?_
  refine Gives.bind (gives_slot hg fun r hm => hf r <| .light hm) fun _ _ => ?_
  exact Gives.bind (gives_slot hg fun r hm => hf r <| .dark hm) fun _ _ => .pure

theorem gives_value {v : Value} (hg : good trail)
    (hf : ∀ r, v.Mentions r.name → Gives deep good trail (follow r) (f r)) :
    Gives deep good trail (value follow v) (v.resolveBy f) := by
  rcases v with (_ | r) | ⟨l, d⟩
  case plain.color     => exact .pure
  case plain.reference => exact hf r <| .plain .reference
  case lightDark       => exact gives_pair hg hf

end

end Walking

namespace Context

open Walking (Gives outcome)

variable {Γ : Context} {trail : List String} {name : String} {r : Reference} {depth : Nat}

variable (Γ) in
-- The names on a trail are distinct and declared, and each of them refers to the one behind it.
structure Proper (trail : List String) : Prop where
  distinct : trail.Nodup
  declared : ∀ name ∈ trail, ∃ v, Γ.value? name = some v
  linked   : trail.IsChain Γ.Refers

namespace Proper

theorem nil : Γ.Proper [] :=
  ⟨.nil, nofun, .nil⟩

theorem length_le (h : Γ.Proper trail) : trail.length ≤ Γ.size := by
  have hs : trail ⊆ Γ.declared.names := fun name hn => Table.mem_names.mpr (h.declared name hn)
  exact (h.distinct.subperm hs).length_le

-- A new name may go on a trail that leads to it, if it is declared.
theorem concat (h : Γ.Proper trail) (hl : Γ.Trail trail name) (hn : name ∉ trail)
    (hv : ∃ v, Γ.value? name = some v) : Γ.Proper (trail ++ [name]) where
  distinct := by simpa [List.nodup_append] using ⟨h.distinct, fun n hm he => hn <| he ▸ hm⟩
  declared := List.forall_mem_append.mpr ⟨h.declared, List.forall_mem_singleton.mpr hv⟩
  linked   := hl

end Proper

-- What follows a name that is seen, one that is not declared, and any other one.

theorem follow_of_seen (hs : r.name ∈ trail) :
    Γ.follow trail r = .error (.cycle (trail.dropWhile (· ≠ r.name) ++ [r.name])) :=
  follow_eq_error.mpr <| .inl ⟨hs, rfl⟩

theorem follow_of_undeclared (hs : r.name ∉ trail) (hv : Γ.value? r.name = none) :
    Γ.follow trail r = .error (.undefined r.name) :=
  follow_eq_error.mpr <| .inr <| .inl ⟨hs, hv, rfl⟩

theorem follow_of_declared {v : Value} (hs : r.name ∉ trail) (hv : Γ.value? r.name = some v) :
    Γ.follow trail r =
      (v.resolveBy (Γ.follow (trail ++ [r.name]))).map (Themed.map (·.fade r.opacity)) := by
  rw [follow, dif_neg hs]
  split
  case h_1 hv'    => cases hv.symm.trans hv'
  case h_2 v' hv' => cases hv.symm.trans hv'; rfl

-- By induction on the depth. A name that is declared and not on the trail goes on it, which leaves fewer
-- of them for what it mentions.
theorem gives_reference :
    Gives (depth ≤ (Γ.fresh trail).length)
      (fun t => Γ.Proper trail → Γ.Trail trail r.name → Γ.Proper t)
      trail (Walking.reference Γ depth r) (Γ.follow trail r) := by
  induction depth generalizing trail r
  case zero => exact fun _ => .tooDeep (fun _ => .inl) (Nat.zero_le _)
  case succ depth ih =>
    rw [Walking.reference]
    refine Gives.bind (f := fun _ => Γ.follow trail r) (.look fun hp _ => hp) fun _ he => ?_
    cases he
    by_cases hs : r.name ∈ trail
    case pos =>
      rw [if_pos hs, follow_of_seen hs]
      exact .fail
    case neg =>
      rw [if_neg hs]
      cases hv : Γ.value? r.name with
      | none   =>
        rw [follow_of_undeclared hs hv]
        exact .fail
      | some v =>
        have hd := fresh_length_lt hs hv
        have hx : Gives (depth + 1 ≤ (Γ.fresh trail).length)
            (fun t => Γ.Proper trail → Γ.Trail trail r.name → Γ.Proper t) (trail ++ [r.name])
            (Walking.value (Walking.reference Γ depth) v)
            (v.resolveBy (Γ.follow (trail ++ [r.name]))) := by
          refine Walking.gives_value (fun hp ht => hp.concat ht hs ⟨v, hv⟩) fun next hm => ?_
          refine ih.mono (fun h => by omega) fun t ht hp hl => ?_
          exact ht (hp.concat hl hs ⟨v, hv⟩) (hl.step ⟨v, hv, hm⟩)
        rw [follow_of_declared hs hv]
        exact .map <| .through hx

end Context

-- What calls can be for.
inductive Call where
  | reference (r : Reference)
  | pair (light dark : Slot)
  | slot (s : Slot)

namespace Call

variable (Γ : Context)

def walk (depth : Nat) : Call → Walking Resolved
  | .reference r     => .reference Γ depth r
  | .pair light dark => .pair (.reference Γ depth) light dark
  | .slot s          => do return .plain (← .slot (.reference Γ depth) s)

-- What resolving gives, which keeps no trail.
def answer : Call → Except ResolveError Resolved
  | .reference r     => Γ.resolveReference r
  | .pair light dark => Γ.resolve (.lightDark light dark)
  | .slot s          => (Γ.resolveSlot s).map .plain

def answerFrom (trail : List String) : Call → Except ResolveError Resolved
  | .reference r     => Γ.follow trail r
  | .pair light dark => Value.resolveBy (Γ.follow trail) (.lightDark light dark)
  | .slot s          => (s.resolveBy (Γ.follow trail)).map .plain

end Call

namespace Context

open Walking (Gives outcome)

variable {Γ : Context} {trail : List String} {depth : Nat} {call : Call} {x : Resolved}

theorem answer_of_answerFrom (h : call.answerFrom Γ trail = .ok x) : call.answer Γ = .ok x := by
  cases call with
  | reference r     => exact resolveReference_eq_ok.mpr <| follow_sound h
  | pair light dark => exact resolve_eq_ok.mpr <| valueYields_of_resolveBy (fun _ _ => follow_sound) h
  | slot s          =>
    simp only [Call.answerFrom, Call.answer] at h ⊢
    cases hs : s.resolveBy (Γ.follow trail) with
    | error => rw [hs] at h; cases h
    | ok    =>
      have hy : Γ.SlotYields s _ := slotYields_of_resolveBy (fun _ _ => follow_sound) hs
      rw [resolveSlot_eq_ok.mpr hy, ← h, hs]

theorem gives_call :
    Gives (depth ≤ (Γ.fresh trail).length) (fun t => trail = [] → Γ.Proper t) trail
      (call.walk Γ depth) (call.answerFrom Γ trail) := by
  have hr (r : Reference) : Gives (depth ≤ (Γ.fresh trail).length) (fun t => trail = [] → Γ.Proper t)
      trail (.reference Γ depth r) (Γ.follow trail r) :=
    gives_reference.mono id fun t ht he => by
      subst he
      exact ht .nil .nil
  have hg (he : trail = []) : Γ.Proper trail := he ▸ .nil
  cases call with
  | reference r     => exact hr r
  | pair light dark => exact Walking.gives_pair hg fun r _ => hr r
  | slot s          => exact .map <| Walking.gives_slot hg fun r _ => hr r

-- A walk that starts without a trail has enough of depth if it may go deeper than there are names.
theorem walk_of_size_lt (hd : Γ.size < depth) :
    ∃ walk, outcome (call.walk Γ depth) ⟨[], []⟩ = ((call.answer Γ).mapError .failed, walk) ∧
      ∀ trail ∈ walk.found, Γ.Proper trail := by
  have hs : (Γ.fresh []).length = Γ.size := by simp [fresh, size]
  have ha : call.answerFrom Γ [] = call.answer Γ := by cases call <;> rfl
  have h : Walking.Ends _ _ [] [] _ (outcome (call.walk Γ depth) _) := gives_call []
  generalize outcome (call.walk Γ depth) ⟨[], []⟩ = ending at h
  rw [ha, hs] at h
  cases h with
  | ok ht ha     =>
    rw [ha]
    exact ⟨_, rfl, fun t hm => (ht t hm).resolve_left List.not_mem_nil rfl⟩
  | failed ht ha =>
    rw [ha]
    exact ⟨_, rfl, fun t hm => (ht t hm).resolve_left List.not_mem_nil rfl⟩
  | tooDeep _ hn => exact absurd hn <| Nat.not_le.mpr hd

theorem walk_eq_ok {walk walk' : Walk} (h : outcome (call.walk Γ depth) walk = (.ok x, walk')) :
    walk'.trail = walk.trail ∧ call.answer Γ = .ok x := by
  have hg : Walking.Ends _ _ walk.trail walk.found _ (outcome (call.walk Γ depth) walk) :=
    gives_call walk.found
  rw [h] at hg
  cases hg with
  | ok _ ha => exact ⟨rfl, answer_of_answerFrom ha⟩

-- A walk that may go one deeper than there are names ends with what resolving gives. Whatever its calls
-- find on the trail are distinct declared names that lead to one another. Any call that ends with
-- colors leaves the trail as it was, and ends with the same colors if there is no trail.
theorem trail_invariant (Γ : Context) :
    (∀ (call : Call) depth, Γ.size < depth →
      ∃ walk, outcome (call.walk Γ depth) ⟨[], []⟩ = ((call.answer Γ).mapError .failed, walk) ∧
        ∀ trail ∈ walk.found, Γ.Proper trail ∧ trail.length ≤ Γ.size) ∧
    ∀ (call : Call) depth walk x walk', outcome (call.walk Γ depth) walk = (.ok x, walk') →
      walk'.trail = walk.trail ∧
      ∃ walk'', outcome (call.walk Γ (Γ.size + 1)) ⟨[], []⟩ = (.ok x, walk'') := by
  refine ⟨fun call depth hd => ?found, fun call depth walk x walk' h => ?kept⟩
  case found =>
    have ⟨walk, hw, hp⟩ := @walk_of_size_lt Γ depth call hd
    exact ⟨walk, hw, fun trail ht => ⟨hp trail ht, (hp trail ht).length_le⟩⟩
  case kept =>
    have ⟨ht, ha⟩ := walk_eq_ok h
    have ⟨walk'', hw, _⟩ := @walk_of_size_lt Γ _ call (Nat.lt_succ_self Γ.size)
    rw [ha] at hw
    exact ⟨ht, walk'', hw⟩

-- Both slots of a pair lead to the same name, and the walk begins behind some other one.
theorem trail_invariant_of_shared :
    let a : Slot := .reference ⟨"a", .one⟩
    let Γ : Context := ⟨.ofList [("a", .plain (.color default))]⟩
    let call := Call.pair a a
    (∃ walk, outcome (call.walk Γ 2) ⟨[], []⟩ = ((call.answer Γ).mapError .failed, walk) ∧
      ∀ trail ∈ walk.found, Γ.Proper trail ∧ trail.length ≤ Γ.size) ∧
    ∃ x walk' walk'', outcome (call.walk Γ 2) ⟨["way"], []⟩ = (.ok x, walk') ∧
      walk'.trail = ["way"] ∧ outcome (call.walk Γ 2) ⟨[], []⟩ = (.ok x, walk'') := by
  intro a Γ call
  have ⟨hf, hk⟩ := trail_invariant Γ
  have ⟨x, walk', hw⟩ : ∃ x walk', outcome (call.walk Γ 2) ⟨["way"], []⟩ = (.ok x, walk') :=
    ⟨_, _, rfl⟩
  have ⟨ht, walk'', hw'⟩ := hk call 2 _ x walk' hw
  exact ⟨hf call 2 (by decide), x, walk', walk'', hw, ht, hw'⟩

end Context

end Palette
