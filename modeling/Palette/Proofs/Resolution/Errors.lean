import Palette.Proofs.Resolution.Exactness

-- Errors of resolving are witnesses: what is told in them holds of the names that were asked for.

namespace Palette.Context

variable (Γ : Context)

-- The name is one of those that are mentioned, or one of these leads on to it.
def Reaches (mentioned : String → Prop) (name : String) : Prop :=
  ∃ first, mentioned first ∧ Relation.ReflTransGen Γ.Refers first name

-- By itself the name stands for a pair of colors.
def IsPair (name : String) : Prop :=
  ∃ light dark, Γ.resolveReference ⟨name, .one⟩ = .ok (.lightDark light dark)

-- What is so if there is an error with something that mentions some names, of which some are in slots
-- of its own. The names of a cycle are told up to where it closes.
inductive Accounts (mentioned slotted : String → Prop) : ResolveError → Prop
  | cycle : (name :: path).Nodup → (∀ n ∈ name :: path, ∃ v, Γ.value? n = some v) →
    (name :: path ++ [name]).IsChain Γ.Refers → Γ.Reaches mentioned name →
    Accounts mentioned slotted (.cycle (name :: path ++ [name]))
  | undefined : Γ.value? name = none → Γ.Reaches mentioned name →
    Accounts mentioned slotted (.undefined name)
  | ownPair : slotted name → Γ.IsPair name → Accounts mentioned slotted (.pairInSlot name)
  | innerPair : Γ.Reaches mentioned other → Γ.value? other = some v → v.InSlot name →
    Γ.IsPair name → Accounts mentioned slotted (.pairInSlot name)

variable {Γ} {trail : List String} {name other : String} {r : Reference} {e : ResolveError}
variable {s : Slot} {v : Value} {x : Resolved} {mentioned slotted : String → Prop}

namespace Reaches

theorem of_mentioned (h : mentioned name) : Γ.Reaches mentioned name :=
  ⟨name, h, .refl⟩

theorem step (h : Γ.Reaches mentioned name) (hr : Γ.Refers name other) :
    Γ.Reaches mentioned other :=
  have ⟨first, hf, hl⟩ := h
  ⟨first, hf, hl.tail hr⟩

end Reaches

-- All names of a chain but the last one are declared.
theorem declared_of_isChain {names : List String} (h : (names ++ [name]).IsChain Γ.Refers) :
    ∀ n ∈ names, ∃ v, Γ.value? n = some v := by
  induction names
  case nil => exact nofun
  case cons first rest ih =>
    refine List.forall_mem_cons.mpr ⟨?_, ih h.tail⟩
    cases rest <;> exact
      have ⟨v, hv, _⟩ := (List.isChain_cons_cons.mp h).left
      ⟨v, hv⟩

-- The opacity of a reference only fades what its name stands for.
theorem ReferenceYields.of_name (h : Γ.ReferenceYields r x) :
    ∃ y : Resolved, x = y.map (·.fade r.opacity) ∧
      ∀ o, Γ.resolveReference ⟨r.name, o⟩ = .ok (y.map (·.fade o)) := by
  cases h with
  | intro hv hy => exact ⟨_, rfl, fun _ => resolveReference_eq_ok.mpr <| .intro hv hy⟩

theorem ReferenceYields.isPair {light dark : Color}
    (h : Γ.ReferenceYields r (.lightDark light dark)) : Γ.IsPair r.name := by
  obtain ⟨y, hx, hy⟩ := h.of_name
  cases y with
  | plain _       => cases hx
  | lightDark _ _ => exact ⟨_, _, hy .one⟩

-- By induction on the walk. Everything on the trail is reached, and so is the name that is next.
theorem follow_accounts (h : Γ.follow trail r = .error e) (ht : Γ.Trail trail r.name)
    (hd : trail.Nodup) (hr : ∀ n ∈ trail ++ [r.name], Γ.Reaches mentioned n) :
    Γ.Accounts mentioned slotted e := by
  induction trail, r using follow.induct Γ
  case case1 trail r hs =>
    obtain ⟨_, rfl⟩ | ⟨hn, _⟩ | ⟨hn, _⟩ := follow_eq_error.mp h
    case inl =>
      obtain ⟨path, hp, hc⟩ := ht.cycle hs
      have hn : (r.name :: path).Nodup := hp ▸ hd.sublist (List.dropWhile_sublist _)
      rw [hp]
      exact .cycle hn (declared_of_isChain hc) hc <| hr _ <| List.mem_concat_self ..
    all_goals contradiction
  case case2 trail r hs hv =>
    obtain ⟨hn, _⟩ | ⟨_, _, rfl⟩ | ⟨_, _, hv', _⟩ := follow_eq_error.mp h
    · contradiction
    · exact .undefined hv <| hr _ <| List.mem_concat_self ..
    · cases hv.symm.trans hv'
  case case3 trail r hs v hv ih =>
    obtain ⟨hn, _⟩ | ⟨_, hn, _⟩ | ⟨_, v', hv', h⟩ := follow_eq_error.mp h
    · contradiction
    · cases hv.symm.trans hn
    · have hr' := hr r.name <| List.mem_concat_self ..
      rcases Value.cases_of_resolveBy_eq_error h with ⟨next, hm, he⟩ | ⟨next, l, d, hi, hf, rfl⟩
      · have hn : Γ.Refers r.name next.name := ⟨v', hv', hm⟩
        refine ih next he (ht.step hn) ?_ fun n hm => ?_
        · refine List.nodup_append.mpr ⟨hd, List.pairwise_singleton .., fun n hn _ hm he => ?_⟩
          exact hs <| List.mem_singleton.mp hm ▸ he ▸ hn
        · rcases List.mem_append.mp hm with hm | hm
          · exact hr n hm
          · exact List.mem_singleton.mp hm ▸ hr'.step hn
      · exact .innerPair hr' hv' hi (follow_sound hf).isPair

theorem follow_nil_accounts (h : Γ.follow [] r = .error e) (hm : mentioned r.name) :
    Γ.Accounts mentioned slotted e :=
  follow_accounts h .nil .nil fun _ hn => List.mem_singleton.mp hn ▸ .of_mentioned hm

theorem resolveSlot_accounts (h : Γ.resolveSlot s = .error e) :
    Γ.Accounts s.Mentions s.Mentions e := by
  obtain ⟨r, rfl, hr | ⟨l, d, hr, rfl⟩⟩ := Slot.resolveBy_eq_error.mp h
  · exact follow_nil_accounts hr .reference
  · exact .ownPair .reference (follow_sound hr).isPair

theorem resolve_accounts (h : Γ.resolve v = .error e) : Γ.Accounts v.Mentions v.InSlot e := by
  rcases Value.cases_of_resolveBy_eq_error h with ⟨r, hm, hr⟩ | ⟨r, l, d, hs, hr, rfl⟩
  · exact follow_nil_accounts hr hm
  · exact .ownPair hs (follow_sound hr).isPair

-- A reference has no slots of its own, and a slot that is asked for by itself is one of its own.
theorem errors_account (Γ : Context) :
    (∀ r e, Γ.resolveReference r = .error e → Γ.Accounts (· = r.name) (fun _ => False) e) ∧
    (∀ s e, Γ.resolveSlot s = .error e → Γ.Accounts s.Mentions s.Mentions e) ∧
    (∀ v e, Γ.resolve v = .error e → Γ.Accounts v.Mentions v.InSlot e) :=
  ⟨fun _ _ h => follow_nil_accounts h rfl, fun _ _ => resolveSlot_accounts,
    fun _ _ => resolve_accounts⟩

-- The way into a cycle is left out of it, wherever the way begins.
theorem errors_account_of_lasso :
    let way : Reference := ⟨"way", .one⟩
    let Γ : Context := ⟨.ofList [("a", .plain (.reference ⟨"b", .one⟩)),
      ("b", .plain (.reference ⟨"a", .one⟩)), ("way", .plain (.reference ⟨"a", .one⟩))]⟩
    let e : ResolveError := .cycle ["a", "b", "a"]
    (Γ.resolveReference way = .error e ∧ Γ.Accounts (· = "way") (fun _ => False) e) ∧
    (Γ.resolveSlot (.reference way) = .error e ∧
      Γ.Accounts (Slot.reference way).Mentions (Slot.reference way).Mentions e) ∧
    Γ.resolve (.plain (.reference way)) = .error e ∧
      Γ.Accounts (Value.Mentions (.plain (.reference way))) (Value.InSlot (.plain (.reference way))) e := by
  intro way Γ e
  have ⟨hr, hs, hv⟩ := errors_account Γ
  have step {trail name next} (ht : name ∉ trail)
      (hv : Γ.value? name = some (.plain (.reference next)))
      (h : Γ.follow (trail ++ [name]) next = .error e) : Γ.follow trail ⟨name, .one⟩ = .error e :=
    follow_eq_error.mpr <| .inr <| .inr ⟨ht, _, hv, h⟩
  have back : Γ.follow ["way", "a", "b"] ⟨"a", .one⟩ = .error e :=
    follow_eq_error.mpr <| .inl ⟨by decide, rfl⟩
  have h : Γ.follow [] way = .error e :=
    step (by decide) Table.find?_ofList <| step (by decide) Table.find?_ofList <|
      step (by decide) Table.find?_ofList back
  have h' : Γ.resolveSlot (.reference way) = .error e := by simp [resolveSlot, Slot.resolveBy, h]
  exact ⟨⟨h, hr _ _ h⟩, ⟨h', hs _ _ h'⟩, h, hv _ _ h⟩

-- A slot may ask for a pair although there is no pair with such a slot.
theorem pairInSlot_without_pair :
    let s : Slot := .reference ⟨"set", .one⟩
    let Γ : Context :=
      ⟨.ofList [("set", .lightDark (.color ⟨0, 0, 0, .one⟩) (.color ⟨255, 255, 255, .one⟩))]⟩
    Γ.resolveSlot s = .error (.pairInSlot "set") ∧
    ¬∃ other v, Γ.value? other = some v ∧ v.InSlot "set" := by
  intro s Γ
  refine ⟨?error, ?noPair⟩
  case error =>
    have h : Γ.follow [] ⟨"set", .one⟩ = .ok _ :=
      follow_eq_ok.mpr ⟨List.not_mem_nil, _, _, Table.find?_ofList, rfl, rfl⟩
    exact Slot.resolveBy_eq_error.mpr ⟨_, rfl, .inr ⟨_, _, h, rfl⟩⟩
  case noPair =>
    rintro ⟨other, v, hv, hs⟩
    simp only [Γ, value?, Table.find?_ofList, List.filter_cons] at hv
    split at hv
    case isFalse => cases hv
    case isTrue  => cases hv; cases hs with | light h | dark h => cases h

end Palette.Context
