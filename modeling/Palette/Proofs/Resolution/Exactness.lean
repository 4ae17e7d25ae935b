import Palette.Proofs.Resolution.Following
import Palette.Proofs.Table

-- References, slots and values are resolved to exactly what they yield. A trail only ever cuts off
-- what goes on forever: where there is something to yield, no name comes back to itself.

namespace Palette.Context

open Relation (TransGen)

variable {Γ : Context} {f : Follow} {trail : List String} {name : String} {r : Reference}
variable {s : Slot} {v : Value} {c : Color} {x : Resolved}

-- Whatever references are resolved to, they yield.

theorem slotYields_of_resolveBy (hf : ∀ r x, f r = .ok x → Γ.ReferenceYields r x)
    (h : s.resolveBy f = .ok c) : Γ.SlotYields s c := by
  cases s
  case color =>
    rw [Slot.resolveBy_color] at h
    exact Except.ok.inj h ▸ .color
  case reference r => exact .reference <| hf r _ <| Slot.resolveBy_reference_eq_ok.mp h

theorem valueYields_of_resolveBy (hf : ∀ r x, f r = .ok x → Γ.ReferenceYields r x)
    (h : v.resolveBy f = .ok x) : Γ.ValueYields v x := by
  rcases v with (_ | r) | ⟨l, d⟩
  case plain.color =>
    rw [Value.resolveBy_color] at h
    exact Except.ok.inj h ▸ .color
  case plain.reference => exact .reference <| hf r x h
  case lightDark =>
    obtain ⟨a, b, ha, hb, rfl⟩ := Value.resolveBy_lightDark_eq_ok.mp h
    exact .lightDark (slotYields_of_resolveBy hf ha) (slotYields_of_resolveBy hf hb)

theorem follow_sound (h : Γ.follow trail r = .ok x) : Γ.ReferenceYields r x := by
  induction trail, r using follow.induct Γ generalizing x
  case case1 trail r hs => exact absurd hs (follow_eq_ok.mp h).left
  case case2 trail r hs hv =>
    obtain ⟨_, v, _, hv', _⟩ := follow_eq_ok.mp h
    simp [hv] at hv'
  case case3 trail r hs v hv ih =>
    obtain ⟨_, v', y, hv', hy, rfl⟩ := follow_eq_ok.mp h
    exact .intro hv' <| valueYields_of_resolveBy (fun r _ => ih r) hy

-- What yields something refers to names that do as well, so that this comes to an end.

theorem acc_of_mentions (hv : Γ.value? name = some v)
    (h : ∀ n, v.Mentions n → Acc (Function.swap Γ.Refers) n) :
    Acc (Function.swap Γ.Refers) name := by
  refine ⟨name, fun n ⟨v', hv', hn⟩ => ?_⟩
  exact h n <| Option.some.inj (hv.symm.trans hv') ▸ hn

mutual

theorem ReferenceYields.acc {r : Reference} {x : Resolved} (h : Γ.ReferenceYields r x) :
    Acc (Function.swap Γ.Refers) r.name := by
  match h with
  | .intro hv hy => exact acc_of_mentions hv hy.acc

theorem SlotYields.acc {s : Slot} {c : Color} (h : Γ.SlotYields s c) (n : String)
    (hn : s.Mentions n) : Acc (Function.swap Γ.Refers) n := by
  match h, hn with
  | .reference hr, .reference => exact hr.acc

theorem ValueYields.acc {v : Value} {x : Resolved} (h : Γ.ValueYields v x) (n : String)
    (hn : v.Mentions n) : Acc (Function.swap Γ.Refers) n := by
  match h, hn with
  | .reference hr, .plain .reference => exact hr.acc
  | .lightDark hl _, .light hn       => exact hl.acc n hn
  | .lightDark _ hd, .dark hn        => exact hd.acc n hn

end

theorem not_returns (h : Acc (Function.swap Γ.Refers) name) : ¬TransGen Γ.Refers name name := by
  induction h
  case intro name _ ih =>
    intro ht
    have ⟨next, hn, hr⟩ := Relation.TransGen.head'_iff.mp ht
    exact ih next hn <| .tail' hr hn

-- Whatever references yield, they are resolved to, whichever trail led to them.

mutual

theorem ReferenceYields.follow {r : Reference} {x : Resolved} {trail : List String}
    (h : Γ.ReferenceYields r x) (ht : Γ.Trail trail r.name) : Γ.follow trail r = .ok x := by
  have hs : r.name ∉ trail := fun hs => not_returns h.acc <| ht.leads hs
  match h with
  | .intro hv hy =>
    have hy := hy.resolveBy fun n hn => ht.step ⟨_, hv, hn⟩
    exact follow_eq_ok.mpr ⟨hs, _, _, hv, hy, rfl⟩

theorem SlotYields.resolveBy {s : Slot} {c : Color} {trail : List String} (h : Γ.SlotYields s c)
    (ht : ∀ n, s.Mentions n → Γ.Trail trail n) : s.resolveBy (Γ.follow trail) = .ok c := by
  match h with
  | .color        => rfl
  | .reference hr => exact Slot.resolveBy_reference_eq_ok.mpr <| hr.follow <| ht _ .reference

theorem ValueYields.resolveBy {v : Value} {x : Resolved} {trail : List String}
    (h : Γ.ValueYields v x) (ht : ∀ n, v.Mentions n → Γ.Trail trail n) :
    v.resolveBy (Γ.follow trail) = .ok x := by
  match h with
  | .color           => rfl
  | .reference hr    => exact hr.follow <| ht _ <| .plain .reference
  | .lightDark hl hd =>
    exact Value.resolveBy_lightDark_eq_ok.mpr ⟨_, _, hl.resolveBy fun n hn => ht n <| .light hn,
      hd.resolveBy fun n hn => ht n <| .dark hn, rfl⟩

end

theorem resolveReference_eq_ok : Γ.resolveReference r = .ok x ↔ Γ.ReferenceYields r x :=
  ⟨follow_sound, fun h => h.follow .nil⟩

theorem resolveSlot_eq_ok : Γ.resolveSlot s = .ok c ↔ Γ.SlotYields s c :=
  ⟨slotYields_of_resolveBy fun _ _ => follow_sound, fun h => h.resolveBy fun _ _ => .nil⟩

theorem resolve_eq_ok : Γ.resolve v = .ok x ↔ Γ.ValueYields v x :=
  ⟨valueYields_of_resolveBy fun _ _ => follow_sound, fun h => h.resolveBy fun _ _ => .nil⟩

-- A chain multiplies alpha by its opacities one after the other, as following it step by step does.

theorem map_fadeAll_singleton {x : Themed Color} {o : Binary32} :
    x.map (Color.fade · o) = x.map (Color.fadeAll · [o]) := by
  simp only [Color.fade, Color.fadeAll, List.foldl_cons, List.foldl_nil]

theorem map_fadeAll_append {x : Themed Color} {opacities : List Binary32} {o : Binary32} :
    Themed.map (Color.fade · o) (x.map (Color.fadeAll · opacities)) =
      x.map (Color.fadeAll · (opacities ++ [o])) := by
  cases x <;> simp [Themed.map, Color.fadeAll, Color.fade]

theorem ReferenceYields.chain {r : Reference} {x : Resolved} (h : Γ.ReferenceYields r x) :
    ∃ opacities v y, Γ.Chain r opacities v ∧ Γ.ValueYields v y ∧ x = y.map (·.fadeAll opacities) := by
  match h with
  | .intro (v := v) (x := y) hv hy =>
    match v, hy with
    | .plain (.color _), hy => exact ⟨_, _, _, .last hv nofun, hy, map_fadeAll_singleton⟩
    | .lightDark _ _, hy    => exact ⟨_, _, _, .last hv nofun, hy, map_fadeAll_singleton⟩
    | .plain (.reference _), .reference hr =>
      obtain ⟨opacities, v, z, hc, hz, rfl⟩ := hr.chain
      exact ⟨_, v, z, .next hv hc, hz, map_fadeAll_append⟩

theorem Chain.referenceYields {opacities : List Binary32} (h : Γ.Chain r opacities v)
    (hx : Γ.ValueYields v x) : Γ.ReferenceYields r (x.map (·.fadeAll opacities)) := by
  induction h
  case last hv _    => exact map_fadeAll_singleton ▸ .intro hv hx
  case next hv _ ih => exact map_fadeAll_append ▸ .intro hv (.reference <| ih hx)

-- What is reported as a cycle is one.

theorem follow_cycle {path : List String} (h : Γ.follow trail r = .error (.cycle path))
    (ht : Γ.Trail trail r.name) : Γ.Cyclic path := by
  induction trail, r using follow.induct Γ
  case case1 trail r hs =>
    obtain ⟨_, hp⟩ | ⟨hn, _⟩ | ⟨hn, _⟩ := follow_eq_error.mp h
    case inl =>
      obtain ⟨rest, hr, hc⟩ := ht.cycle hs
      cases hp
      exact ⟨by simp, fun n hn => hc.returns <| hr ▸ hn⟩
    all_goals contradiction
  case case2 trail r hs hv =>
    simp [follow_eq_error, hs, hv] at h
  case case3 trail r hs v hv ih =>
    obtain ⟨hn, _⟩ | ⟨_, hn, _⟩ | ⟨_, v', hv', h⟩ := follow_eq_error.mp h
    · contradiction
    · simp [hv] at hn
    · have ⟨next, hm, he⟩ := Value.error_of_resolveBy h
      have he : Γ.follow (trail ++ [r.name]) next = .error (.cycle path) := by simpa using he
      exact ih next he <| ht.step ⟨v', hv', hm⟩

theorem resolve_cycle {path : List String} (h : Γ.resolve v = .error (.cycle path)) :
    Γ.Cyclic path := by
  have ⟨r, _, hr⟩ := Value.error_of_resolveBy h
  exact follow_cycle (by simpa using hr) .nil

theorem resolveSlot_cycle {path : List String} (h : Γ.resolveSlot s = .error (.cycle path)) :
    Γ.Cyclic path := by
  have ⟨r, _, hr⟩ := Slot.resolveBy_eq_error.mp h
  exact follow_cycle (by simpa using hr) .nil

-- Resolving gives what is yielded and nothing else, for contexts of any shape. Alpha comes from the
-- end of a chain and is multiplied by its opacities from there on, and only names that do lead back
-- to themselves are reported as a cycle.
theorem resolution_exact (Γ : Context) :
    (∀ r x, Γ.resolveReference r = .ok x ↔ Γ.ReferenceYields r x) ∧
    (∀ s c, Γ.resolveSlot s = .ok c ↔ Γ.SlotYields s c) ∧
    (∀ v x, Γ.resolve v = .ok x ↔ Γ.ValueYields v x) ∧
    (∀ r x, Γ.resolveReference r = .ok x ↔
      ∃ opacities v y, Γ.Chain r opacities v ∧ Γ.resolve v = .ok y ∧
        x = y.map (·.fadeAll opacities)) ∧
    (∀ v path, Γ.resolve v = .error (.cycle path) → Γ.Cyclic path) ∧
    (∀ s path, Γ.resolveSlot s = .error (.cycle path) → Γ.Cyclic path) := by
  refine ⟨fun _ _ => resolveReference_eq_ok, fun _ _ => resolveSlot_eq_ok,
    fun _ _ => resolve_eq_ok, fun r x => ?chain, fun _ _ => resolve_cycle,
    fun _ _ => resolveSlot_cycle⟩
  case chain =>
    simp only [resolveReference_eq_ok, resolve_eq_ok]
    constructor
    case mp => exact ReferenceYields.chain
    case mpr =>
      rintro ⟨opacities, v, y, hc, hy, rfl⟩
      exact hc.referenceYields hy

-- A name that is mentioned twice is no cycle, one that refers to itself is.
theorem resolution_of_self_reference :
    let a : Slot := .reference ⟨"a", .one⟩
    let b : Slot := .reference ⟨"b", .one⟩
    let Γ : Context := ⟨.ofList [("a", .plain a), ("b", .plain (.color default))]⟩
    (∃ x, Γ.resolve (.lightDark b b) = .ok x) ∧
    Γ.resolve (.plain a) = .error (.cycle ["a", "a"]) ∧ Γ.Cyclic ["a", "a"] := by
  intro a b Γ
  have ⟨_, _, hv, _, hc, _⟩ := resolution_exact Γ
  have again : Γ.follow ["a"] ⟨"a", .one⟩ = .error (.cycle ["a", "a"]) :=
    follow_eq_error.mpr <| .inl ⟨List.mem_cons_self, rfl⟩
  have ha : Γ.resolve (.plain a) = .error (.cycle ["a", "a"]) :=
    follow_eq_error.mpr <| .inr <| .inr ⟨List.not_mem_nil, _, Table.find?_ofList, again⟩
  have hd : Γ.value? "b" = some (.plain (.color default)) := Table.find?_ofList
  have hb : Γ.SlotYields b _ := .reference <| .intro hd .color
  exact ⟨⟨_, (hv _ _).mpr <| .lightDark hb hb⟩, ha, hc _ _ ha⟩

end Palette.Context
