import ScriptTyping.Proofs.Table.Agreement
import ScriptTyping.Substitution

/-!
# One step of a traversal

One step of a traversal looks at one layer: a type variable and an unbound `this` are replaced, and
every other layer is rebuilt from its traversed parts, without the open type parameters that are
replaced.  What holds of all rebuilt layers holds of the traversal by induction on its room, with
the two replacements as the only other cases.

## Main definitions

* `TypeData.rebuild` — a layer with new parts and fewer open type parameters.
* `Traversal.visit` — one step of a traversal, given the layer.

## Main results

* `Traversal.apply_succ`, `Traversal.visit_cases` — the steps of a traversal.
* `TypeData.stable_rebuild`, `TypeData.total_rebuild`, `TypeData.agrees_rebuild`,
  `RunLogic.rebuild` — what rebuilding a layer does if its parts do so.
-/

namespace ScriptTyping

namespace TypeData

/-- The open type parameters of a layer. -/
def opens : TypeData → List DeclId
  | function signature => signature.typeParams
  | _ => []

/-- The layer with new parts, and with those open type parameters that pass a test. -/
def rebuild (f : TypeId → TypeM TypeId) (keep : DeclId → Bool) : TypeData → TypeM TypeData
  | nominal decl args => return nominal decl (← args.mapM f)
  | structural members => do
    let members ← members.mapM fun member => return { member with type := ← f member.type }
    return structural members
  | union members => return union (← members.mapM f)
  | intersection members => return intersection (← members.mapM f)
  | function signature => do
    let params ← signature.params.mapM fun param => return { param with type := ← f param.type }
    let returnType ← f signature.returnType
    let thisType ← signature.thisType.mapM f
    return function { signature with
      params, returnType, thisType, typeParams := signature.typeParams.filter keep }
  | thisType (some bound) => return thisType (some (← f bound))
  | wildcard (some bound) kind => return wildcard (some (← f bound)) kind
  | metaType arg isConstructor => return metaType (← f arg) isConstructor
  | data => pure data

/-- The layer with the same parts is the layer. -/
theorem rebuild_pure (data : TypeData) : data.rebuild pure (fun _ => true) = pure data := by
  have hlist (ts : List TypeId) : ts.mapM (pure : TypeId → TypeM TypeId) = pure ts := by
    simpa using List.mapM_pure (m := TypeM) (l := ts) (f := id)
  cases data with
  | function signature =>
    obtain ⟨typeParams, params, returnType, thisType, decl⟩ := signature
    cases thisType <;> simp [rebuild]
  | thisType bound => cases bound <;> simp [rebuild]
  | wildcard bound kind => cases bound <;> simp [rebuild]
  | nominal decl args => simp [rebuild, hlist]
  | union members => simp [rebuild, hlist]
  | intersection members => simp [rebuild, hlist]
  | _ => simp [rebuild]

end TypeData

namespace Traversal

/-- What a traversal does with a type, given its layer. -/
def visit (r : Traversal) (room : Nat) (t : TypeId) : TypeData → TypeM TypeId
  | .typeVariable decl =>
    match r.resolve decl with
    | some replacement =>
      if replacement = t then pure t
      else if r.chained then r.apply room replacement else pure replacement
    | none => pure t
  | .thisType none =>
    match r.thisType with
    | some receiver => bindThis receiver
    | none => pure t
  | data => do
    let data' ← data.rebuild (r.apply room) fun param => (r.resolve param).isNone
    if data' = data then return t else TypeM.intern data'

/-- One step of a traversal. -/
theorem apply_succ (r : Traversal) (room : Nat) (t : TypeId) :
    r.apply (room + 1) t =
      if t.isIntrinsic then pure t else TypeM.lookup t >>= r.visit room t := by
  rw [apply]
  refine if_congr Iff.rfl rfl (bind_congr fun data => ?_)
  cases data with
  | typeVariable decl => cases hresolve : r.resolve decl <;> simp only [visit, hresolve]
  | thisType bound =>
    cases bound with
    | none => rfl
    | some bound => simp [visit, TypeData.rebuild, TypeM.thisType]
  | wildcard bound kind =>
    cases bound with
    | none => simp [visit, TypeData.rebuild]
    | some bound => simp [visit, TypeData.rebuild, TypeM.wildcard]
  | nominal decl args => simp [visit, TypeData.rebuild, TypeM.nominal]
  | union members => simp [visit, TypeData.rebuild, TypeM.union]
  | intersection members => simp [visit, TypeData.rebuild, TypeM.intersection]
  | structural members => simp [visit, TypeData.rebuild, TypeM.structural]
  | function signature => simp [visit, TypeData.rebuild, TypeM.function]
  | _ => simp [visit, TypeData.rebuild]

variable {r : Traversal} {room : Nat} {t : TypeId}

/-- A traversal of any other layer rebuilds it and returns the handle of the outcome. -/
theorem visit_of_not_site {data : TypeData} (hvariable : ∀ d, data ≠ .typeVariable d)
    (hthis : data ≠ .thisType none) : r.visit room t data = (do
      let data' ← data.rebuild (r.apply room) fun param => (r.resolve param).isNone
      if data' = data then return t else TypeM.intern data') := by
  cases data with
  | typeVariable d => exact absurd rfl (hvariable d)
  | thisType bound =>
    cases bound with
    | none => exact absurd rfl hthis
    | some bound => rfl
  | _ => rfl

/-- All traversals replace the same layers and rebuild all others. -/
theorem visit_cases (data : TypeData) :
    (∃ d, data = .typeVariable d) ∨ data = .thisType none ∨
      ∀ (r : Traversal) (room : Nat) (t : TypeId), r.visit room t data = (do
        let data' ← data.rebuild (r.apply room) fun param => (r.resolve param).isNone
        if data' = data then return t else TypeM.intern data') := by
  by_cases hvariable : ∃ d, data = .typeVariable d
  · exact .inl hvariable
  by_cases hthis : data = .thisType none
  · exact .inr (.inl hthis)
  · exact .inr (.inr fun _ _ _ => visit_of_not_site (fun d hd => hvariable ⟨d, hd⟩) hthis)

end Traversal

/-! ### Rebuilt layers -/

namespace TypeData

open TypeM

variable {f : TypeId → TypeM TypeId} {keep : DeclId → Bool}

/-- A layer that is rebuilt from types of the table consists of types of the table. -/
theorem stable_rebuild {T : TypeTable} (hT : T.WellFormed) (data : TypeData)
    (hparts : ∀ s ∈ data.parts, ∀ T', T.GrowsTo T' → Stable (f s) T' TypeTable.Has) :
    Stable (data.rebuild f keep) T fun T' data' => T'.HasAll data'.parts := by
  have hlist {ts : List TypeId} (hts : ∀ s ∈ ts, s ∈ data.parts) :
      Stable (ts.mapM f) T TypeTable.HasAll :=
    .mapM (W := TypeTable.Has) (fun _ _ _ => TypeTable.Has.of_le) ts hT
      fun s hs => hparts s (hts s hs)
  have hsingle {s : TypeId} (hs : s ∈ data.parts) : Stable (f s) T fun T' s' => T'.HasAll [s'] :=
    (hparts s hs T (.refl hT)).mono fun _ _ _ => TypeTable.Has.hasAll
  cases data with
  | nominal decl args | union members | intersection members =>
    exact (hlist fun _ hs => hs).bind fun _ _ hg h => .pure hg.wellFormed h
  | structural members =>
    refine (Stable.mapM (W := fun T (member : Property) => T.Has member.type)
      (fun _ _ _ => TypeTable.Has.of_le) members hT fun member hmember T' hg =>
        (hparts _ (List.mem_map_of_mem hmember) T' hg).bind
          fun _ _ hg' ht => .pure hg'.wellFormed ht).bind fun members' T₁ hg h => ?_
    refine .pure hg.wellFormed fun s hs => ?_
    obtain ⟨member, hmember, rfl⟩ := List.mem_map.mp hs
    exact h member hmember
  | function signature =>
    refine (Stable.mapM (W := fun T (param : Parameter) => T.Has param.type)
      (fun _ _ _ => TypeTable.Has.of_le) signature.params hT fun param hparam T' hg =>
        (hparts _ (List.mem_append_left _ (List.mem_map_of_mem hparam)) T' hg).bind
          fun _ _ hg' ht => .pure hg'.wellFormed ht).bind fun params T₁ hg₁ hparams => ?_
    refine (hparts _ (List.mem_append_right _ (List.mem_cons_self ..)) T₁ hg₁).bind
      fun returnType T₂ hg₂ hreturn => ?_
    have hthis : Stable (signature.thisType.mapM f) T₂
        fun T' receiver => ∀ s, receiver = some s → T'.Has s := by
      cases hreceiver : signature.thisType with
      | none => exact .pure hg₂.wellFormed fun _ h => by cases h
      | some s =>
        have hs : s ∈ (function signature).parts :=
          List.mem_append_right _ (List.mem_cons_of_mem _ (by simp [hreceiver]))
        refine (hparts s hs T₂ (hg₁.trans hg₂)).map fun T' a _ ha b hb => ?_
        obtain rfl := Option.some.inj hb
        exact ha
    refine hthis.bind fun thisType T₃ hg₃ hreceiver => .pure hg₃.wellFormed fun s hs => ?_
    rcases List.mem_append.mp hs with hs | hs
    · obtain ⟨param, hparam, rfl⟩ := List.mem_map.mp hs
      exact (hparams param hparam).of_le (hg₂.trans hg₃).le
    · rcases List.mem_cons.mp hs with rfl | hs
      · exact hreturn.of_le hg₃.le
      · exact hreceiver s (by simpa using hs)
  | thisType bound | wildcard bound kind =>
    cases bound with
    | none => exact .pure hT TypeTable.hasAll_nil
    | some bound =>
      exact (hsingle (List.mem_singleton_self _)).bind fun _ _ hg h => .pure hg.wellFormed h
  | metaType arg isConstructor =>
    exact (hsingle (List.mem_singleton_self _)).bind fun _ _ hg h => .pure hg.wellFormed h
  | _ => exact .pure hT TypeTable.hasAll_nil

theorem total_rebuild (hf : ∀ s, Total (f s)) (data : TypeData) : Total (data.rebuild f keep) := by
  cases data with
  | nominal decl args | union members | intersection members =>
    exact (Total.mapM hf _).bind fun _ => .pure _
  | structural members =>
    exact (Total.mapM (fun _ => (hf _).bind fun _ => .pure _) members).bind fun _ => .pure _
  | function signature =>
    refine (Total.mapM (fun _ => (hf _).bind fun _ => .pure _) signature.params).bind
      fun params => (hf signature.returnType).bind fun returnType => ?_
    have hthis : Total (signature.thisType.mapM f) := by
      cases signature.thisType with
      | none => exact .pure none
      | some s => exact (hf s).map some
    exact hthis.bind fun thisType => .pure _
  | thisType bound | wildcard bound kind =>
    cases bound with
    | none => exact .pure _
    | some bound => exact (hf bound).bind fun _ => .pure _
  | metaType arg isConstructor => exact (hf arg).bind fun _ => .pure _
  | _ => exact .pure _

section Agreement

variable {v : Veil} {members members' : List Property}

/-- Replacing inside the members of a shape keeps the declarations behind them. -/
private theorem hides_members (hdecl : members'.map (·.decl) = members.map (·.decl))
    (hmembers : (structural members).Hides v) : (structural members').Hides v := by
  intro member hmember d hd
  have hmem : some d ∈ members.map (·.decl) := hdecl ▸ List.mem_map.mpr ⟨member, hmember, hd⟩
  obtain ⟨original, horiginal, hd'⟩ := List.mem_map.mp hmem
  exact hmembers original horiginal d hd'

/-- Replacing inside the types of members. -/
private theorem agrees_members (hf : ∀ t, Agrees v (f t) (f t) Eq) (members : List Property) :
    Agrees v (members.mapM fun member => return { member with type := ← f member.type })
      (members.mapM fun member => return { member with type := ← f member.type })
      fun a b => a = b ∧ a.map (·.decl) = members.map (·.decl) := by
  induction members with
  | nil =>
    rw [List.mapM_nil]
    exact .pure ⟨rfl, rfl⟩
  | cons member members ih =>
    rw [List.mapM_cons]
    refine Agrees.bind ((hf member.type).bind (W := fun a b => a = b ∧ a.decl = member.decl)
      fun t _ ht => .pure ⟨by rw [ht], rfl⟩) ?_
    rintro changed _ ⟨rfl, hchanged⟩
    refine ih.bind ?_
    rintro rest _ ⟨rfl, hrest⟩
    exact .pure ⟨rfl, by rw [List.map_cons, List.map_cons, hchanged, hrest]⟩

/-- A layer that mentions nothing hidden does not when it is rebuilt. -/
theorem agrees_rebuild {data : TypeData} (hdata : data.Hides v)
    (hf : ∀ t, Agrees v (f t) (f t) Eq) :
    Agrees v (data.rebuild f keep) (data.rebuild f keep)
      fun data' data'' => data' = data'' ∧ data'.Hides v := by
  have hlist (ts : List TypeId) : Agrees v (ts.mapM f) (ts.mapM f) Eq :=
    (agreement v).mapMEq ts fun s _ => hf s
  cases data with
  | nominal decl args => exact (hlist args).bindEq fun args' => .pure ⟨rfl, trivial⟩
  | union members | intersection members =>
    exact (hlist members).bindEq fun members' => .pure ⟨rfl, trivial⟩
  | structural members =>
    refine (agrees_members hf members).bind ?_
    rintro members' _ ⟨rfl, hdecl⟩
    exact .pure ⟨rfl, hides_members hdecl hdata⟩
  | function signature =>
    refine Agrees.bindEq ((agreement v).mapMEq _ fun param _ =>
      (hf param.type).bindEq fun type => agrees_same _) fun params => ?_
    refine (hf signature.returnType).bindEq fun returnType => ?_
    have hthis : Agrees v (signature.thisType.mapM f) (signature.thisType.mapM f) Eq := by
      cases signature.thisType with
      | none => exact agrees_same none
      | some receiver => exact (hf receiver).mapEq some
    exact hthis.bindEq fun thisType =>
      .pure ⟨rfl, fun param hparam => hdata param (List.mem_of_mem_filter hparam)⟩
  | thisType bound | wildcard bound kind =>
    cases bound with
    | none => exact .pure ⟨rfl, trivial⟩
    | some bound => exact (hf bound).bindEq fun bound' => .pure ⟨rfl, trivial⟩
  | metaType arg isConstructor => exact (hf arg).bindEq fun arg' => .pure ⟨rfl, trivial⟩
  | literal | typeVariable | primitive | unknown | dynamicAny => exact .pure ⟨rfl, hdata⟩

end Agreement

end TypeData

/-- Rebuilding a layer with functions that are related on its parts. -/
theorem RunLogic.rebuild (L : RunLogic TypeM) {f g : TypeId → TypeM TypeId}
    {keep keep' : DeclId → Bool} (data : TypeData)
    (hparts : ∀ s ∈ data.parts, L.rel (f s) (g s) Eq)
    (hopens : ∀ param ∈ data.opens, keep param = keep' param) :
    L.rel (data.rebuild f keep) (data.rebuild g keep') Eq := by
  cases data with
  | nominal decl args =>
    exact L.bindEq (L.mapMEq args hparts) fun args' => L.same _
  | union members =>
    exact L.bindEq (L.mapMEq members hparts) fun members' => L.same _
  | intersection members =>
    exact L.bindEq (L.mapMEq members hparts) fun members' => L.same _
  | structural members =>
    refine L.bindEq (L.mapMEq members fun member hmember => ?_) fun members' =>
      L.same _
    exact L.bindEq (hparts _ (List.mem_map_of_mem hmember)) fun type => L.same _
  | function signature =>
    have hparam (param : Parameter) (h : param ∈ signature.params) :
        L.rel (f param.type) (g param.type) Eq :=
      hparts _ (List.mem_append_left _ (List.mem_map_of_mem h))
    have hthis : L.rel (signature.thisType.mapM f) (signature.thisType.mapM g) Eq := by
      have hreceiver (s : TypeId) (h : signature.thisType = some s) : L.rel (f s) (g s) Eq :=
        hparts s (List.mem_append_right _ (List.mem_cons_of_mem _ (by simp [h])))
      cases h : signature.thisType with
      | none => exact L.same none
      | some s => exact L.mapEq some (hreceiver s h)
    refine L.bindEq (L.mapMEq _ fun param h => L.bindEq (hparam param h) fun type => L.same _)
      fun params => ?_
    refine L.bindEq (hparts _ (List.mem_append_right _ (List.mem_cons_self ..)))
      fun returnType => ?_
    refine L.bindEq hthis fun thisType => ?_
    rw [show signature.typeParams.filter keep = signature.typeParams.filter keep' from
      List.filter_congr hopens]
    exact L.same _
  | thisType bound =>
    cases bound with
    | none => exact L.same _
    | some bound =>
      exact L.bindEq (hparts bound (List.mem_singleton_self _)) fun bound' => L.same _
  | wildcard bound kind =>
    cases bound with
    | none => exact L.same _
    | some bound =>
      exact L.bindEq (hparts bound (List.mem_singleton_self _)) fun bound' => L.same _
  | metaType arg isConstructor =>
    exact L.bindEq (hparts arg (List.mem_singleton_self _)) fun arg' => L.same _
  | _ => exact L.same _

end ScriptTyping
