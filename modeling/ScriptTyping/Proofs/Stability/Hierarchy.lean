import Mathlib.Data.List.Basic
import ScriptTyping.Hierarchy.Supertypes
import ScriptTyping.Proofs.Stability.Substitution

/-!
# Stability of the declared hierarchy

Expanding aliases, telling objects from primitive values and collecting super types are stable, as
long as the declarations mention types of the table only.

## Main definitions

* `World.Within` — the types that the declarations mention belong to the table.

## Main results

* `World.stable_resolveAlias`, `World.stable_isObjectLike` — aliases and object types.
* `World.stable_supertypes`, `World.stable_findInstantiation?` — super types.
-/

namespace ScriptTyping

/-- The types that a declaration mentions. -/
def Declaration.types (d : Declaration) : List TypeId :=
  d.declaredType.toList ++ d.superType.toList ++ d.interfaces ++ d.elementType.toList

/-- The types that the built-in declarations are known by. -/
def Builtins.types (b : Builtins) : List TypeId :=
  [b.objectType, b.functionType, b.regexpType, b.errorType]

namespace World

variable {w : World} {T T' : TypeTable}

/-- All types that the declarations mention belong to the table. -/
structure Within (w : World) (T : TypeTable) : Prop where
  types : ∀ d info, w.decl? d = some info → T.HasAll info.types
  builtins : T.HasAll w.builtins.types

/-- It is enough to look through the stored declarations. -/
theorem within_of_entries
    (hentries : ∀ info ∈ w.declarations.entries.toList, T.HasAll info.types)
    (hbuiltins : T.HasAll w.builtins.types) : w.Within T := by
  refine ⟨fun d info hd => ?_, hbuiltins⟩
  obtain ⟨index⟩ := d
  cases index with
  | zero => cases hd
  | succ i => exact hentries info (Array.mem_toList_iff.mpr (Array.mem_of_getElem? hd))

theorem Within.of_le (h : T ≤ T') (hw : w.Within T) : w.Within T' :=
  ⟨fun d info hd => (hw.types d info hd).of_le h, hw.builtins.of_le h⟩

theorem Within.declaredType (hw : w.Within T) {d : DeclId} {info : Declaration} {t : TypeId}
    (hd : w.decl? d = some info) (ht : info.declaredType = some t) : T.Has t :=
  hw.types d info hd t (by simp [Declaration.types, ht])

theorem Within.superType (hw : w.Within T) {d : DeclId} {info : Declaration} {t : TypeId}
    (hd : w.decl? d = some info) (ht : info.superType = some t) : T.Has t :=
  hw.types d info hd t (by simp [Declaration.types, ht])

theorem Within.interfaces (hw : w.Within T) {d : DeclId} {info : Declaration}
    (hd : w.decl? d = some info) : T.HasAll info.interfaces := fun t ht =>
  hw.types d info hd t (by simp [Declaration.types, ht])

theorem Within.elementType (hw : w.Within T) {d : DeclId} {info : Declaration} {t : TypeId}
    (hd : w.decl? d = some info) (ht : info.elementType = some t) : T.Has t :=
  hw.types d info hd t (by simp [Declaration.types, ht])

theorem Within.objectType (hw : w.Within T) : T.Has w.objectType :=
  hw.builtins _ (by simp [World.objectType, Builtins.types])

theorem Within.functionType (hw : w.Within T) : T.Has w.builtins.functionType :=
  hw.builtins _ (by simp [Builtins.types])

theorem Within.variableBound (hT : T.WellFormed) (hw : w.Within T) (d : DeclId) :
    T.Has (w.declarations.variableBound d) := by
  rw [Declarations.variableBound]
  cases hd : w.declarations.get? d with
  | none => exact hT.has_reserved (by decide)
  | some info =>
    cases ht : info.declaredType with
    | none =>
      simp only [Option.bind_some, ht, Option.getD_none]
      exact hT.has_reserved (by decide)
    | some t =>
      simp only [Option.bind_some, ht, Option.getD_some]
      exact hw.declaredType hd ht

theorem stable_literalBase (hT : T.WellFormed) (value : LiteralValue) :
    TypeM.Stable (literalBase value) T TypeTable.Has := by
  cases value with
  | enumMember enumDecl _ => exact TypeM.stable_simple hT enumDecl
  | _ => exact .pure hT (hT.has_reserved (by decide))

/-! ### Aliases -/

theorem stable_expandAlias? (hT : T.WellFormed) (hw : w.Within T) {t : TypeId} (ht : T.Has t) :
    TypeM.Stable (w.expandAlias? t) T fun T' o => ∀ s, o = some s → T'.Has s := by
  rw [expandAlias?]
  refine .lookup ht ?_
  have hparts := hT.hasAll_parts t
  split
  · rename_i decl args hd
    rw [hd] at hparts
    split
    · rename_i info hinfo
      split
      · rename_i aliased _ hal
        refine (Substitution.stable_instantiate hT (Substitution.within_ofArgs _ hparts)
          (hw.declaredType hinfo hal)).bind fun s T₁ hg hs => .pure hg.wellFormed ?_
        intro s' hs'
        obtain rfl := Option.some.inj hs'
        exact hs
      · exact .pure hT fun _ h => by cases h
    · exact .pure hT fun _ h => by cases h
  · exact .pure hT fun _ h => by cases h

theorem stable_resolveAliasFrom (rounds : Nat) : ∀ {T : TypeTable} {t : TypeId}, T.WellFormed →
    w.Within T → T.Has t → TypeM.Stable (w.resolveAliasFrom rounds t) T TypeTable.Has := by
  induction rounds with
  | zero => exact fun hT _ ht => .pure hT ht
  | succ rounds ih =>
    intro T t hT hw ht
    rw [resolveAliasFrom]
    refine (stable_expandAlias? hT hw ht).bind fun o T₁ hg ho => ?_
    cases o with
    | none => exact .pure hg.wellFormed (ht.of_le hg.le)
    | some aliased => exact ih hg.wellFormed (hw.of_le hg.le) (ho aliased rfl)

theorem stable_resolveAlias (hT : T.WellFormed) (hw : w.Within T) {t : TypeId} (ht : T.Has t) :
    TypeM.Stable (w.resolveAlias t) T TypeTable.Has :=
  stable_resolveAliasFrom _ hT hw ht

theorem stable_isObjectLikeFrom (fuel : Nat) : ∀ {T : TypeTable} {t : TypeId}, T.WellFormed →
    w.Within T → T.Has t → TypeM.Stable (w.isObjectLikeFrom fuel t) T fun _ _ => True := by
  induction fuel with
  | zero => exact fun _ _ _ => TypeM.stable_diverge
  | succ fuel ih =>
    intro T t hT hw ht
    rw [isObjectLikeFrom]
    refine .lookup ht ?_
    have hparts := hT.hasAll_parts t
    split <;> rename_i hd <;> rw [hd] at hparts
    · split
      · refine (stable_resolveAlias hT hw ht).bind fun resolved T₁ hg hres => ?_
        split
        · exact .pure hg.wellFormed trivial
        · exact ih hg.wellFormed (hw.of_le hg.le) hres
      · exact .pure hT trivial
      · exact .pure hT trivial
    · exact .pure hT trivial
    · exact .pure hT trivial
    · exact .pure hT trivial
    · exact .pure hT trivial
    · dsimp only
      split
      · exact .pure hT trivial
      · exact ih hT hw (hw.variableBound hT _)
    · exact .anyM _ hT fun s hs T' hg =>
        ih hg.wellFormed (hw.of_le hg.le) ((hparts s hs).of_le hg.le)
    · exact .allM _ hT fun s hs T' hg =>
        ih hg.wellFormed (hw.of_le hg.le) ((hparts s hs).of_le hg.le)
    · exact (TypeM.stable_upperBound hT ht).bind fun s T₁ hg hs =>
        ih hg.wellFormed (hw.of_le hg.le) hs
    all_goals exact .pure hT trivial

theorem stable_isObjectLike (hT : T.WellFormed) (hw : w.Within T) {t : TypeId} (ht : T.Has t) :
    TypeM.Stable (w.isObjectLike t) T fun _ _ => True :=
  stable_isObjectLikeFrom _ hT hw ht

/-! ### Super types -/

theorem stable_clauseSupertypes (hT : T.WellFormed) (hw : w.Within T) {decl : DeclId}
    {info : Declaration} {args : List TypeId} (hd : w.decl? decl = some info)
    (hargs : T.HasAll args) :
    TypeM.Stable (w.clauseSupertypes decl info args) T TypeTable.HasAll := by
  have hs := Substitution.within_ofArgs info.typeParams hargs
  have hinst {ts : List TypeId} {T₁ : TypeTable} (hg : T.GrowsTo T₁) (hts : T.HasAll ts) :
      TypeM.Stable (ts.mapM (Substitution.ofArgs info.typeParams args).instantiate) T₁
        TypeTable.HasAll :=
    .mapM (W := TypeTable.Has) (fun _ _ _ => TypeTable.Has.of_le) ts hg.wellFormed
      fun t ht T₂ hg' => Substitution.stable_instantiate hg'.wellFormed
        (hs.of_le (hg.trans hg').le) ((hts t ht).of_le (hg.trans hg').le)
  refine (hinst (.refl hT) fun t ht => hw.superType hd (Option.mem_toList.mp ht)).bind
    fun above T₁ hg₁ habove => ?_
  refine (hinst hg₁ (hw.interfaces hd)).bind fun implemented T₂ hg₂ himpl => ?_
  refine .pure hg₂.wellFormed fun t ht => ?_
  rcases List.mem_append.mp ht with ht | ht
  · rcases List.mem_append.mp ht with ht | ht
    · exact (habove t ht).of_le hg₂.le
    · exact himpl t ht
  · split at ht
    · rw [List.mem_singleton.mp ht]
      exact hw.objectType.of_le (hg₁.trans hg₂).le
    · cases ht

theorem stable_directSupertypes (hT : T.WellFormed) (hw : w.Within T) {t : TypeId}
    (ht : T.Has t) : TypeM.Stable (w.directSupertypes t) T TypeTable.HasAll := by
  rw [directSupertypes]
  refine .lookup ht ?_
  have hparts := hT.hasAll_parts t
  split <;> rename_i hd <;> rw [hd] at hparts
  · split
    · exact .pure hT TypeTable.hasAll_nil
    · rename_i info hinfo
      split
      · exact stable_clauseSupertypes hT hw hinfo hparts
      · exact stable_clauseSupertypes hT hw hinfo hparts
      · exact (TypeM.stable_simple hT _).bind fun _ _ hg h =>
          .pure hg.wellFormed h.hasAll
      · refine (stable_resolveAlias hT hw ht).bind fun resolved T₁ hg hres =>
          .pure hg.wellFormed ?_
        split
        · exact TypeTable.hasAll_nil
        · exact hres.hasAll
      · exact .pure hT hw.objectType.hasAll
      · exact .pure hT TypeTable.hasAll_nil
  · exact (stable_literalBase hT _).bind fun _ _ hg h => .pure hg.wellFormed h.hasAll
  · exact .pure hT hw.functionType.hasAll
  · exact .pure hT hw.objectType.hasAll
  · refine .pure hT (TypeTable.Has.hasAll ?_)
    split
    · exact hw.functionType
    · exact hw.objectType
  · rename_i decl _
    refine .pure hT fun s hs => ?_
    obtain ⟨info, hinfo, hs⟩ := Option.bind_eq_some_iff.mp (Option.mem_toList.mp hs)
    exact hw.declaredType hinfo hs
  · exact .pure hT hparts
  · exact .pure hT hparts
  · exact .pure hT hparts
  all_goals exact .pure hT TypeTable.hasAll_nil

private theorem hasAll_addNew {seen : List TypeId} {t : TypeId} (hseen : T.HasAll seen)
    (ht : T.Has t) : T.HasAll (addNew seen t) := by
  rw [addNew]
  split
  · exact hseen
  · intro s hs
    rcases List.mem_append.mp hs with hs | hs
    · exact hseen s hs
    · exact ht.hasAll s hs

private theorem hasAll_foldl_addNew {above : List TypeId} : ∀ {seen : List TypeId},
    T.HasAll seen → T.HasAll above → T.HasAll (above.foldl addNew seen) := by
  induction above with
  | nil => exact fun hseen _ => hseen
  | cons t above ih =>
    intro seen hseen habove
    exact ih (hasAll_addNew hseen (habove t (List.mem_cons_self ..)))
      fun s hs => habove s (List.mem_cons_of_mem _ hs)

theorem stable_supertypesFrom (rounds : Nat) : ∀ {T : TypeTable} {visited queue : List TypeId},
    T.WellFormed → w.Within T → T.HasAll (visited ++ queue) →
    TypeM.Stable (w.supertypesFrom rounds visited queue) T TypeTable.HasAll := by
  induction rounds with
  | zero => exact fun hT _ hall => .pure hT hall
  | succ rounds ih =>
    intro T visited queue hT hw hall
    cases queue with
    | nil => exact .pure hT (by simpa using hall)
    | cons t queue =>
      rw [supertypesFrom]
      split
      · have ht : T.Has t := hall t (by simp)
        refine (stable_directSupertypes hT hw ht).bind fun above T₁ hg habove => ?_
        have hseen := hasAll_foldl_addNew (hall.of_le hg.le) habove
        refine ih hg.wellFormed (hw.of_le hg.le) fun s hs => ?_
        rcases List.mem_append.mp hs with hs | hs
        · refine (hall s ?_).of_le hg.le
          rcases List.mem_append.mp hs with hs | hs
          · exact List.mem_append_left _ hs
          · rw [List.mem_singleton.mp hs]
            simp
        · exact hseen s (List.mem_of_mem_drop hs)
      · exact .pure hT hall

theorem stable_supertypes (hT : T.WellFormed) (hw : w.Within T) {t : TypeId} (ht : T.Has t) :
    TypeM.Stable (w.supertypes t) T TypeTable.HasAll :=
  stable_supertypesFrom _ hT hw ht.hasAll

theorem stable_findInstantiation? (hT : T.WellFormed) (hw : w.Within T) {t : TypeId}
    (ht : T.Has t) (decl : DeclId) :
    TypeM.Stable (w.findInstantiation? t decl) T fun T' o =>
      ∀ s args, o = some (s, args) → T'.Has s ∧ T'.HasAll args := by
  rw [findInstantiation?]
  refine (stable_supertypes hT hw ht).bind fun above T₁ hg habove => ?_
  refine .get (fun T₂ hle => ?_) (.pure hg.wellFormed fun s args hs => ?_)
  · rw [← List.head?_filterMap, ← List.head?_filterMap, List.filterMap_congr fun s hs => ?_]
    rw [TypeTable.lookup_of_le hle (habove s hs)]
  · obtain ⟨s', hs', hfound⟩ := List.exists_of_findSome?_eq_some hs
    have hparts := hg.wellFormed.hasAll_parts s'
    split at hfound
    · rename_i hd
      rw [hd] at hparts
      split at hfound
      · injection hfound with hpair
        injection hpair with h₁ h₂
        subst h₁ h₂
        exact ⟨habove s' hs', hparts⟩
      · cases hfound
    · cases hfound

end World

end ScriptTyping
