import ScriptTyping.Proofs.Subtyping.Nominal
import ScriptTyping.Proofs.Subtyping.Unfolding

/-!
# Types without a declaration

Function types, object shapes and the types of types have no declaration of their own.  They enter
the hierarchy of declarations at `Function` or at `Object`, and compared with a reference to a
classifier they behave like the declaration at which they enter.

## Main definitions

* `World.FunctionFragment` — non-generic classifiers with `Function` among them.
* `World.Rooted` — the declaration at which a type enters the hierarchy.

## Main results

* `World.FunctionFragment.yields_findInstantiation?_rooted` — the walk over super types.
* `World.FunctionFragment.yields_nominalPlan_rooted` — the comparison with a reference is the order
  of declarations.
-/

namespace ScriptTyping.World

open Subtyping (nominalPlan)

variable {w : World} {T₀ T T' : TypeTable} {D : Set DeclId} {t : TypeId} {d e : DeclId}

/-- Non-generic classifiers with `Function` among them, and with room in the walk over super types
for a function type in front of what stands above `Function`. -/
structure FunctionFragment (w : World) (T : TypeTable) (D : Set DeclId) : Prop
    extends w.NominalFragment T D where
  function : w.builtins.function ∈ D
  functionType : T.Refers w.builtins.functionType w.builtins.function
  functionBounded : ∃ above : List DeclId, above.length + 1 < supertypeLimit ∧
    ∀ e, w.Reaches T w.builtins.function e → e ∈ above

/-- The declaration at which a type without a declaration enters the hierarchy. -/
def entry? (w : World) : TypeData → Option DeclId
  | .function _ | .metaType _ true => some w.builtins.function
  | .structural _ | .metaType _ false => some w.builtins.object
  | _ => none

/-- The declaration of a type, or the one at which it enters the hierarchy. -/
def Rooted (w : World) (T : TypeTable) (t : TypeId) (d : DeclId) : Prop :=
  T.Refers t d ∨ w.entry? (T.lookup t) = some d

theorem entry?_nominal (w : World) (d : DeclId) (args : List TypeId) :
    w.entry? (.nominal d args) = none := rfl

/-- A type has one place in the hierarchy. -/
theorem Rooted.unique (hT : T.WellFormed) (hd : w.Rooted T t d) (he : w.Rooted T t e) : d = e := by
  have hreference {d e : DeclId} (hd : T.Refers t d) : w.entry? (T.lookup t) ≠ some e := by
    rw [hd.lookup hT, entry?_nominal]
    simp
  rcases hd with hd | hd <;> rcases he with he | he
  · exact hd.decl_unique hT he
  · exact absurd he (hreference hd)
  · exact absurd hd (hreference he)
  · exact Option.some.inj (hd.symm.trans he)

namespace FunctionFragment

variable (h : w.FunctionFragment T₀ D) (hg : T₀.GrowsTo T)

include h

/-- There is room for one type in front of what stands above an entry. -/
theorem exists_room {data : TypeData} (hdata : w.entry? data = some d) :
    d ∈ D ∧ ∃ above : List DeclId, above.length + 1 < supertypeLimit ∧
      ∀ e, w.Reaches T₀ d e → e ∈ above := by
  have hobject : ∃ above : List DeclId, above.length + 1 < supertypeLimit ∧
      ∀ e, w.Reaches T₀ w.builtins.object e → e ∈ above := by
    refine ⟨[w.builtins.object], (by decide : 1 + 1 < supertypeLimit), fun e he => ?_⟩
    rw [h.eq_object_of_reaches he]
    exact List.mem_singleton_self _
  unfold entry? at hdata
  split at hdata <;> cases hdata
  · exact ⟨h.function, h.functionBounded⟩
  · exact ⟨h.function, h.functionBounded⟩
  · exact ⟨h.object, hobject⟩
  · exact ⟨h.object, hobject⟩

include hg

/-- The only type directly above is the reference to the entry. -/
theorem directSupertypes_of_entry (ht : w.entry? (T.lookup t) = some d) :
    ∃ r, T.Refers r d ∧ w.directSupertypes t T = .ok [r] T := by
  have hfunction := h.functionType.of_le hg.le
  have hobject := h.objectType.of_le hg.le
  have hlookup : TypeM.lookup t T = .ok (T.lookup t) T := rfl
  rw [directSupertypes, TypeM.bind_of_ok hlookup]
  unfold entry? at ht
  split at ht <;> cases ht <;> rename_i hdata <;> rw [hdata]
  · exact ⟨_, hfunction, rfl⟩
  · exact ⟨_, hfunction, rfl⟩
  · exact ⟨_, hobject, rfl⟩
  · exact ⟨_, hobject, rfl⟩

theorem yields_isObjectLike_rooted (hd : d ∈ D) (ht : w.Rooted T t d) :
    TypeM.Yields (w.isObjectLike t) T fun _ b => b = true := by
  rcases ht with ht | ht
  · exact h.yields_isObjectLike hg.wellFormed hd ht
  obtain ⟨fuel, hfuel⟩ : ∃ fuel, w.fuel = fuel + 1 := ⟨w.fuel - 1, by have := h.fuel; omega⟩
  rw [isObjectLike, hfuel, isObjectLikeFrom]
  refine .lookup ?_
  unfold entry? at ht
  split at ht <;> cases ht <;> rename_i hdata <;> rw [hdata] <;> exact .pure hg.wellFormed rfl

/-- The walk from a type without a declaration meets the type itself and what can be reached from
its entry. -/
theorem yields_supertypes_of_entry (ht : w.entry? (T.lookup t) = some d) :
    TypeM.Yields (w.supertypes t) T fun T' ts =>
      ∃ rest, ts = t :: rest ∧ (∀ e args, T'.lookup t ≠ .nominal e args) ∧
        T'.Lists rest (w.Reaches T₀ d) := by
  have hunnamed : ∀ e args, T.lookup t ≠ .nominal e args := by
    intro e args hlookup
    rw [hlookup, entry?_nominal] at ht
    cases ht
  have hhas : T.Has t := by
    refine TypeTable.has_of_lookup_ne fun hunknown => ?_
    rw [hunknown] at ht
    cases ht
  obtain ⟨hd, above, hroom, habove⟩ := h.exists_room ht
  obtain ⟨r, hr, hstep⟩ := h.directSupertypes_of_entry hg ht
  have hne : r ≠ t := by
    rintro rfl
    exact hunnamed d [] (hr.lookup hg.wellFormed)
  -- The first round moves the type to the front and starts the walk from the entry.
  have hround : w.supertypes t T = w.supertypesFrom 511 ([t] ++ []) [r] T := by
    have hsucc : w.supertypes t = w.supertypesFrom (511 + 1) [] [t] := rfl
    have hadd : addNew [t] r = [t, r] := by simp [addNew, hne]
    rw [hsucc, supertypesFrom, if_pos (by decide), TypeM.bind_of_ok hstep]
    simp [hadd]
  have hroom' : [t].length + above.length < supertypeLimit := by
    rw [List.length_singleton]
    omega
  have hfront : ∀ s ∈ [t], T.Has s ∧ ∀ e, T.lookup s ≠ .nominal e [] := by
    rintro s hs
    rw [List.mem_singleton.mp hs]
    exact ⟨hhas, fun e => hunnamed e []⟩
  refine .of_eq hround ((h.yields_supertypesFrom hd habove hroom' 511 hg hfront rfl
    (walk_start hr)).mono fun T₁ ts hg₁ hts => ?_)
  obtain ⟨rest, rfl, hlists, -⟩ := hts
  refine ⟨rest, rfl, ?_, hlists⟩
  rwa [TypeTable.lookup_of_le hg₁.le hhas]

/-- A declaration is found among the super types if it can be reached from the root. -/
theorem yields_findInstantiation?_rooted (hd : d ∈ D) (ht : w.Rooted T t d) (e : DeclId) :
    TypeM.Yields (w.findInstantiation? t e) T fun _ o =>
      (w.Reaches T₀ d e → ∃ s, o = some (s, [])) ∧ (¬w.Reaches T₀ d e → o = none) := by
  rcases ht with ht | ht
  · exact h.yields_findInstantiation? hg hd ht e
  rw [findInstantiation?]
  refine (h.yields_supertypes_of_entry hg ht).bind fun above T₁ hg₁ habove =>
    .get (.pure hg₁.wellFormed ?_)
  obtain ⟨rest, rfl, hunnamed, hlists⟩ := habove
  rw [List.findSome?_cons]
  split
  · rename_i hmatch
    split at hmatch
    · rename_i hlookup
      exact absurd hlookup (hunnamed _ _)
    · cases hmatch
  · refine findSome?_of_lists hg₁.wellFormed hlists fun s d' args hlookup => ?_
    rw [hlookup]

/-- Compared with a reference, a type behaves like its root. -/
theorem yields_nominalPlan_rooted (hd : d ∈ D) (ht : w.Rooted T t d) (e : DeclId) :
    TypeM.Yields (nominalPlan w t e []) T fun _ p =>
      ∃ b, p = .verdict b ∧ (b = true ↔ w.Below T₀ d e) :=
  Subtyping.yields_nominalPlan (h.yields_isObjectLike_rooted hg hd ht)
    (h.yields_findInstantiation?_rooted hg hd ht e)

end FunctionFragment

end ScriptTyping.World
