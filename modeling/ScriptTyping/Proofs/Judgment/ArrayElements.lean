import ScriptTyping.Proofs.Declarations.Installation
import ScriptTyping.Proofs.Hierarchy.Abbreviation
import ScriptTyping.Proofs.Hierarchy.Instantiation
import ScriptTyping.Proofs.Termination.Subtyping
import ScriptTyping.Judgment.Iteration

/-!
# Elements of arrays

The elements of an array are known from the type argument of the array, and from the iterable that
the array inherits from.  Patterns ask for the first, loops and spreads for the second.  The
declaration of arrays passes its type parameter on to iterables, so that both are the same, as long
as there is an argument.  A bare reference to arrays has elements of any type by the first reading;
by the second one they have the type parameter that nothing was put in place of.

## Main definitions

* `World.KeepsArrays` — the installed declaration of arrays is still there.

## Main results

* `World.findInstantiation?_array` — the iterable that an array inherits from.
* `Program.iterableElement?_of_arrayElement?` — the elements of an array that is iterated.
-/

namespace ScriptTyping

namespace World

/-- The world extends the installed one, and arrays are still declared as they were. -/
structure KeepsArrays (w : World) (T : TypeTable) : Prop where
  builtins : w.builtins = Builtins.install.1
  array : w.decl? w.builtins.array = Builtins.install.2.declarations.get? w.builtins.array
  types : Builtins.install.2.types ≤ T

variable {w : World} {T T' : TypeTable} {t element iterable : TypeId} {param : DeclId}
  {args : List TypeId}

theorem KeepsArrays.declares (h : w.KeepsArrays T) :
    w.builtins.DeclaresArrays w.declarations T := by
  obtain ⟨-, hobject, info, param, element, iterable, hinfo, hkind, hparams, hsuper, hinterfaces,
    hiterable, helement⟩ := Builtins.declaresArrays_install
  rw [← h.builtins] at hobject hinfo hsuper hiterable
  exact ⟨TypeTable.lookup?_of_le h.types hobject, info, param, element, iterable,
    h.array.trans hinfo, hkind, hparams, hsuper, hinterfaces,
    TypeTable.lookup?_of_le h.types hiterable, TypeTable.lookup?_of_le h.types helement⟩

/-- A reference without arguments stays as it is. -/
theorem instantiate_simple (hT : T.Indexed) {d : DeclId} (ht : T.lookup t = .nominal d [])
    (s : Substitution) : s.instantiate t T = .ok t T := by
  have hintrinsic : t.isIntrinsic = false := hT.isIntrinsic_of_le (le_refl T) (by rw [ht]; rfl)
  rw [Substitution.instantiate]
  split
  · rfl
  · change s.traversal.apply (49 + 1) t T = _
    rw [Traversal.apply, hintrinsic, if_neg (by decide), TypeM.bind_of_ok (TypeM.lookup_run t T),
      ht]
    rfl

/-- The argument of an array takes the place of the type parameter, if there is one. -/
theorem instantiate_iterable (hT : T.Indexed) {d : DeclId}
    (ht : T.lookup? iterable = some (.nominal d [element]))
    (helement : T.lookup? element = some (.typeVariable param)) (args : List TypeId) :
    ∃ r T', (Substitution.ofArgs [param] args).instantiate iterable T = .ok r T' ∧ T ≤ T' ∧
      T'.lookup r = .nominal d [args.head?.getD element] := by
  have hread := TypeTable.lookup_eq ht
  cases args with
  | nil => exact ⟨iterable, T, rfl, le_refl T, hread⟩
  | cons a rest =>
    have hintrinsic : iterable.isIntrinsic = false :=
      hT.isIntrinsic_of_le (le_refl T) (by rw [hread]; rfl)
    have helement' : element.isIntrinsic = false :=
      hT.isIntrinsic_of_le (le_refl T) (by rw [TypeTable.lookup_eq helement]; rfl)
    -- The only replacement is that of the type parameter.
    let σ : Substitution := ⟨[(param, a)], none⟩
    have hvariable : σ.traversal.apply 49 element T = .ok a T := by
      have hresolve : σ.traversal.resolve param = some a := by
        simp [σ, Substitution.traversal, Substitution.get?]
      change σ.traversal.apply (48 + 1) element T = _
      rw [(Traversal.recalls_variable (r := σ.traversal) rfl helement'
        (TypeTable.has_iff.mpr ⟨_, helement⟩) (TypeTable.lookup_eq helement)).run, hresolve]
      rfl
    have hargs : [element].mapM (σ.traversal.apply 49) T = .ok [a] T := by
      rw [List.mapM_cons, TypeM.bind_of_ok hvariable]
      rfl
    have hrun : (Substitution.ofArgs [param] (a :: rest)).instantiate iterable T =
        (if [a] = [element] then pure iterable else TypeM.nominal d [a] : TypeM TypeId) T := by
      change σ.traversal.apply (49 + 1) iterable T = _
      rw [Traversal.apply, hintrinsic, if_neg (by decide),
        TypeM.bind_of_ok (TypeM.lookup_run iterable T), hread]
      exact TypeM.bind_of_ok hargs
    rw [hrun]
    split
    · rename_i hsame
      exact ⟨iterable, T, rfl, le_refl T, by rw [hread, ← hsame]; rfl⟩
    · refine ⟨_, _, rfl, TypeTable.le_intern T _, TypeTable.lookup_eq ?_⟩
      exact (hT.intern _).sound _ _ (TypeTable.handles_intern T (.nominal d [a]))

/-- The types directly above an array: `Object`, and iterables of the argument. -/
theorem directSupertypes_array (h : w.builtins.DeclaresArrays w.declarations T) (hT : T.Indexed)
    (ht : T.lookup t = .nominal w.builtins.array args) :
    ∃ element r T', w.directSupertypes t T = .ok [w.objectType, r] T' ∧ T ≤ T' ∧
      T'.lookup r = .nominal w.builtins.iterable [args.head?.getD element] ∧
      ∃ info param, w.decl? w.builtins.array = some info ∧ info.typeParams = [param] ∧
        T.lookup element = .typeVariable param := by
  obtain ⟨hobject, info, param, element, iterable, hinfo, hkind, hparams, hsuper, hinterfaces,
    hiterable, helement⟩ := h
  obtain ⟨r, T', hr, hle, hlookup⟩ := instantiate_iterable hT hiterable helement args
  refine ⟨element, r, T', ?_, hle, hlookup, info, param, hinfo, hparams,
    TypeTable.lookup_eq helement⟩
  have habove :
      info.superType.toList.mapM (Substitution.ofArgs info.typeParams args).instantiate T =
        .ok [w.objectType] T := by
    rw [hsuper, Option.toList_some, List.mapM_cons,
      TypeM.bind_of_ok (instantiate_simple hT (TypeTable.lookup_eq hobject) _)]
    rfl
  have himplemented :
      info.interfaces.mapM (Substitution.ofArgs info.typeParams args).instantiate T =
        .ok [r] T' := by
    rw [hinterfaces, hparams, List.mapM_cons, TypeM.bind_of_ok hr]
    rfl
  have hclauses : w.clauseSupertypes w.builtins.array info args T = .ok [w.objectType, r] T' := by
    rw [clauseSupertypes, TypeM.bind_of_ok habove, TypeM.bind_of_ok himplemented, hsuper]
    rfl
  have hdecl : w.decl? w.builtins.array = some info := hinfo
  rw [directSupertypes, TypeM.bind_of_ok (TypeM.lookup_run t T), ht]
  dsimp only
  rw [hdecl]
  dsimp only
  rw [hkind]
  exact hclauses

/-- The iterable that an array inherits from has the argument of the array; a bare reference leaves
the type parameter of the declaration. -/
theorem findInstantiation?_array (h : w.builtins.DeclaresArrays w.declarations T)
    (hdistinct : w.builtins.array ≠ w.builtins.iterable ∧ w.builtins.object ≠ w.builtins.iterable ∧
      w.builtins.array ≠ w.builtins.object)
    (hT : T.Indexed) (ht : T.lookup t = .nominal w.builtins.array args) :
    ∃ element r T', w.findInstantiation? t w.builtins.iterable T =
        .ok (some (r, [args.head?.getD element])) T' ∧ T ≤ T' ∧
      ∃ info param, w.decl? w.builtins.array = some info ∧ info.typeParams = [param] ∧
        T.lookup element = .typeVariable param := by
  obtain ⟨element, r, T₁, hdirect, hle, hr, hparam⟩ := directSupertypes_array h hT ht
  have hobject : T₁.lookup w.objectType = .nominal w.builtins.object [] :=
    TypeTable.lookup_eq (TypeTable.lookup?_of_le hle h.object)
  have ht₁ : T₁.lookup t = .nominal w.builtins.array args := by
    rw [TypeTable.lookup_of_le hle (TypeTable.has_of_lookup_ne (by rw [ht]; nofun)), ht]
  have hnodup : [t, w.objectType, r].Nodup := by
    have hne {a b : TypeId} {d e : DeclId} {as bs : List TypeId} (ha : T₁.lookup a = .nominal d as)
        (hb : T₁.lookup b = .nominal e bs) (hde : d ≠ e) : a ≠ b := by
      rintro rfl
      cases ha.symm.trans hb
      exact hde rfl
    simp [hne ht₁ hobject hdistinct.2.2, hne ht₁ hr hdistinct.1, hne hobject hr hdistinct.2.1]
  obtain ⟨all, T₂, hall, hle₂, hprefix⟩ : ∃ all T₂, w.supertypes t T = .ok all T₂ ∧ T₁ ≤ T₂ ∧
      [t, w.objectType, r] <+: all := by
    have hround : w.supertypes t = w.supertypesFrom (511 + 1) [] [t] := rfl
    obtain ⟨all, T₂, hall⟩ := w.total_supertypesFrom 511 ([] ++ [t])
      (waitingAfter [] t [] [w.objectType, r]) T₁
    have hstart : ([] ++ t :: []).Nodup := List.nodup_singleton t
    have hmet := append_waitingAfter hstart [w.objectType, r]
    have hprefix := initial_of_supertypesFrom w 511 hall (hmet ▸ nodup_eraseDups _)
    rw [hmet] at hprefix
    refine ⟨all, T₂, ?_, ?_, eraseDups_of_nodup hnodup ▸ hprefix⟩
    · rw [hround, supertypesFrom_cons, if_pos (by decide), TypeM.bind_of_ok hdirect]
      exact hall
    · exact (agrees_supertypesFrom (.refl w) _ _ _ T₁ T₁.hides_transparent all T₂ hall).1
  obtain ⟨rest, rfl⟩ := hprefix
  have hlater {a : TypeId} {d : DeclId} {as : List TypeId} (ha : T₁.lookup a = .nominal d as) :
      T₂.lookup a = .nominal d as := by
    rw [TypeTable.lookup_of_le hle₂ (TypeTable.has_of_lookup_ne (by rw [ha]; nofun)), ha]
  refine ⟨element, r, T₂, ?_, le_trans hle hle₂, hparam⟩
  rw [findInstantiation?, TypeM.bind_of_ok hall]
  change EStateM.Result.ok _ T₂ = _
  simp [hlater ht₁, hlater hobject, hlater hr, hdistinct.1, hdistinct.2.1]

end World

namespace Program

variable {p : Program} {T : TypeTable} {t e : TypeId}

/-- The elements of an array that is iterated are those that its type argument says.  Only a bare
reference to arrays, whose elements are of any type, is iterated by the type parameter of the
declaration instead. -/
theorem iterableElement?_of_arrayElement? (h : p.world.KeepsArrays T) (hT : T.Indexed)
    (env : Environment) (he : p.world.arrayElement? (T.lookup t) = some e) :
    ∃ found T', p.iterableElement? env t false T = .ok (some found) T' ∧ T ≤ T' ∧
      (T.lookup t ≠ .nominal p.world.builtins.array [] → found = e) ∧
      (T.lookup t = .nominal p.world.builtins.array [] → e = .any ∧
        ∃ info param, p.world.decl? p.world.builtins.array = some info ∧
          info.typeParams = [param] ∧ T.lookup found = .typeVariable param) := by
  obtain ⟨args, ht, rfl⟩ : ∃ args, T.lookup t = .nominal p.world.builtins.array args ∧
      args.head?.getD .any = e := by
    cases hdata : T.lookup t with
    | nominal decl args =>
      rw [hdata, World.arrayElement?] at he
      split at he
      · rename_i hdecl
        exact ⟨args, hdecl ▸ rfl, Option.some.inj he⟩
      · cases he
    | _ => rw [hdata] at he; cases he
  have hdistinct := h.builtins ▸ Builtins.install_distinct
  obtain ⟨element, r, T', hfind, hle, hparam⟩ :=
    World.findInstantiation?_array h.declares hdistinct hT ht
  have hargument : p.argumentOf? t p.world.builtins.iterable T =
      .ok (some (args.head?.getD element)) T' := by
    rw [argumentOf?, TypeM.bind_of_ok hfind]
    rfl
  have hinherited : p.inheritedElement? t false T = .ok (some (args.head?.getD element)) T' := by
    rw [inheritedElement?, if_pos (by decide)]
    exact hargument
  have hclass : p.world.declarations.kind? p.world.builtins.array ≠ some .typeAlias := by
    obtain ⟨info, -, -, -, hinfo, hkind, -⟩ := h.declares.array
    rw [Declarations.kind?, hinfo, Option.map_some, hkind]
    decide
  refine ⟨args.head?.getD element, T', ?_, hle, fun hargs => ?_, fun hargs => ?_⟩
  · rw [iterableElement?, iterationDepth, iterableElementFrom,
      TypeM.bind_of_ok (Subtyping.resolveAlias_eq_self ht hclass),
      TypeM.bind_of_ok (TypeM.lookup_run t T), ht]
    exact hinherited
  · cases args with
    | nil => exact absurd ht hargs
    | cons a rest => rfl
  · cases ht.symm.trans hargs
    exact ⟨rfl, hparam⟩

/-- The program that has declarations only. -/
def ofDeclarations (b : Builtins) (declarations : Declarations) : Program where
  world.declarations := declarations
  world.builtins := b
  world.fuel := 0
  tree := .empty
  flow := .empty
  options := {}

/-- The installed program with nothing else. -/
def installed : Program := ofDeclarations Builtins.install.1 Builtins.install.2.declarations

/-- An array of numbers is iterated by numbers. -/
theorem iterableElement?_of_arrayElement?_installed : ∃ T t T',
    installed.world.arrayElement? (T.lookup t) = some .number ∧
      installed.iterableElement? .empty t false T = .ok (some .number) T' := by
  -- The installed table stays closed, so that it is not computed.
  have hnumbers (p : Program) (T₀ : TypeTable) (hkeeps : p.world.KeepsArrays T₀)
      (hT₀ : T₀.Indexed) : ∃ T t T', p.world.arrayElement? (T.lookup t) = some .number ∧
        p.iterableElement? .empty t false T = .ok (some .number) T' := by
    have hT := hT₀.intern (.nominal p.world.builtins.array [.number])
    have hle := TypeTable.le_intern T₀ (.nominal p.world.builtins.array [.number])
    have ht := TypeTable.lookup_eq (hT.sound _ _ (TypeTable.handles_intern T₀ _))
    have he : p.world.arrayElement? (.nominal p.world.builtins.array [.number]) = some .number :=
      if_pos rfl
    rw [← ht] at he
    obtain ⟨found, T', hrun, -, hsame, -⟩ := iterableElement?_of_arrayElement?
      ⟨hkeeps.builtins, hkeeps.array, le_trans hkeeps.types hle⟩ hT .empty he
    obtain rfl := hsame (by rw [ht]; nofun)
    exact ⟨_, _, T', he, hrun⟩
  have hbuiltins (b : Builtins) (ds : Declarations) :
      (ofDeclarations b ds).world.builtins = b := rfl
  have hdecl (b : Builtins) (ds : Declarations) (d : DeclId) :
      (ofDeclarations b ds).world.decl? d = ds.get? d := rfl
  exact hnumbers installed _ ⟨hbuiltins _ _, hdecl _ _ _, le_refl _⟩
    Builtins.declaresArrays_install.1

end Program

end ScriptTyping
