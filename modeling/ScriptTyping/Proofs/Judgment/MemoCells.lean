import ScriptTyping.Proofs.Judgment.Comparison

/-!
# Declarations with memo cells

The type of a declaration is computed from what it says, or it is inferred and kept in the memo cell
of the declaration.  The rule of a declaration is taken apart into the inferred type, and the memo
cell around it.

## Main definitions

* `Declaration.isInferred` — whether the type of a declaration is inferred.
* `Program.inferredType`, `Program.rememberedType` — the inferred type without and with its cell.

## Main results

* `Program.declarationType_cases` — the two kinds of declarations.
-/

namespace ScriptTyping

/-- Whether the type of a declaration is inferred and kept in its memo cell. -/
def Declaration.isInferred (info : Declaration) : Bool :=
  match info.kind with
  | .field | .parameter | .var => info.declaredType.isNone
  | .function | .method => info.declaredType.isSome && info.has .inferredReturn
  | _ => false

namespace Program

variable (p : Program)

/-- The inferred type of a declaration, memo cell aside, and whether it may be kept. -/
def inferredType (judge : Judge) (env : Environment) (info : Declaration) :
    InferM (TypeId × Bool) :=
  match info.declaredType with
  | none =>
    match info.node with
    | none => pure (.any, false)
    | some n => do return (← judge.node env n, true)
  | some declared => do
    match ← signature? declared, info.node with
    | some signature, some n =>
      if env.isGuarded ⟨.functionReturn, n⟩ then
        InferM.noteFallback
        return (declared, false)
      let returnType ← p.returnType judge (env.withGuard ⟨.functionReturn, n⟩) n info
      return (← TypeM.function { signature with returnType }, true)
    | _, _ => return (declared, false)

/-- The type of a declaration that has a memo cell. -/
def rememberedType (judge : Judge) (env : Environment) (d : DeclId) (info : Declaration) :
    InferM TypeId := do
  match ← InferM.memoized? d with
  | some t => return t
  | none =>
    let before ← InferM.fallbackCount
    let (t, isKept) ← p.inferredType judge env info
    if isKept then memoize env before d t
    return t

variable {p} {judge : Judge} {env : Environment} {d : DeclId} {info : Declaration}

theorem elementType_of_inferred (h : info.declaredType = none) :
    p.elementType judge env d info = p.rememberedType judge env d info := by
  simp only [elementType, rememberedType, inferredType, h]
  refine bind_congr fun cell => ?_
  cases cell with
  | some t => rfl
  | none =>
    cases info.node with
    | none => rfl
    | some n => simp only [bind_assoc, pure_bind, if_true]

/-- The number of fallbacks may be read before or after a computation over types. -/
private theorem fallbackCount_liftM {α β : Type} (z : TypeM α) (f : Nat → α → InferM β) :
    (InferM.fallbackCount >>= fun before => liftM z >>= f before) =
      liftM z >>= fun a => InferM.fallbackCount >>= fun before => f before a := by
  funext ⟨types, memo, fallbacks⟩
  change EStateM.bind (InferM.ofTypes z) _ _ = EStateM.bind (InferM.ofTypes z) _ _
  simp only [InferM.ofTypes, EStateM.bind]
  cases z types <;> rfl

theorem signatureType_of_inferred {declared : TypeId} (h : info.declaredType = some declared)
    (hreturn : info.has .inferredReturn = true) :
    p.signatureType judge env d info = p.rememberedType judge env d info := by
  simp only [signatureType, rememberedType, inferredType, h, hreturn]
  refine bind_congr fun cell => ?_
  cases cell with
  | some t => rfl
  | none =>
    simp only [bind_assoc, fallbackCount_liftM]
    refine bind_congr fun signature => ?_
    cases signature with
    | none => rfl
    | some signature =>
      cases info.node with
      | none => rfl
      | some n =>
        dsimp only
        split
        · rfl
        · simp only [bind_assoc, pure_bind, if_true]

/-- A declaration with a memo cell has an inferred type; that of any other one is computed from what
the declaration says. -/
theorem declarationType_cases (p : Program) (d : DeclId) :
    (∃ z : TypeM TypeId, (∀ judge env, p.declarationType judge env d = liftM z) ∧
      ∀ T : TypeTable, T.WellFormed → p.world.Within T → TypeM.Stable z T TypeTable.Has) ∨
    ∃ info, p.decl? (p.world.declarations.canonical d) = some info ∧ info.isInferred = true ∧
      ∀ judge env, p.declarationType judge env d =
        p.rememberedType judge env (p.world.declarations.canonical d) info := by
  have hreserved (t : TypeId) (ht : t.index < TypeId.firstDynamic) :
      ∀ T : TypeTable, T.WellFormed → p.world.Within T → TypeM.Stable (pure t) T TypeTable.Has :=
    fun T hT _ => .pure hT (hT.has_reserved ht)
  cases hinfo : p.decl? (p.world.declarations.canonical d) with
  | none =>
    refine .inl ⟨pure .unknown, fun _ _ => ?_, hreserved _ (by decide)⟩
    simp only [declarationType, hinfo]
    rfl
  | some info =>
    simp only [declarationType, hinfo]
    cases hkind : info.kind with
    | classType =>
      refine .inl ⟨TypeM.simple (p.world.declarations.canonical d) >>= TypeM.constructorType,
        fun _ _ => ?_, fun T hT _ => ?_⟩
      · rw [InferM.liftM_bind]
      · exact (TypeM.stable_simple hT _).bind fun t T₁ hg ht =>
          TypeM.stable_constructorType hg.wellFormed ht
    | interfaceType | enumType =>
      refine .inl ⟨TypeM.simple (p.world.declarations.canonical d) >>= TypeM.metaType,
        fun _ _ => ?_, fun T hT _ => ?_⟩
      · rw [InferM.liftM_bind]
      · exact (TypeM.stable_simple hT _).bind fun t T₁ hg ht =>
          TypeM.stable_metaType hg.wellFormed ht
    | typeAlias =>
      cases hdeclared : info.declaredType with
      | none => exact .inl ⟨pure .unknown, fun _ _ => rfl, hreserved _ (by decide)⟩
      | some aliased =>
        exact .inl ⟨TypeM.metaType aliased, fun _ _ => rfl, fun T hT hw =>
          TypeM.stable_metaType hT (hw.declaredType hinfo hdeclared)⟩
    | enumLiteral =>
      cases info.owner with
      | none => exact .inl ⟨pure .unknown, fun _ _ => rfl, hreserved _ (by decide)⟩
      | some owner =>
        exact .inl ⟨TypeM.enumLiteral owner _, fun _ _ => rfl, fun T hT _ =>
          TypeM.stable_literal hT _⟩
    | field | parameter | var =>
      cases hdeclared : info.declaredType with
      | none =>
        refine .inr ⟨info, rfl, ?_, fun judge env => elementType_of_inferred hdeclared⟩
        simp only [Declaration.isInferred, hkind, hdeclared, Option.isNone_none]
      | some declared =>
        simp only [elementType, hdeclared]
        split
        · exact .inl ⟨p.world.builtins.arrayOf declared, fun _ _ => rfl, fun T hT hw =>
            stable_arrayOf hT (hw.declaredType hinfo hdeclared)⟩
        · exact .inl ⟨pure declared, fun _ _ => rfl, fun T hT hw =>
            .pure hT (hw.declaredType hinfo hdeclared)⟩
    | getter | setter =>
      refine .inl ⟨pure (info.declaredType.getD .any), fun _ _ => rfl, fun T hT hw =>
        .pure hT ?_⟩
      cases hdeclared : info.declaredType with
      | none => exact hT.has_reserved (by decide)
      | some declared => exact hw.declaredType hinfo hdeclared
    | function | method =>
      cases hdeclared : info.declaredType with
      | none =>
        simp only [signatureType, hdeclared]
        exact .inl ⟨pure .unknown, fun _ _ => rfl, hreserved _ (by decide)⟩
      | some declared =>
        cases hreturn : info.has .inferredReturn with
        | true =>
          refine .inr ⟨info, rfl, ?_, fun judge env => signatureType_of_inferred hdeclared hreturn⟩
          simp only [Declaration.isInferred, hkind, hdeclared, hreturn, Option.isSome_some,
            Bool.and_self]
        | false =>
          simp only [signatureType, hdeclared, hreturn]
          exact .inl ⟨pure declared, fun _ _ => rfl, fun T hT hw =>
            .pure hT (hw.declaredType hinfo hdeclared)⟩
    | typeVariable =>
      exact .inl ⟨TypeM.typeVariable _, fun _ _ => rfl, fun T hT _ =>
        TypeM.stable_typeVariable hT _⟩
    | moduleImport =>
      exact .inl ⟨TypeM.simple _, fun _ _ => rfl, fun T hT _ => TypeM.stable_simple hT _⟩
    | dynamic => exact .inl ⟨pure .dynamicAny, fun _ _ => rfl, hreserved _ (by decide)⟩

end Program

end ScriptTyping
