import ScriptTyping.Proofs.Judgment.Traversal.Elements
import ScriptTyping.Proofs.Judgment.Traversal.Expressions
import ScriptTyping.Proofs.Judgment.Traversal.Invocations

/-!
# The rules of the judgment on two programs

Each rule on one program corresponds to the same rule on a program that mirrors it, asking judges
with corresponding answers.  The environments are the same on both sides.

## Main results

* `Correspondence.nodeType` — the rule of a node.
* `Correspondence.declarationType` — the rule of a declaration, memo cell included.
-/

namespace ScriptTyping.Correspondence

variable {v : Veil} {C : Correspondence v} {p p' : Program} {f : NodeId → NodeId}
  {judged asked resolved : NodeId → Prop} {judge judge' : Judge}

/-! ### Declarations -/

theorem yieldedType (M : Mirror C p p' f judged asked resolved)
    (J : C.Asks p p' f asked resolved judge judge') (env : Environment) {n : NodeId}
    {expression : Slot} {isDelegate : Bool} (hn : judged n)
    (hc : p.content? n = some (.yieldExpr expression isDelegate)) :
    C.rel (p.yieldedType judge env n) (p'.yieldedType judge' env n) Eq := by
  have hasked := M.operands hn hc (List.mem_singleton_self _)
  rw [Program.yieldedType, hc, Program.yieldedType, M.content hn hc, Content.relocate]
  cases isDelegate with
  | true =>
    refine C.bindEq (C.slot J env hasked) fun iterated => ?_
    exact C.bindLiftEq (Program.agrees_iterableElement? M.world env iterated false)
      fun _ => C.same _
  | false =>
    cases expression with
    | none => exact C.same _
    | some m => exact J.node env m (hasked m rfl)

/-- Widened answers of several questions. -/
private theorem widenedAll (M : Mirror C p p' f judged asked resolved) (env : Environment)
    {ask ask' : NodeId → InferM TypeId} (l : List NodeId)
    (h : ∀ n ∈ l, C.rel (ask n) (ask' n) Eq) :
    C.rel (l.mapM fun n => do p.widen env (← ask n)) (l.mapM fun n => do p'.widen env (← ask' n))
      Eq :=
  C.mapMEq l fun n hn => C.bindEq (h n hn) fun t => C.lift (Program.agrees_widen M.world env t)

theorem returnType (M : Mirror C p p' f judged asked resolved)
    (J : C.Asks p p' f asked resolved judge judge') (env : Environment) {d : DeclId}
    {info : Declaration} {owner : NodeId} (hd : p.decl? d = some info)
    (howner : info.node = some owner) :
    C.rel (p.returnType judge env owner info) (p'.returnType judge' env owner info) Eq := by
  unfold Program.returnType
  refine C.bind (M.exits? hd howner) fun exits exits' hexits => ?_
  rw [hexits.returns, hexits.yields, List.mapM_map, M.world.builtins]
  refine C.bindEq (C.widenedAll M env _ fun n hn => J.node env n (hexits.askedReturns n hn))
    fun returned => ?_
  refine C.bindLiftEq (Program.agrees_joinOr M.world env .void returned) fun result => ?_
  split
  · refine C.bindEq (C.widenedAll M env _ fun n hn => ?_) fun yielded => ?_
    · obtain ⟨hjudged, expression, isDelegate, hc⟩ := hexits.judgedYields n hn
      exact C.yieldedType M J env hjudged hc
    · refine C.bindLiftEq (Program.agrees_joinOr M.world env .undefined yielded) fun value => ?_
      exact C.lift (TypeM.agrees_intern trivial)
  · split
    · refine C.bindLiftEq (TypeM.agrees_intern trivial) fun error => ?_
      exact C.lift (Program.agrees_promiseOf _ result error)
    · exact C.same result

/-- The inferred type of a declaration. -/
theorem inferredType (M : Mirror C p p' f judged asked resolved)
    (J : C.Asks p p' f asked resolved judge judge') (env : Environment) {d : DeclId}
    {info : Declaration} (hd : p.decl? d = some info)
    (hinferred : info.isInferred = true) :
    C.rel (p.inferredType judge env info) (p'.inferredType judge' env info) Eq := by
  unfold Program.inferredType
  cases hdeclared : info.declaredType with
  | none =>
    cases hnode : info.node with
    | none => exact C.same _
    | some n =>
      refine C.bindEq (J.direct env n (M.declared hd ?_ hnode)) fun _ => C.same _
      unfold Declaration.isInferred at hinferred
      unfold DeclKind.isTypedElement
      split at hinferred
      all_goals simp_all
  | some declared =>
    refine C.bindLift (Program.agrees_signature? declared) ?_
    rintro signature _ ⟨rfl, hsignature⟩
    cases signature with
    | none => exact C.same _
    | some signature =>
      cases hnode : info.node with
      | none => exact C.same _
      | some n =>
        dsimp only
        split
        · exact C.bindEq C.noteFallback fun _ => C.same _
        refine C.bindEq (C.returnType M J _ hd hnode) fun t => ?_
        refine C.bindLiftEq (TypeM.agrees_intern (hsignature signature rfl)) fun _ => C.same _

/-- A declaration with a memo cell. -/
theorem rememberedType (M : Mirror C p p' f judged asked resolved)
    (J : C.Asks p p' f asked resolved judge judge') (env : Environment) {d : DeclId}
    {info : Declaration} (hd : p.decl? d = some info) (hinferred : info.isInferred = true)
    (hwritable : C.writable d) :
    C.rel (p.rememberedType judge env d info) (p'.rememberedType judge' env d info) Eq := by
  unfold Program.rememberedType
  refine C.bindEq (C.memoized? d) fun cell => ?_
  cases cell with
  | some t => exact C.same t
  | none =>
    refine C.bindEq C.fallbackCount fun before => ?_
    refine C.bindEq (C.inferredType M J env hd hinferred) ?_
    rintro ⟨t, isKept⟩
    have hmemoize : C.rel (Program.memoize env before d t) (Program.memoize env before d t) Eq := by
      unfold Program.memoize
      refine C.bindEq C.fallbackCount fun count => ?_
      split
      · exact C.memoize d t hwritable
      · exact C.same _
    cases isKept with
    | true => exact C.bindEq hmemoize fun _ => C.same t
    | false => exact C.same t

theorem elementType (M : Mirror C p p' f judged asked resolved)
    (J : C.Asks p p' f asked resolved judge judge') (env : Environment) {d : DeclId}
    {info : Declaration} (hd : p.decl? (p.world.declarations.canonical d) = some info)
    (hkind : info.kind = .field ∨ info.kind = .parameter ∨ info.kind = .var) :
    C.rel (p.elementType judge env (p.world.declarations.canonical d) info)
      (p'.elementType judge' env (p.world.declarations.canonical d) info) Eq := by
  cases hdeclared : info.declaredType with
  | none =>
    have hinferred : info.isInferred = true := by
      rcases hkind with hkind | hkind | hkind
      all_goals simp only [Declaration.isInferred, hkind, hdeclared, Option.isNone_none]
    rw [Program.elementType_of_inferred hdeclared, Program.elementType_of_inferred hdeclared]
    exact C.rememberedType M J env hd hinferred (M.writable hd hinferred)
  | some declared =>
    simp only [Program.elementType, hdeclared, M.world.builtins]
    split
    · exact C.lift (Program.agrees_arrayOf _ declared)
    · exact C.same declared

theorem signatureType (M : Mirror C p p' f judged asked resolved)
    (J : C.Asks p p' f asked resolved judge judge') (env : Environment) {d : DeclId}
    {info : Declaration} (hd : p.decl? (p.world.declarations.canonical d) = some info)
    (hkind : info.kind = .function ∨ info.kind = .method) :
    C.rel (p.signatureType judge env (p.world.declarations.canonical d) info)
      (p'.signatureType judge' env (p.world.declarations.canonical d) info) Eq := by
  cases hdeclared : info.declaredType with
  | none =>
    simp only [Program.signatureType, hdeclared]
    exact C.same _
  | some declared =>
    cases hreturn : info.has .inferredReturn with
    | false =>
      simp only [Program.signatureType, hdeclared, hreturn]
      exact C.same _
    | true =>
      have hinferred : info.isInferred = true := by
        rcases hkind with hkind | hkind
        all_goals
          simp only [Declaration.isInferred, hkind, hdeclared, hreturn, Option.isSome_some,
            Bool.and_self]
      rw [Program.signatureType_of_inferred hdeclared hreturn,
        Program.signatureType_of_inferred hdeclared hreturn]
      exact C.rememberedType M J env hd hinferred (M.writable hd hinferred)

/-- The rule of a declaration. -/
theorem declarationType (M : Mirror C p p' f judged asked resolved)
    (J : C.Asks p p' f asked resolved judge judge') (env : Environment) {d : DeclId}
    (hvisible : ¬v.hidden d) :
    C.rel (p.declarationType judge env d) (p'.declarationType judge' env d) Eq := by
  have hcanonical := M.world.merged d hvisible
  have hsame : p'.decl? (p.world.declarations.canonical d) =
      p.decl? (p.world.declarations.canonical d) := M.world.visible _ hcanonical
  unfold Program.declarationType
  simp only [M.world.canonical, hsame]
  cases hinfo : p.decl? (p.world.declarations.canonical d) with
  | none => exact C.same _
  | some info =>
    have hsimple {g : TypeId → TypeM TypeId} (hg : ∀ t, TypeM.Agrees v (g t) (g t) Eq) :
        C.rel (liftM (TypeM.simple (p.world.declarations.canonical d)) >>= fun t => liftM (g t))
          (liftM (TypeM.simple (p.world.declarations.canonical d)) >>= fun t => liftM (g t)) Eq :=
      C.bindLiftEq (TypeM.agrees_intern trivial) fun t => C.lift (hg t)
    dsimp only
    cases hkind : info.kind with
    | classType | interfaceType | enumType => exact hsimple fun t => TypeM.agrees_intern trivial
    | typeAlias =>
      cases info.declaredType with
      | none => exact C.same _
      | some aliased => exact C.lift (TypeM.agrees_intern trivial)
    | enumLiteral =>
      cases info.owner with
      | none => exact C.same _
      | some owner => exact C.lift (TypeM.agrees_intern trivial)
    | field => exact C.elementType M J env hinfo (.inl hkind)
    | parameter => exact C.elementType M J env hinfo (.inr (.inl hkind))
    | var => exact C.elementType M J env hinfo (.inr (.inr hkind))
    | function => exact C.signatureType M J env hinfo (.inl hkind)
    | method => exact C.signatureType M J env hinfo (.inr hkind)
    | typeVariable => exact C.lift (TypeM.agrees_typeVariable hcanonical)
    | moduleImport => exact C.lift (TypeM.agrees_intern trivial)
    | getter | setter | dynamic => exact C.same _

/-! ### Nodes -/

/-- The type of the declaration that a node may have. -/
theorem declOrUnknown (J : C.Asks p p' f asked resolved judge judge') (env : Environment)
    {decl : Option DeclId} (h : ∀ d ∈ decl.toList, ¬v.hidden d) :
    C.rel
      (match decl with
        | some d => judge.decl env d
        | none => pure .unknown)
      (match decl with
        | some d => judge'.decl env d
        | none => pure .unknown) Eq := by
  cases decl with
  | none => exact C.same _
  | some d => exact J.decl env d (h d (List.mem_singleton_self _))

/-- The rule of a node.  How statements and patterns fail is left to the correspondence. -/
theorem nodeType (M : Mirror C p p' f judged asked resolved)
    (J : C.Asks p p' f asked resolved judge judge') (env : Environment) {n : NodeId} {c : Content}
    (hn : judged n) (hc : p.content? n = some c) (hreferents : ∀ d ∈ c.referents, ¬v.hidden d)
    (huntypable : c.isTypable = false → ∀ fault : Fault,
      C.rel (throw fault : InferM TypeId) (throw fault : InferM TypeId) Eq) :
    C.rel (p.nodeType judge env n c) (p'.nodeType judge' env n (c.relocate f)) Eq := by
  have hoperand {slot : Slot} (h : slot ∈ c.operands) := C.slot J env (M.operands hn hc h)
  cases c with
  | classDecl | interfaceDecl | enumDecl | enumLiteral | typeAlias | functionDecl | method =>
    exact C.declOrUnknown J env hreferents
  | typeVariable decl =>
    exact C.lift (TypeM.agrees_typeVariable (hreferents decl (List.mem_singleton_self _)))
  | field => exact C.fieldType M J env _ (M.initializer? hn hc) _
  | propertyAssignment => exact C.fieldType M J env _ (M.initializer? hn hc) _
  | variableDecl => exact C.variableType M J env hn hc
  | parameter => exact C.parameterType M J env _ (M.initializer? hn hc) _
  | catchVariable =>
    simp only [Program.nodeType, Content.relocate, untypedElement_eq M]
    exact C.same _
  | objectLiteral => exact C.objectLiteralType M J env hn hc
  | booleanLiteral | numericLiteral | stringLiteral => exact C.lift (TypeM.agrees_intern trivial)
  | regularExpression =>
    simp only [Program.nodeType, Content.relocate, M.world.builtins]
    exact C.same _
  | template => exact C.templateType M hn hc
  | taggedTemplate tag =>
    exact C.taggedTemplateType J env (M.operands hn hc (List.mem_singleton_self _))
  | arrayLiteral => exact C.arrayLiteralType M J env hn hc
  | identifier => exact C.identifierType M J env hreferents (M.isWriteAccess hn hc)
  | thisExpr => exact C.bindLiftEq (agrees_thisTypeAt? M hn hc) fun _ => C.same _
  | superExpr => exact C.lift (agrees_superType M env hn hc)
  | arrayElement | paren | argument => exact hoperand (List.mem_singleton_self _)
  | propertyAccess => exact C.propertyAccessType M J env hn hc hreferents
  | indexedAccess => exact C.indexedAccessType M J env hn hc
  | call => exact C.callType M J env hn hc
  | newExpr => exact C.newType M J env hn hc
  | yieldExpr => exact C.yieldType M J env hn hc
  | awaitExpr => exact C.awaitType M J env hn hc
  | promisify expression =>
    exact C.promisifiedType M J env hn hc (List.mem_singleton_self _) fun _ _ _ => rfl
  | unary op operand =>
    refine C.unaryType J env fun hop => M.operands hn hc ?_
    rw [Content.operands, if_pos hop]
    exact List.mem_singleton_self _
  | binary => exact C.binaryType M J env hn hc
  | conditional condition whenTrue whenFalse =>
    exact C.alternativesType M J env hn hc (by simp [Content.slots]) (by simp [Content.slots])
      (M.operands hn hc (by simp [Content.operands]))
      (M.operands hn hc (by simp [Content.operands]))
  | assignment => exact C.assignmentType M J env hn hc
  | comma expressions =>
    have hlast : (expressions.map (·.map f)).getLast?.getD none =
        (expressions.getLast?.getD none).map f := by
      rw [List.getLast?_map]
      cases expressions.getLast? <;> rfl
    simp only [Program.nodeType, Content.relocate, hlast]
    exact hoperand (List.mem_singleton_self _)
  | jsxElement => exact C.lift (Program.agrees_elementClassType M.world _ _)
  | jsxFragment elementClass =>
    cases elementClass with
    | none => exact C.same _
    | some decl => exact C.lift (TypeM.agrees_intern trivial)
  | variableStatement | expressionStatement | block | returnStatement | forLoop | catchClause
  | variableBinding | arrayPattern | objectPattern | bindingProperty | bindingElement =>
    exact huntypable rfl _
  | _ => exact C.same _

end ScriptTyping.Correspondence
