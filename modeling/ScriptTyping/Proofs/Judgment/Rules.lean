import ScriptTyping.Proofs.Judgment.MemoCells
import ScriptTyping.Proofs.Judgment.Rules.Elements
import ScriptTyping.Proofs.Judgment.Rules.Expressions
import ScriptTyping.Proofs.Judgment.Rules.Invocations

/-!
# The rules of the judgment, compared

Each rule is compared with itself, asking related judges under environments that differ in guards
only.  The rules that read or write memo cells are left to the comparisons that use this.

## Main results

* `Comparison.nodeType` — the rule of a node.
* `Comparison.returnType` — the return type of a body.
* `Comparison.inferredType` — the inferred type of a declaration.
-/

namespace ScriptTyping.Comparison

variable {c : Comparison} {judge : Judge} {judge' : Nat → Judge} {env env' : Environment}
  {T : TypeTable} (p : Program)

/-! ### Bodies and nodes -/

theorem yieldedType (hJ : c.Asks p judge judge') (h : c.Scope p T env env') (n : NodeId) :
    c.rel T (p.yieldedType judge env n) (fun i => p.yieldedType (judge' i) env' n)
      (c.Same TypeTable.Has) := by
  unfold Program.yieldedType
  split
  · refine c.bindSame (c.slot hJ h _) fun iterated T₁ hg₁ hi => ?_
    have h := h.grow hg₁
    simp only [h.relaxes.iterableElement?]
    refine c.bindLift (fun tr => Program.stable_iterableElement? (h.setting tr) (hi tr) false)
      fun element T₂ hg₂ he => ?_
    have h := h.grow hg₂
    exact c.orReserved he (by decide) h.table
  · exact hJ.node h _
  · exact c.reserved (by decide) h.table

/-- The widened answers of several questions. -/
theorem widenedAll {α : Type} {ask : α → InferM TypeId} {ask' : Nat → α → InferM TypeId}
    (h : c.Scope p T env env') (l : List α)
    (hask : ∀ a T', c.Grows T T' → c.rel T' (ask a) (fun i => ask' i a) (c.Same TypeTable.Has)) :
    c.rel T (l.mapM fun a => do p.widen env (← ask a))
      (fun i => l.mapM fun a => do p.widen env (← ask' i a)) (c.Same TypeTable.HasAll) := by
  refine c.mapM (P := TypeTable.Has) (fun _ _ _ => TypeTable.Has.of_le) l h.table fun a T₁ hg₁ => ?_
  refine c.bindSame (hask a T₁ hg₁) fun t T₂ hg₂ ht => ?_
  exact c.lift fun tr => stable_widenLiterals ((h.grow (hg₁.trans hg₂)).inWorld tr) (ht tr)

/-- The return type of a body. -/
theorem returnType (hJ : c.Asks p judge judge') (h : c.Scope p T env env') (owner : NodeId)
    (info : Declaration) :
    c.rel T (p.returnType judge env owner info)
      (fun i => p.returnType (judge' i) env' owner info) (c.Same TypeTable.Has) := by
  unfold Program.returnType
  simp only [h.relaxes.widen, h.relaxes.joinOr]
  refine c.bindLift (P := fun _ _ => True) (fun tr => .ofOption (h.table tr) fun _ _ => trivial)
    fun exits T₁ hg₁ _ => ?_
  have h := h.grow hg₁
  refine c.bindSame (c.widenedAll p h _ fun n _ hg => hJ.node (h.grow hg) n)
    fun returned T₂ hg₂ hr => ?_
  have h := h.grow hg₂
  refine c.bindLift (fun tr => Program.stable_joinOr (h.setting tr)
    (c.has_reserved (by decide) h.table tr) (hr tr)) fun result T₃ hg₃ hresult => ?_
  have h := h.grow hg₃
  split
  · refine c.bindSame (c.widenedAll p h _ fun n _ hg => c.yieldedType p hJ (h.grow hg) n)
      fun yielded T₄ hg₄ hy => ?_
    have h := h.grow hg₄
    refine c.bindLift (fun tr => Program.stable_joinOr (h.setting tr)
      (c.has_reserved (by decide) h.table tr) (hy tr)) fun value T₅ hg₅ hvalue => ?_
    have h := h.grow hg₅
    refine c.lift fun tr => TypeM.stable_nominal (h.table tr) _ ?_
    exact (hvalue tr).hasAll.append ((Has.grow hresult (hg₄.trans hg₅) tr).hasAll.append
      (c.has_reserved (by decide) h.table tr).hasAll)
  · split
    · have hnone : T₃.HasAll (none : Option TypeId).toList := TypeTable.hasAll_nil
      refine c.bindLift (fun tr => TypeM.stable_wildcard (h.table tr) hnone _)
        fun error T₄ hg₄ he => ?_
      exact c.lift fun tr => Program.stable_promiseOf (hg₄ tr).wellFormed
        (Has.grow hresult hg₄ tr) (he tr)
    · exact c.same _ h.table hresult

/-- The type of the declaration that a node may have. -/
theorem declOrUnknown (hJ : c.Asks p judge judge') (h : c.Scope p T env env')
    (decl : Option DeclId) :
    c.rel T
      (match decl with
        | some d => judge.decl env d
        | none => pure .unknown)
      (fun i => match decl with
        | some d => (judge' i).decl env' d
        | none => pure .unknown) (c.Same TypeTable.Has) := by
  cases decl with
  | none => exact c.reserved (by decide) h.table
  | some d => exact hJ.decl h d

/-- The rule of a node. -/
theorem nodeType (hJ : c.Asks p judge judge') (h : c.Scope p T env env') {n : NodeId}
    {content : Content} (hn : p.content? n = some content) :
    c.rel T (p.nodeType judge env n content) (fun i => p.nodeType (judge' i) env' n content)
      (c.Same TypeTable.Has) := by
  have htypes : c.HasAll T content.types := fun tr => (h.setting tr).program.types n content hn
  have htexts (tr : c.tracked) := (h.setting tr).program.texts n content hn
  have hdeclared {declared : Option TypeId} {absent : TypeId} (hd : c.HasAll T declared.toList)
      (ha : absent.index < TypeId.firstDynamic) :
      c.rel T (pure (declared.getD absent)) (fun _ => pure (declared.getD absent))
        (c.Same TypeTable.Has) :=
    c.orReserved (fun tr s hs => hd tr s (Option.mem_toList.mpr hs)) ha h.table
  cases content with
  | classDecl | interfaceDecl | enumDecl | enumLiteral | typeAlias | functionDecl | method =>
    exact c.declOrUnknown p hJ h _
  | typeVariable => exact c.lift fun tr => TypeM.stable_typeVariable (h.table tr) _
  | getter | setter => exact hdeclared htypes (by decide)
  | field | propertyAssignment => exact c.fieldType p hJ h htypes _ _
  | variableDecl => exact c.variableType p hJ h n htypes _ _
  | parameter => exact c.parameterType p hJ h htypes _ _
  | catchVariable => exact c.same _ h.table (c.has_untypedElement p h.table)
  | objectLiteral => exact c.objectLiteralType p hJ h _
  | booleanLiteral | numericLiteral | stringLiteral =>
    exact c.lift fun tr => TypeM.stable_literal (h.table tr) _
  | regularExpression =>
    exact c.same _ h.table fun tr => (h.world tr).builtins _ (by simp [Builtins.types])
  | template => exact c.lift fun tr => Program.stable_templateType (h.table tr) _
  | taggedTemplate => exact c.taggedTemplateType p hJ h _
  | arrayLiteral => exact c.arrayLiteralType p hJ h _
  | identifier => exact c.identifierType p hJ h n _
  | thisExpr =>
    refine c.bindLift (fun tr => Program.stable_thisTypeAt? (h.table tr) n) fun t T₁ hg₁ ht => ?_
    have h := h.grow hg₁
    exact c.orReserved ht (by decide) h.table
  | superExpr =>
    simp only [Program.nodeType, h.relaxes.superType]
    exact c.lift fun tr => Program.stable_superType (h.setting tr) n
  | arrayElement | paren | argument | comma => exact c.slot hJ h _
  | propertyAccess target name property typeArgs =>
    exact c.propertyAccessType p hJ h n target
      (fun tr => htexts tr name (List.mem_singleton_self _)) property htypes
  | indexedAccess => exact c.indexedAccessType p hJ h _ _
  | call => exact c.callType p hJ h n _ htypes _
  | newExpr => exact c.newType p hJ h _ htypes _
  | yieldExpr => exact c.yieldType p hJ h n _ _
  | awaitExpr => exact c.awaitType p hJ h _
  | promisify => exact c.promisifiedType p hJ h _
  | unary => exact c.unaryType p hJ h _ _
  | binary => exact c.binaryType p hJ h _ _ _
  | conditional => exact c.alternativesType p hJ h _ _
  | assignment => exact c.assignmentType p hJ h _ _ _
  | cast => exact hdeclared htypes (by decide)
  | jsxElement => exact c.lift fun tr => Program.stable_elementClassType (h.table tr) _ (htypes tr)
  | jsxFragment elementClass =>
    cases elementClass with
    | none => exact c.reserved (by decide) h.table
    | some decl => exact c.lift fun tr => TypeM.stable_simple (h.table tr) decl
  | variableStatement | expressionStatement | block | returnStatement | forLoop | catchClause
  | variableBinding | arrayPattern | objectPattern | bindingProperty | bindingElement =>
    exact c.fail _
  | _ => exact c.reserved (by decide) h.table

/-- The inferred type of a declaration. -/
theorem inferredType (hJ : c.Asks p judge judge') (h : c.Scope p T env env') {info : Declaration}
    (hd : c.HasAll T info.declaredType.toList) :
    c.rel T (p.inferredType judge env info) (fun i => p.inferredType (judge' i) env' info)
      (c.Same fun T' result => T'.Has result.1) := by
  unfold Program.inferredType
  cases hdeclared : info.declaredType with
  | none =>
    cases info.node with
    | none => exact c.same _ h.table (c.has_reserved (t := .any) (by decide) h.table)
    | some n =>
      exact c.bindSame (hJ.node h n) fun t T₁ hg₁ ht => c.same _ (h.grow hg₁).table ht
  | some declared =>
    have hd : c.Has T declared := fun tr => hd tr declared (Option.mem_toList.mpr hdeclared)
    refine c.bindLift (fun tr => Program.stable_signature? (h.table tr) (hd tr))
      fun signature T₁ hg₁ hs => ?_
    have h := h.grow hg₁
    have hkept : c.rel T₁ (pure (declared, false)) (fun _ => pure (declared, false))
        (c.Same fun T' result => T'.Has result.1) := c.same _ h.table (hd.grow hg₁)
    cases signature with
    | none => exact hkept
    | some signature =>
      cases info.node with
      | none => exact hkept
      | some n =>
        dsimp only
        cases hkey : env.isGuarded ⟨.functionReturn, n⟩ with
        | true => exact c.fallback hkept
        | false =>
          simp only [h.relaxes.isGuarded_eq_false hkey]
          refine c.bindSame (c.returnType p hJ (h.withGuard _) n info) fun t T₂ hg₂ ht => ?_
          have h := h.grow hg₂
          refine c.bindLift (fun tr => TypeM.stable_intern_has (h.table tr)
            (((hs tr signature rfl).of_le (hg₂ tr).le).withReturnType (ht tr)))
            fun t T₃ hg₃ ht => ?_
          exact c.same _ (h.grow hg₃).table ht

end ScriptTyping.Comparison
