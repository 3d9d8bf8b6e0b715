import ScriptTyping.Proofs.Judgment.Comparison

/-!
# Comparing the rules of calls, promises and generators

A call collects what its arguments say about type parameters, and asks once more for a callee whose
call may be awaited.

## Main results

* `Comparison.callType`, `Comparison.newType` — calls and constructions.
* `Comparison.yieldType`, `Comparison.awaitType` — generators and promises.
-/

namespace ScriptTyping.Comparison

variable {c : Comparison} {judge : Judge} {judge' : Nat → Judge} {env env' : Environment}
  {T : TypeTable} (p : Program)

/-! ### Calls -/

theorem addCallArguments (hJ : c.Asks p judge judge') (h : c.Scope p T env env')
    {signature : Signature} (hs : c.HasAll T signature.types) {typeArgs : List TypeId}
    (ht : c.HasAll T typeArgs) (args : List Slot) :
    c.rel T (p.addCallArguments judge env signature typeArgs args)
      (fun i => p.addCallArguments (judge' i) env' signature typeArgs args)
      fun T' => c.Scope p T' := by
  have hrest (argTypes : List TypeId) (T₁ : TypeTable) (hg : c.Grows T T₁)
      (ha : c.HasAll T₁ argTypes) : c.rel T₁
      (liftM (TypeArguments.infer p.world p.relation env signature typeArgs argTypes) >>=
        fun s => pure (env.extend s.replacements))
      (fun _ => liftM (TypeArguments.infer p.world p.relation env' signature typeArgs argTypes) >>=
        fun s => pure (env'.extend s.replacements)) fun T' => c.Scope p T' := by
    have h := h.grow hg
    simp only [Program.relation, h.relaxes.inferTypeArguments]
    refine c.bindLift (fun tr => TypeArguments.stable_infer (h.inWorld tr) (hs.grow hg tr)
      (ht.grow hg tr) (ha tr)) fun s T₂ hg₂ hsub => ?_
    exact c.return' (h.grow hg₂).table ((h.grow hg₂).extend fun tr => (hsub tr).replacements)
  unfold Program.addCallArguments
  split
  · exact c.return' h.table h
  · split
    · exact c.bindSame (c.slots hJ h args) hrest
    · exact c.bindSame (c.same _ h.table fun _ => TypeTable.hasAll_nil) hrest

theorem calleeSignature? (hJ : c.Asks p judge judge') (h : c.Scope p T env env') (callee : Slot) :
    c.rel T (p.calleeSignature? judge env callee)
      (fun i => p.calleeSignature? (judge' i) env' callee)
      (c.Same fun T' o => ∀ signature, o = some signature → T'.HasAll signature.types) := by
  unfold Program.calleeSignature?
  refine c.bindSame (c.slot hJ h callee) fun t T₁ hg₁ ht => ?_
  have h := h.grow hg₁
  simp only [h.relaxes.resolveCallable?]
  refine c.bindLift (fun tr => World.stable_resolveCallable? (h.inWorld tr) (ht tr))
    fun callable T₂ hg₂ hc => ?_
  have h := h.grow hg₂
  split
  · rename_i signature hsignature
    obtain ⟨found, hfound, hsome⟩ := Option.bind_eq_some_iff.mp hsignature
    exact c.lift fun tr => Program.stable_signature? (h.table tr)
      (hc tr found hfound signature (Option.mem_toList.mpr hsome))
  · exact c.same _ h.table fun _ _ hs => by cases hs

theorem promisifiedType (hJ : c.Asks p judge judge') (h : c.Scope p T env env')
    (expression : Slot) :
    c.rel T (p.promisifiedType judge env expression)
      (fun i => p.promisifiedType (judge' i) env' expression) (c.Same TypeTable.Has) := by
  unfold Program.promisifiedType
  split
  · rename_i target typeArgs args hcall
    have hargs : c.HasAll T typeArgs := fun tr => (h.setting tr).program.types_at hcall
    refine c.bindSame (c.calleeSignature? p hJ h _) fun signature T₁ hg₁ hs => ?_
    have h := h.grow hg₁
    cases signature with
    | none => exact c.reserved (by decide) h.table
    | some signature =>
      have hs : c.HasAll T₁ signature.types := fun tr => hs tr signature rfl
      refine c.bind (c.addCallArguments p hJ h.wrap hs (hargs.grow hg₁) _)
        fun scope scope' T₂ hg₂ h => ?_
      simp only [h.relaxes.promiseOfCallback?, h.relaxes.substitute]
      refine c.bindLift (fun tr => Program.stable_promiseOfCallback? (h.setting tr)
        (hs.grow hg₂ tr)) fun promise T₃ hg₃ hp => ?_
      have h := h.grow hg₃
      cases promise with
      | none => exact c.reserved (by decide) h.table
      | some promise =>
        exact c.lift fun tr => Environment.stable_substitute (h.table tr)
          (h.setting tr).environment (hp tr promise rfl)
  · exact c.reserved (by decide) h.table

theorem signatureCallType (hJ : c.Asks p judge judge') (h : c.Scope p T env env') (n : NodeId)
    (target : Slot) {signature : Signature} (hs : c.HasAll T signature.types)
    {typeArgs : List TypeId} (hargs : c.HasAll T typeArgs) (args : List Slot) :
    c.rel T (p.signatureCallType judge env n target signature typeArgs args)
      (fun i => p.signatureCallType (judge' i) env' n target signature typeArgs args)
      (c.Same TypeTable.Has) := by
  unfold Program.signatureCallType
  refine c.unlessProvisional h ⟨.callExpression, n⟩ (fun t ht => ⟨_, c.lift fun tr =>
    Environment.stable_substitute (h.table tr) (h.setting tr).environment (ht tr)⟩) ?_
  have h := h.withProvisional ⟨.callExpression, n⟩ (t := signature.returnType)
    fun tr => (hs tr).returnType
  refine c.bind (c.addCallArguments p hJ h hs hargs args) fun scope scope' T₁ hg₁ h => ?_
  have hs := hs.grow hg₁
  simp only [h.relaxes.promiseOfCallback?, h.relaxes.substitute]
  have hrest (returnType : TypeId) (T₂ : TypeTable) (hg₂ : c.Grows T₁ T₂)
      (hr : c.Has T₂ returnType) : c.rel T₂
      (liftM (scope.substitute returnType) >>= fun t => liftM (TypeM.lookup t) >>= fun data =>
        if data.isBoundThis = true then
          liftM (p.hasThisReceiver target) >>= fun isThis =>
            if isThis = true then pure t else liftM (TypeM.upperBound t)
        else pure t)
      (fun _ => liftM (scope.substitute returnType) >>= fun t => liftM (TypeM.lookup t) >>=
        fun data =>
        if data.isBoundThis = true then
          liftM (p.hasThisReceiver target) >>= fun isThis =>
            if isThis = true then pure t else liftM (TypeM.upperBound t)
        else pure t) (c.Same TypeTable.Has) := by
    have h := h.grow hg₂
    refine c.bindLift (fun tr => Environment.stable_substitute (h.table tr)
      (h.setting tr).environment (hr tr)) fun t T₃ hg₃ ht => ?_
    have h := h.grow hg₃
    refine c.bindLift (fun tr => TypeM.stable_lookup (h.table tr) (ht tr)) fun data T₄ hg₄ _ => ?_
    have h := h.grow hg₄
    have ht : c.Has T₄ t := Has.grow ht hg₄
    split
    · refine c.bindLift (fun tr => Program.stable_hasThisReceiver (h.table tr) target)
        fun isThis T₅ hg₅ _ => ?_
      have h := h.grow hg₅
      split
      · exact c.same _ h.table (ht.grow hg₅)
      · exact c.lift fun tr => TypeM.stable_upperBound (h.table tr) (ht.grow hg₅ tr)
    · exact c.same _ h.table ht
  split
  · refine c.bindLift (fun tr => Program.stable_promiseOfCallback? (h.setting tr) (hs tr))
      fun promise T₂ hg₂ hp => ?_
    have h₂ := h.grow hg₂
    have hpromise : c.Has T₂ (promise.getD .unknown) :=
      c.has_getD hp (c.has_reserved (by decide) h₂.table)
    exact c.bindSame (c.same _ h₂.table hpromise) fun t T₃ hg₃ ht =>
      hrest t T₃ (hg₂.trans hg₃) ht
  · exact c.bindSame (c.same _ h.table fun tr => (hs tr).returnType) hrest

theorem callType (hJ : c.Asks p judge judge') (h : c.Scope p T env env') (n : NodeId)
    (target : Slot) {typeArgs : List TypeId} (hargs : c.HasAll T typeArgs) (args : List Slot) :
    c.rel T (p.callType judge env n target typeArgs args)
      (fun i => p.callType (judge' i) env' n target typeArgs args) (c.Same TypeTable.Has) := by
  unfold Program.callType
  refine c.bindSame (c.slot hJ h target) fun targetType T₁ hg₁ ht => ?_
  have h := h.grow hg₁
  simp only [h.relaxes.resolveCallable?]
  refine c.bindLift (fun tr => World.stable_resolveCallable? (h.inWorld tr) (ht tr))
    fun callable T₂ hg₂ hc => ?_
  have h := h.grow hg₂
  split
  · exact c.reservedIf h.table _ (by decide) (by decide)
  · exact c.reservedIf h.table _ (by decide) (by decide)
  · rename_i callee dynamic
    refine c.bindLift (fun tr => Program.stable_signature? (h.table tr)
      (hc tr _ rfl callee (List.mem_singleton_self _))) fun signature T₃ hg₃ hs => ?_
    have h := h.grow hg₃
    cases signature with
    | none => exact c.reserved (by decide) h.table
    | some signature =>
      exact c.signatureCallType p hJ h n target (fun tr => hs tr signature rfl)
        (hargs.grow ((hg₁.trans hg₂).trans hg₃)) args

theorem newType (hJ : c.Asks p judge judge') (h : c.Scope p T env env') (callee : Slot)
    {typeArgs : List TypeId} (hargs : c.HasAll T typeArgs) (args : List Slot) :
    c.rel T (p.newType judge env callee typeArgs args)
      (fun i => p.newType (judge' i) env' callee typeArgs args) (c.Same TypeTable.Has) := by
  unfold Program.newType
  refine c.bindSame (c.slot hJ h callee) fun calleeType T₁ hg₁ hc => ?_
  have h := h.grow hg₁
  simp only [h.relaxes.resolveConstructible?]
  refine c.bindLift (fun tr => World.stable_resolveConstructible? (h.inWorld tr) (hc tr))
    fun newable T₂ hg₂ hn => ?_
  have h := h.grow hg₂
  cases newable with
  | none => exact c.reserved (by decide) h.table
  | some newable =>
    have hn : c.HasAll T₂ (newable.instanceType :: newable.signature.toList) :=
      fun tr => hn tr newable rfl
    have hinstance : c.Has T₂ newable.instanceType := fun tr => hn tr _ (List.mem_cons_self ..)
    dsimp only
    cases hsignature : newable.signature with
    | none =>
      simp only [pure_bind]
      exact c.same _ h.table hinstance
    | some t =>
      have ht : c.Has T₂ t := by
        intro tr
        refine hn tr t ?_
        rw [hsignature]
        exact List.mem_cons_of_mem _ (List.mem_singleton_self _)
      refine c.bindLift (fun tr => Program.stable_signature? (h.table tr) (ht tr))
        fun signature T₃ hg₃ hs => ?_
      have h := h.grow hg₃
      cases signature with
      | none => exact c.same _ h.table (hinstance.grow hg₃)
      | some signature =>
        refine c.bind (c.addCallArguments p hJ h.wrap (fun tr => hs tr signature rfl)
          (hargs.grow ((hg₁.trans hg₂).trans hg₃)) args) fun scope scope' T₄ hg₄ h => ?_
        simp only [h.relaxes.substitute]
        exact c.lift fun tr => Environment.stable_substitute (h.table tr)
          (h.setting tr).environment (hinstance.grow (hg₃.trans hg₄) tr)

/-! ### Generators and promises -/

theorem yieldType (hJ : c.Asks p judge judge') (h : c.Scope p T env env') (n : NodeId)
    (expression : Slot) (isDelegate : Bool) :
    c.rel T (p.yieldType judge env n expression isDelegate)
      (fun i => p.yieldType (judge' i) env' n expression isDelegate) (c.Same TypeTable.Has) := by
  -- Both kinds of `yield` end by reading an argument of a generator type.
  have hargument {T₁ : TypeTable} (h : c.Scope p T₁ env env') {t : TypeId} (ht : c.Has T₁ t)
      (i : Nat) : c.rel T₁ (do return p.generatorArgument (← TypeM.lookup t) i)
      (fun _ => do return p.generatorArgument (← TypeM.lookup t) i) (c.Same TypeTable.Has) := by
    refine c.bindLift (fun tr => TypeM.stable_lookup (h.table tr) (ht tr)) fun data T₂ hg₂ hd => ?_
    have h := h.grow hg₂
    exact c.same _ h.table fun tr => Program.has_generatorArgument (h.table tr) (hd tr).2 i
  unfold Program.yieldType
  split
  · refine c.bindSame (c.slot hJ h expression) fun delegate T₁ hg₁ hd => ?_
    have h := h.grow hg₁
    refine c.bindLift (fun tr => TypeM.stable_upperBound (h.table tr) (hd tr))
      fun bound T₂ hg₂ hb => ?_
    exact hargument (h.grow hg₂) hb 1
  · refine c.bindLift (fun tr => Program.stable_declaredReturn? (h.table tr) (h.world tr) n)
      fun declared T₁ hg₁ hd => ?_
    have h := h.grow hg₁
    cases declared with
    | none => exact c.reserved (by decide) h.table
    | some declared => exact hargument h (fun tr => hd tr declared rfl) 2

theorem awaitType (hJ : c.Asks p judge judge') (h : c.Scope p T env env') (expression : Slot) :
    c.rel T (p.awaitType judge env expression)
      (fun i => p.awaitType (judge' i) env' expression) (c.Same TypeTable.Has) := by
  have hcall {T₁ : TypeTable} (h : c.Scope p T₁ env env') :
      c.rel T₁ (p.isPromisifiableCall judge env expression)
        (fun i => p.isPromisifiableCall (judge' i) env' expression)
        (c.Same fun _ _ => True) := by
    unfold Program.isPromisifiableCall
    split
    · exact c.bindSame (c.calleeSignature? p hJ h _) fun signature T₂ hg₂ _ =>
        c.same _ (h.grow hg₂).table fun _ => trivial
    · exact c.same _ h.table fun _ => trivial
  unfold Program.awaitType
  refine c.bindSame (c.slot hJ h expression) fun awaited T₁ hg₁ ha => ?_
  have h := h.grow hg₁
  refine c.bindLift (fun tr => Program.stable_promiseValue? (h.table tr) (ha tr))
    fun value T₂ hg₂ hv => ?_
  have h := h.grow hg₂
  cases value with
  | some value => exact c.same _ h.table fun tr => hv tr value rfl
  | none =>
    refine c.bindSame (hcall h) fun isCall T₃ hg₃ _ => ?_
    have h := h.grow hg₃
    split
    · refine c.bindSame (c.promisifiedType p hJ h expression) fun promisified T₄ hg₄ hp => ?_
      have h := h.grow hg₄
      refine c.bindLift (fun tr => Program.stable_promiseValue? (h.table tr) (hp tr))
        fun value T₅ hg₅ hv => ?_
      exact c.same _ (h.grow hg₅).table (c.has_getD hv (Has.grow hp hg₅))
    · exact c.same _ h.table (Has.grow ha (hg₂.trans hg₃))

end ScriptTyping.Comparison
