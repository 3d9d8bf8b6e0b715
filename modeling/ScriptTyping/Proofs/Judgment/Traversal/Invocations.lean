import ScriptTyping.Judgment.Infer
import ScriptTyping.Proofs.Judgment.Correspondence

/-!
# Calls, promises and generators on two programs

Whether an awaited expression is a call depends on the shape of a child, which the two programs
share where it matters.

## Main results

* `Correspondence.callType`, `Correspondence.newType` — calls and constructions.
* `Correspondence.yieldType`, `Correspondence.awaitType` — generators and promises.
-/

namespace ScriptTyping.Correspondence

variable {v : Veil} {C : Correspondence v} {p p' : Program} {f : NodeId → NodeId}
  {judged asked resolved : NodeId → Prop} {judge judge' : Judge}

/-! ### Calls -/

theorem addCallArguments (M : Mirror C p p' f judged asked resolved)
    (J : C.Asks p p' f asked resolved judge judge') (env : Environment) {signature : Signature}
    (hsignature : signature.Hides v) (typeArgs : List TypeId) {args : List Slot}
    (hargs : ∀ slot ∈ args, slot.Satisfies asked) :
    C.rel (p.addCallArguments judge env signature typeArgs args)
      (p'.addCallArguments judge' env signature typeArgs (args.map (·.map f))) Eq := by
  have hinfer (argTypes : List TypeId) := C.bindLiftEq
    (TypeArguments.agrees_infer M.world (Program.agrees_relation M.world) env hsignature typeArgs
      argTypes)
    (g := fun s => pure (s.replacements.foldl (fun env entry =>
      env.addSubstitution entry.1 entry.2) env)) fun s => C.same _
  unfold Program.addCallArguments
  split
  · exact C.same env
  dsimp only
  split
  · exact C.bindEq (C.slots J env hargs) hinfer
  · exact C.bindEq (C.same []) hinfer

theorem calleeSignature? (M : Mirror C p p' f judged asked resolved)
    (J : C.Asks p p' f asked resolved judge judge') (env : Environment) {callee : Slot}
    (hcallee : callee.Satisfies resolved) :
    C.rel (p.calleeSignature? judge env callee) (p'.calleeSignature? judge' env (callee.map f))
      fun o o' => o = o' ∧ ∀ s, o = some s → s.Hides v := by
  unfold Program.calleeSignature?
  refine C.bind (C.receiverSlot M J env hcallee) fun t t' ht => ?_
  refine C.bindLift (ht.callable env) ?_
  rintro callable _ ⟨rfl, -⟩
  split
  · exact C.lift (Program.agrees_signature? _)
  · exact C.return' ⟨rfl, fun _ h => by cases h⟩

/-- The call that an `await` or a promise form is about is one in both trees. -/
private theorem shows_call {c : Content} {o o' : Option Content} (h : c.Shows f o o')
    (hc : ∀ target typeArgs args, c.inspects (.call target typeArgs args) = true) :
    (∃ target typeArgs args, o = some (.call target typeArgs args) ∧
      o' = some (.call (target.map f) typeArgs (args.map (·.map f)))) ∨
    (∀ target typeArgs args, o ≠ some (.call target typeArgs args)) ∧
      ∀ target typeArgs args, o' ≠ some (.call target typeArgs args) := by
  rcases h with rfl | ⟨d, d', rfl, rfl, hd, hd'⟩
  · by_cases hcall : ∃ target typeArgs args, o = some (.call target typeArgs args)
    · obtain ⟨target, typeArgs, args, rfl⟩ := hcall
      exact .inl ⟨target, typeArgs, args, rfl, rfl⟩
    · refine .inr ⟨fun target typeArgs args h => hcall ⟨target, typeArgs, args, h⟩, ?_⟩
      intro target typeArgs args h
      obtain ⟨d, rfl, hd⟩ := Option.map_eq_some_iff.mp h
      cases d with
      | call target typeArgs args => exact hcall ⟨target, typeArgs, args, rfl⟩
      | _ => cases hd
  · refine .inr ⟨fun target typeArgs args h => ?_, fun target typeArgs args h => ?_⟩
    · cases h
      rw [hc] at hd
      cases hd
    · cases h
      rw [hc] at hd'
      cases hd'

/-- The parts of a call that a node looks at. -/
private theorem call_parts (M : Mirror C p p' f judged asked resolved) {n : NodeId} {c : Content}
    {slot target : Slot} {typeArgs : List TypeId} {args : List Slot} (hn : judged n)
    (hc : p.content? n = some c) (hslot : slot ∈ c.inspected)
    (h : p.contentAt? slot = some (.call target typeArgs args)) :
    target.Satisfies resolved ∧ ∀ arg ∈ args, arg.Satisfies asked := by
  obtain ⟨m, rfl, hm⟩ := Option.bind_eq_some_iff.mp h
  exact ⟨M.receiver? hm, fun arg harg => M.operands (M.calls hn hc hslot m rfl hm) hm harg⟩

/-- The promise form of a call. -/
theorem promisifiedType_of_call (M : Mirror C p p' f judged asked resolved)
    (J : C.Asks p p' f asked resolved judge judge') (env : Environment) {slot slot' target : Slot}
    {typeArgs : List TypeId} {args : List Slot}
    (hcall : p.contentAt? slot = some (.call target typeArgs args))
    (hcall' : p'.contentAt? slot' = some (.call (target.map f) typeArgs (args.map (·.map f))))
    (htarget : target.Satisfies resolved) (hargs : ∀ arg ∈ args, arg.Satisfies asked) :
    C.rel (p.promisifiedType judge env slot) (p'.promisifiedType judge' env slot') Eq := by
  unfold Program.promisifiedType
  rw [hcall, hcall']
  refine C.bind (C.calleeSignature? M J env htarget) ?_
  rintro signature _ ⟨rfl, hsignature⟩
  cases signature with
  | none => exact C.same _
  | some signature =>
    refine C.bindEq (C.addCallArguments M J env.wrap (hsignature signature rfl) typeArgs hargs)
      fun env => ?_
    refine C.bindLiftEq (Program.agrees_promiseOfCallback? M.world env signature)
      fun promise => ?_
    cases promise with
    | none => exact C.same _
    | some promise => exact C.lift (env.agrees_substitute promise)

theorem promisifiedType (M : Mirror C p p' f judged asked resolved)
    (J : C.Asks p p' f asked resolved judge judge') (env : Environment) {n : NodeId} {c : Content}
    {expression : Slot} (hn : judged n) (hc : p.content? n = some c)
    (hslot : expression ∈ c.inspected)
    (hcall : ∀ target typeArgs args, c.inspects (.call target typeArgs args) = true) :
    C.rel (p.promisifiedType judge env expression)
      (p'.promisifiedType judge' env (expression.map f)) Eq := by
  rcases shows_call (M.inspected hn hc hslot) hcall with
    ⟨target, typeArgs, args, hcall, hcall'⟩ | ⟨hno, hno'⟩
  · obtain ⟨htarget, hargs⟩ := call_parts M hn hc hslot hcall
    exact C.promisifiedType_of_call M J env hcall hcall' htarget hargs
  · unfold Program.promisifiedType
    split
    · exact absurd ‹_› (hno _ _ _)
    · exact C.same _

theorem isPromisifiableCall (M : Mirror C p p' f judged asked resolved)
    (J : C.Asks p p' f asked resolved judge judge') (env : Environment) {n : NodeId} {c : Content}
    {expression : Slot} (hn : judged n) (hc : p.content? n = some c)
    (hslot : expression ∈ c.inspected)
    (hcall : ∀ target typeArgs args, c.inspects (.call target typeArgs args) = true) :
    C.rel (p.isPromisifiableCall judge env expression)
      (p'.isPromisifiableCall judge' env (expression.map f)) Eq := by
  have hpromisifiable : p'.isPromisifiable = p.isPromisifiable :=
    funext (Program.AlikeBut.isPromisifiable M.world)
  unfold Program.isPromisifiableCall
  rcases shows_call (M.inspected hn hc hslot) hcall with
    ⟨target, typeArgs, args, hcall, hcall'⟩ | ⟨hno, hno'⟩
  · obtain ⟨htarget, -⟩ := call_parts M hn hc hslot hcall
    rw [hcall, hcall', hpromisifiable]
    refine C.bind (C.calleeSignature? M J env htarget) ?_
    rintro signature _ ⟨rfl, -⟩
    exact C.same _
  · split
    · exact absurd ‹_› (hno _ _ _)
    · exact C.same _

theorem signatureCallType (M : Mirror C p p' f judged asked resolved)
    (J : C.Asks p p' f asked resolved judge judge') (env : Environment) {n : NodeId}
    {target : Slot} {typeArgs : List TypeId} {args : List Slot} (hn : judged n)
    (hc : p.content? n = some (.call target typeArgs args)) {signature : Signature}
    (hsignature : signature.Hides v) :
    C.rel (p.signatureCallType judge env n target signature typeArgs args)
      (p'.signatureCallType judge' env n (target.map f) signature typeArgs (args.map (·.map f)))
      Eq := by
  unfold Program.signatureCallType
  dsimp only
  split
  · exact C.bindEq C.noteFallback fun _ => C.lift (env.agrees_substitute _)
  refine C.bindEq (C.addCallArguments M J _ hsignature typeArgs fun arg harg =>
    M.operands hn hc harg) fun env => ?_
  have hend (t : TypeId) : C.rel
      (do
        let t ← env.substitute t
        if (← TypeM.lookup t).isBoundThis then
          if ← p.hasThisReceiver target then return t
          TypeM.upperBound t
        else return t : InferM TypeId)
      (do
        let t ← env.substitute t
        if (← TypeM.lookup t).isBoundThis then
          if ← p'.hasThisReceiver (target.map f) then return t
          TypeM.upperBound t
        else return t : InferM TypeId) Eq := by
    refine C.bindLiftEq (env.agrees_substitute t) fun t => C.bindLookup fun data _ => ?_
    split
    · refine C.bindEq (M.hasThisReceiver hn hc (List.mem_cons_self ..)) fun hasThis => ?_
      split
      · exact C.same t
      · exact C.lift (TypeM.agrees_upperBound t)
    · exact C.same t
  rw [M.isAwaited hn hc, Program.AlikeBut.isPromisifiable M.world]
  split
  · refine C.bindLiftEq (Program.agrees_promiseOfCallback? M.world env signature) fun promise => ?_
    exact C.bindEq (C.same _) hend
  · exact C.bindEq (C.same _) hend

theorem callType (M : Mirror C p p' f judged asked resolved)
    (J : C.Asks p p' f asked resolved judge judge') (env : Environment) {n : NodeId}
    {target : Slot} {typeArgs : List TypeId} {args : List Slot} (hn : judged n)
    (hc : p.content? n = some (.call target typeArgs args)) :
    C.rel (p.callType judge env n target typeArgs args)
      (p'.callType judge' env n (target.map f) typeArgs (args.map (·.map f))) Eq := by
  unfold Program.callType
  refine C.bind (C.receiverSlot M J env (M.receiver? hc)) fun t t' ht => ?_
  refine C.bindLift (ht.callable env) ?_
  rintro callable _ ⟨rfl, hdynamic⟩
  match callable with
  | none =>
    simp only [hdynamic rfl]
    exact C.same _
  | some ⟨none, dynamic⟩ => exact C.same _
  | some ⟨some callee, dynamic⟩ =>
    refine C.bindLift (Program.agrees_signature? callee) ?_
    rintro signature _ ⟨rfl, hsignature⟩
    cases signature with
    | none => exact C.same _
    | some signature => exact C.signatureCallType M J env hn hc (hsignature signature rfl)

/-- The instance that a constructor with a known signature creates. -/
private theorem constructedType (M : Mirror C p p' f judged asked resolved)
    (J : C.Asks p p' f asked resolved judge judge') (env : Environment) (instanceType : TypeId)
    (typeArgs : List TypeId) {args : List Slot} (hargs : ∀ slot ∈ args, slot.Satisfies asked)
    {o o' : Option Signature} (ho : o = o' ∧ ∀ s, o = some s → s.Hides v) :
    C.rel
      (match o with
        | none => pure instanceType
        | some signature => do
          let env ← p.addCallArguments judge env.wrap signature typeArgs args
          env.substitute instanceType)
      (match o' with
        | none => pure instanceType
        | some signature => do
          let env ← p'.addCallArguments judge' env.wrap signature typeArgs (args.map (·.map f))
          env.substitute instanceType) Eq := by
  obtain ⟨rfl, hsignature⟩ := ho
  cases o with
  | none => exact C.same _
  | some signature =>
    refine C.bindEq (C.addCallArguments M J env.wrap (hsignature signature rfl) typeArgs hargs)
      fun env => ?_
    exact C.lift (env.agrees_substitute _)

theorem newType (M : Mirror C p p' f judged asked resolved)
    (J : C.Asks p p' f asked resolved judge judge') (env : Environment) {n : NodeId}
    {callee : Slot} {typeArgs : List TypeId} {args : List Slot} (hn : judged n)
    (hc : p.content? n = some (.newExpr callee typeArgs args)) :
    C.rel (p.newType judge env callee typeArgs args)
      (p'.newType judge' env (callee.map f) typeArgs (args.map (·.map f))) Eq := by
  unfold Program.newType
  refine C.bind (C.receiverSlot M J env (M.receiver? hc)) fun t t' ht => ?_
  refine C.bindLiftEq (ht.constructible env) fun newable => ?_
  cases newable with
  | none => exact C.same _
  | some newable =>
    have hargs : ∀ slot ∈ args, slot.Satisfies asked := fun slot hslot => M.operands hn hc hslot
    dsimp only
    split
    · exact C.bindLift (Program.agrees_signature? _) fun _ _ ho =>
        C.constructedType M J env _ typeArgs hargs ho
    · exact C.bind (C.return' ⟨rfl, fun _ h => by cases h⟩) fun _ _ ho =>
        C.constructedType M J env _ typeArgs hargs ho

/-! ### Generators and promises -/

theorem agrees_declaredReturn? (M : Mirror C p p' f judged asked resolved) {n : NodeId}
    {c : Content} (hn : judged n) (hc : p.content? n = some c) :
    TypeM.Agrees v (p.declaredReturn? n) (p'.declaredReturn? n) Eq := by
  obtain ⟨hdeclared, hvisible⟩ := M.enclosingFunction? hn hc
  have hinfo : (((p'.tree.enclosingFunction? n true).bind p'.content?).bind fun content =>
      content.declared?.bind p'.decl?) =
      ((p.tree.enclosingFunction? n true).bind p.content?).bind fun content =>
        content.declared?.bind p.decl? := by
    rw [← Option.bind_assoc, ← Option.bind_assoc, hdeclared]
    cases hd : ((p.tree.enclosingFunction? n true).bind p.content?).bind Content.declared? with
    | none => rfl
    | some d => exact M.world.visible d (hvisible d hd)
  unfold Program.declaredReturn?
  simp only [hinfo]
  split
  · exact (Program.agrees_signatureEq? _).bindEq fun _ => TypeM.agrees_same _
  · exact TypeM.agrees_same none

theorem yieldType (M : Mirror C p p' f judged asked resolved)
    (J : C.Asks p p' f asked resolved judge judge') (env : Environment) {n : NodeId}
    {expression : Slot} {isDelegate : Bool} (hn : judged n)
    (hc : p.content? n = some (.yieldExpr expression isDelegate)) :
    C.rel (p.yieldType judge env n expression isDelegate)
      (p'.yieldType judge' env n (expression.map f) isDelegate) Eq := by
  unfold Program.yieldType
  simp only [Program.generatorArgument_eq M.world]
  split
  · refine C.bindEq (C.slot J env (M.operands hn hc (List.mem_singleton_self _))) fun t => ?_
    exact C.bindLiftEq (TypeM.agrees_upperBound t) fun _ => C.bindLookup fun _ _ => C.same _
  · refine C.bindLiftEq (agrees_declaredReturn? M hn hc) fun declared => ?_
    cases declared with
    | none => exact C.same _
    | some declared => exact C.bindLookup fun _ _ => C.same _

theorem awaitType (M : Mirror C p p' f judged asked resolved)
    (J : C.Asks p p' f asked resolved judge judge') (env : Environment) {n : NodeId}
    {expression : Slot} (hn : judged n) (hc : p.content? n = some (.awaitExpr expression)) :
    C.rel (p.awaitType judge env expression) (p'.awaitType judge' env (expression.map f)) Eq := by
  have hslot : expression ∈ Content.inspected (.awaitExpr expression) := List.mem_singleton_self _
  have hcall (target : Slot) (typeArgs : List TypeId) (args : List Slot) :
      Content.inspects (.awaitExpr expression) (.call target typeArgs args) = true := rfl
  unfold Program.awaitType
  refine C.bindEq (C.slot J env (M.operands hn hc (List.mem_singleton_self _))) fun awaited => ?_
  refine C.bindLiftEq (Program.agrees_promiseValue? M.world awaited) fun value => ?_
  cases value with
  | some value => exact C.same _
  | none =>
    refine C.bindEq (C.isPromisifiableCall M J env hn hc hslot hcall) fun isPromisifiable => ?_
    split
    · refine C.bindEq (C.promisifiedType M J env hn hc hslot hcall) fun promisified => ?_
      exact C.bindLiftEq (Program.agrees_promiseValue? M.world promisified) fun _ => C.same _
    · exact C.same _

end ScriptTyping.Correspondence
