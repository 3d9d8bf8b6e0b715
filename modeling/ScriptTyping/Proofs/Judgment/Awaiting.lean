import ScriptTyping.Proofs.Hierarchy.Abbreviation
import ScriptTyping.Proofs.Judgment.GuardIndependence
import ScriptTyping.Proofs.Judgment.Inquiry
import ScriptTyping.Proofs.Judgment.Repetition
import ScriptTyping.Proofs.Substitution.Layer

/-!
# Awaiting a call that has a promise form

A call of a function that reports its result to a callback has a promise form: a promise of what the
callback receives.  The call takes this form by itself where it is awaited, and the `await` takes
the promise apart.  So the call and its promise form are inferred by two rules, which agree: the
call only sets a guard in addition, and a guard does not show without a fallback.

If there is no callback, then the form is unknown and there is nothing to take apart.  In this case
only, the `await` looks at the callee again.  The second look gives what the first one gave, unless
the first one wrote memo cells that the second one reads.

## Main definitions

* `Program.IsPromise` — a reference to the declaration of promises.

## Main results

* `Program.promisifiedType_of_callType` — an awaited call has its promise form as its type.
* `Program.awaitType_of_callType` — what an `await` of such a call gives.
-/

namespace ScriptTyping

namespace Program

variable {p : Program} {judge : Judge} {env : Environment} {n call : NodeId} {target : Slot}
  {typeArgs : List TypeId} {args : List Slot} {signature : Signature} {s s₀ s' : Memory}
  {t : TypeId} {T T' : TypeTable}

/-- A call with a known signature. -/
theorem callType_of_calleeSignature?
    (h : p.calleeSignature? judge env target s = .ok (some signature) s₀) :
    p.callType judge env n target typeArgs args s =
      p.signatureCallType judge env n target signature typeArgs args s₀ := by
  obtain ⟨targetType, s₁, htarget, h⟩ := InferM.bind_eq_ok.mp h
  obtain ⟨callable, s₂, hcallable, h⟩ := InferM.bind_eq_ok.mp h
  unfold callType
  rw [InferM.bind_of_ok htarget, InferM.bind_of_ok hcallable]
  match callable with
  | none => cases h
  | some ⟨none, dynamic⟩ => cases h
  | some ⟨some callee, dynamic⟩ =>
    exact InferM.bind_of_ok h

/-- A type that is a reference to the declaration of promises. -/
def IsPromise (p : Program) (T : TypeTable) (t : TypeId) : Prop :=
  ∃ args, T.lookup t = .nominal p.world.builtins.promise args

/-- What a callback describes is made by the constructor of promises. -/
theorem promiseOfCallback?_eq_some {promise : TypeId}
    (h : p.promiseOfCallback? env signature T = .ok (some promise) T') :
    ∃ value error T₁, p.world.builtins.promiseOf value error T₁ = .ok promise T' := by
  unfold promiseOfCallback? at h
  cases hlast : signature.params.getLast? with
  | none =>
    rw [hlast] at h
    cases h
  | some callback =>
    rw [hlast] at h
    obtain ⟨upper, T₁, -, h⟩ := TypeM.bind_eq_ok.mp h
    obtain ⟨found, T₂, -, h⟩ := TypeM.bind_eq_ok.mp h
    cases found with
    | none => cases h
    | some callback =>
      dsimp only at h
      generalize callback.params.map (·.type) = types at h
      cases types
      all_goals
        obtain ⟨hasError, T₃, -, h⟩ := TypeM.bind_eq_ok.mp h
        obtain ⟨value, T₄, -, h⟩ := TypeM.bind_eq_ok.mp h
        obtain ⟨made, T₅, hmade, h⟩ := TypeM.bind_eq_ok.mp h
        obtain ⟨hsome, rfl⟩ := TypeM.pure_eq_ok.mp h
        obtain rfl := Option.some.inj hsome
        exact ⟨value, _, T₄, hmade⟩

theorem isPromise_of_promiseOf {value error promise : TypeId} (hT' : T'.WellFormed)
    (h : p.world.builtins.promiseOf value error T = .ok promise T') : p.IsPromise T' promise := by
  have hintern : EStateM.Result.ok (T.intern (.nominal p.world.builtins.promise [value, error])).1
    (T.intern (.nominal p.world.builtins.promise [value, error])).2 = .ok promise T' := h
  injection hintern with hpromise hT
  subst hpromise hT
  exact ⟨_, TypeTable.lookup_eq (hT'.handles_sound _ _ (TypeTable.handles_intern T _))⟩

/-- The steps of an awaited call of a function with a promise form. -/
theorem signatureCallType_eq_ok (hawaited : p.isAwaited n = true)
    (hpromisifiable : p.isPromisifiable signature = true)
    (h : p.signatureCallType judge env n target signature typeArgs args s = .ok t s') :
    (∃ preliminary, env.guardState ⟨.callExpression, n⟩ = .provisional preliminary ∧
      s'.fallbacks = s.fallbacks + 1) ∨
    ∃ scope s₁ promise T₁ u T₂,
      (∀ preliminary, env.guardState ⟨.callExpression, n⟩ ≠ .provisional preliminary) ∧
      p.addCallArguments judge (env.withProvisional ⟨.callExpression, n⟩ signature.returnType)
        signature typeArgs args s = .ok scope s₁ ∧
      p.promiseOfCallback? scope signature s₁.types = .ok promise T₁ ∧
      scope.substitute (promise.getD .unknown) T₁ = .ok u T₂ ∧
      ((T₂.lookup u).isBoundThis = false → t = u ∧ s' = { s₁ with types := T₂ }) := by
  unfold signatureCallType at h
  dsimp only at h
  cases hkey : env.guardState ⟨.callExpression, n⟩ with
  | provisional preliminary =>
    rw [hkey] at h
    obtain ⟨⟨⟩, s₁, hnote, h⟩ := InferM.bind_eq_ok.mp h
    cases hnote
    obtain ⟨T₁, -, rfl⟩ := InferM.liftM_eq_ok.mp h
    exact .inl ⟨preliminary, rfl, rfl⟩
  | absent | active =>
    rw [hkey] at h
    obtain ⟨scope, s₁, hscope, h⟩ := InferM.bind_eq_ok.mp h
    rw [hawaited, hpromisifiable] at h
    obtain ⟨promise, s₂, hlift, h⟩ := InferM.bind_eq_ok.mp h
    obtain ⟨T₁, hpromise, rfl⟩ := InferM.liftM_eq_ok.mp hlift
    obtain ⟨returnType, s₃, hreturn, h⟩ := InferM.bind_eq_ok.mp h
    obtain ⟨rfl, rfl⟩ := InferM.pure_eq_ok.mp hreturn
    obtain ⟨u, s₃, hlift, h⟩ := InferM.bind_eq_ok.mp h
    obtain ⟨T₂, hu, rfl⟩ := InferM.liftM_eq_ok.mp hlift
    rw [InferM.bind_of_ok (InferM.liftM_of_ok (TypeM.lookup_run u T₂))] at h
    refine .inr ⟨scope, s₁, promise, T₁, u, T₂, nofun, hscope, hpromise, hu, fun hbound => ?_⟩
    rw [hbound] at h
    obtain ⟨rfl, rfl⟩ := InferM.pure_eq_ok.mp h
    exact ⟨rfl, rfl⟩

/-- The promise form of a call with a known signature. -/
theorem promisifiedType_of_calleeSignature? {scope : Environment} {s₁ : Memory}
    {promise : Option TypeId} {T₁ : TypeTable}
    (hc : p.content? call = some (.call target typeArgs args))
    (hcallee : p.calleeSignature? judge env target s = .ok (some signature) s₀)
    (hscope : p.addCallArguments judge env.wrap signature typeArgs args s₀ = .ok scope s₁)
    (hpromise : p.promiseOfCallback? scope signature s₁.types = .ok promise T₁)
    (hsubstitute : scope.substitute (promise.getD .unknown) T₁ = .ok t T') :
    p.promisifiedType judge env (some call) s = .ok t { s₁ with types := T' } := by
  have hcontent : p.contentAt? (some call) = some (.call target typeArgs args) := hc
  unfold promisifiedType
  rw [hcontent]
  dsimp only
  rw [InferM.bind_of_ok hcallee]
  dsimp only
  rw [InferM.bind_of_ok hscope, InferM.bind_of_ok (InferM.liftM_of_ok hpromise)]
  cases promise with
  | none =>
    rw [Option.getD_none, Environment.substitute_unknown] at hsubstitute
    obtain ⟨rfl, rfl⟩ := TypeM.pure_eq_ok.mp hsubstitute
    rfl
  | some promise => exact InferM.liftM_of_ok hsubstitute

/-! ### Fallbacks along the way -/

section Counts

variable {room : Nat} {expression : Slot}

private theorem sameRun_refl (p : Program) (env : Environment) (T : TypeTable) :
    Comparison.sameRun.Scope p T env env :=
  ⟨.refl env, False.elim⟩

theorem counts_slot (h : (p.judge room).slot env expression s = .ok t s') :
    s.fallbacks ≤ s'.fallbacks :=
  (Comparison.sameRun.slot (Comparison.asks_judge p room room le_rfl) (sameRun_refl p env _)
    expression s t s' rfl h).1

theorem counts_isPromisifiableCall {found : Bool}
    (h : p.isPromisifiableCall (p.judge room) env expression s = .ok found s') :
    s.fallbacks ≤ s'.fallbacks := by
  unfold isPromisifiableCall at h
  cases hcontent : p.contentAt? expression with
  | none =>
    rw [hcontent] at h
    obtain ⟨-, rfl⟩ := InferM.pure_eq_ok.mp h
    exact le_rfl
  | some c =>
    rw [hcontent] at h
    cases c with
    | call target =>
      obtain ⟨signature, s₁, hcallee, h⟩ := InferM.bind_eq_ok.mp h
      obtain ⟨-, rfl⟩ := InferM.pure_eq_ok.mp h
      exact (Comparison.sameRun.calleeSignature? p (Comparison.asks_judge p room room le_rfl)
        (sameRun_refl p env _) target s signature s₁ rfl hcallee).1
    | _ =>
      obtain ⟨-, rfl⟩ := InferM.pure_eq_ok.mp h
      exact le_rfl

theorem counts_promisifiedType
    (h : p.promisifiedType (p.judge room) env expression s = .ok t s') :
    s.fallbacks ≤ s'.fallbacks :=
  (Comparison.sameRun.promisifiedType p (Comparison.asks_judge p room room le_rfl)
    (sameRun_refl p env _) expression s t s' rfl h).1

/-- An `await` first looks at what it awaits, and takes back no fallback that is noted there. -/
theorem awaitType_eq_ok (h : p.awaitType (p.judge room) env expression s = .ok t s') :
    ∃ u s₁, (p.judge room).slot env expression s = .ok u s₁ ∧ s.fallbacks ≤ s₁.fallbacks ∧
      s₁.fallbacks ≤ s'.fallbacks := by
  obtain ⟨u, s₁, hfirst, h⟩ := InferM.bind_eq_ok.mp h
  refine ⟨u, s₁, hfirst, counts_slot hfirst, ?_⟩
  obtain ⟨value, s₂, hlift, h⟩ := InferM.bind_eq_ok.mp h
  obtain ⟨T, -, rfl⟩ := InferM.liftM_eq_ok.mp hlift
  cases value with
  | some value =>
    obtain ⟨-, rfl⟩ := InferM.pure_eq_ok.mp h
    exact le_rfl
  | none =>
    obtain ⟨isCall, s₂, hisCall, h⟩ := InferM.bind_eq_ok.mp h
    have hle := counts_isPromisifiableCall hisCall
    cases isCall with
    | false =>
      obtain ⟨-, rfl⟩ := InferM.pure_eq_ok.mp h
      exact hle
    | true =>
      obtain ⟨promised, s₃, hpromised, h⟩ := InferM.bind_eq_ok.mp h
      obtain ⟨found, s₄, hlift, h⟩ := InferM.bind_eq_ok.mp h
      obtain ⟨T, -, rfl⟩ := InferM.liftM_eq_ok.mp hlift
      obtain ⟨-, rfl⟩ := InferM.pure_eq_ok.mp h
      have hle' := counts_promisifiedType hpromised
      exact hle.trans hle'

end Counts

/-! ### Awaiting a call -/

section Awaited

variable {room : Nat} (hsetting : p.Setting env s.types) (hinitial : .initial ≤ s.types)
  (hmemo : s.memo.Within s.types) (hguard : env.guardState ⟨.callExpression, call⟩ ≠ .active)
  (hc : p.content? call = some (.call target typeArgs args)) (hawaited : p.isAwaited call = true)
  (hcallee : p.calleeSignature? (p.judge room) env target s = .ok (some signature) s₀)
  (hpromisifiable : p.isPromisifiable signature = true)
  (hrun : p.callType (p.judge room) env call target typeArgs args s = .ok t s')
  (hnone : s'.fallbacks = s.fallbacks)

include hsetting hmemo hcallee in
/-- The callee belongs to the table that looking at it leaves. -/
theorem callee_grows : s.fallbacks ≤ s₀.fallbacks ∧ s.types.GrowsTo s₀.types ∧
    s₀.memo.Within s₀.types ∧ s₀.types.HasAll signature.types := by
  obtain ⟨hle, hg, hmemo₀, ⟨_, rfl, hsignature⟩, -⟩ := Comparison.repeating.calleeSignature? p
    (Comparison.asks_repeating p room) ⟨.refl env, fun _ => hsetting⟩ target s _ s₀ rfl hmemo
    hcallee
  exact ⟨hle, hg, hmemo₀, hsignature trivial signature rfl⟩

include hsetting hinitial hmemo hguard hc hawaited hcallee hpromisifiable hrun hnone in
/-- An awaited call of a function with a promise form has that form as its type: a promise, or
unknown if there is no callback. -/
theorem promisifiedType_of_callType :
    p.promisifiedType (p.judge room) env (some call) s = .ok t s' ∧
      (t = .unknown ∨ p.IsPromise s'.types t) := by
  obtain ⟨hle₀, hg₀, hmemo₀, hsignature⟩ := callee_grows hsetting hmemo hcallee
  have hsetting₀ := hsetting.grow hg₀
  rw [callType_of_calleeSignature? hcallee] at hrun
  rcases signatureCallType_eq_ok hawaited hpromisifiable hrun with
    ⟨-, -, hfall⟩ | ⟨scope, s₁, promise, T₁, u, T₂, hkey, hscope, hpromise, hu, hend⟩
  · omega
  have habsent : env.guardState ⟨.callExpression, call⟩ = .absent := by
    cases h : env.guardState ⟨.callExpression, call⟩ with
    | absent => rfl
    | active => exact absurd h hguard
    | provisional preliminary => exact absurd h (hkey preliminary)
  have hcontent : p.contentAt? (some call) = some (.call target typeArgs args) := hc
  have htypeArgs : s₀.types.HasAll typeArgs := hsetting₀.program.types_at hcontent
  have hguarded : Comparison.repeating.Scope p s₀.types
      (env.withProvisional ⟨.callExpression, call⟩ signature.returnType)
      (env.withProvisional ⟨.callExpression, call⟩ signature.returnType) :=
    ⟨.refl _, fun _ => hsetting₀.withProvisional _ hsignature.returnType⟩
  obtain ⟨hle₁, hg₁, -, ⟨_, hscoped⟩, -⟩ := Comparison.repeating.addCallArguments p
    (Comparison.asks_repeating p room) hguarded (fun _ => hsignature) (fun _ => htypeArgs) args s₀
    scope s₁ rfl hmemo₀ hscope
  have hsetting₁ := hscoped.setting trivial
  obtain ⟨hg₂, hhas, -⟩ :=
    stable_promiseOfCallback? hsetting₁ (hsignature.of_le hg₁.le) _ _ hpromise
  have hinitial₂ : .initial ≤ T₁ := le_trans hinitial (le_trans hg₀.le (le_trans hg₁.le hg₂.le))
  -- What comes out is unknown or a promise, hence no bound `this`, which the call would look at.
  have hkind : u = .unknown ∧ T₂ = T₁ ∨ p.IsPromise T₂ u := by
    cases promise with
    | none =>
      rw [Option.getD_none, Environment.substitute_unknown] at hu
      obtain ⟨rfl, rfl⟩ := TypeM.pure_eq_ok.mp hu
      exact .inl ⟨rfl, rfl⟩
    | some promise =>
      obtain ⟨value, error, U, hmade⟩ := promiseOfCallback?_eq_some hpromise
      obtain ⟨promiseArgs, hrow⟩ := isPromise_of_promiseOf hg₂.wellFormed hmade
      exact .inr (Environment.lookup_substitute_nominal hg₂.wellFormed
        (hsetting₁.grow hg₂).environment (hhas promise rfl) hrow hu)
  have hbound : (T₂.lookup u).isBoundThis = false := by
    rcases hkind with ⟨rfl, rfl⟩ | ⟨promiseArgs, hrow⟩
    · rw [TypeTable.lookup_of_le hinitial₂ (by decide)]
      rfl
    · rw [hrow]
      rfl
  obtain ⟨rfl, rfl⟩ := hend hbound
  have hnone : s₁.fallbacks = s.fallbacks := hnone
  -- The arguments were inferred under the guard of the call, which the promise form does not set.
  have hunguarded : Comparison.sameRun.Scope p s₀.types
      (env.withProvisional ⟨.callExpression, call⟩ signature.returnType) env.wrap :=
    ⟨Environment.relaxes_wrap_of_withProvisional habsent _, False.elim⟩
  obtain ⟨-, -, hsame⟩ := Comparison.sameRun.addCallArguments p
    (Comparison.asks_judge p room room le_rfl) hunguarded (fun _ => hsignature)
    (fun _ => htypeArgs) args s₀ scope s₁ rfl hscope
  obtain ⟨scope', hscope', hrelated⟩ := hsame (by omega) 0
  rw [← hrelated.relaxes.promiseOfCallback?] at hpromise
  rw [← hrelated.relaxes.substitute] at hu
  exact ⟨promisifiedType_of_calleeSignature? hc hcallee hscope' hpromise hu, hkind.imp And.left id⟩

include hsetting hmemo hc hcallee hrun hnone in
/-- If the first look at a call wrote no memo cell, then a second one finds the same signature and
leaves the memory as it is. -/
theorem isPromisifiableCall_again (hcalleeMemo : s₀.memo = s.memo) (hkept : s'.memo = s.memo) :
    p.isPromisifiableCall (p.judge (room + 1)) env (some call) s' =
      .ok (p.isPromisifiable signature) s' := by
  obtain ⟨hle₀, hg₀, hmemo₀, hsignature⟩ := callee_grows hsetting hmemo hcallee
  have hsetting₀ := hsetting.grow hg₀
  have hcontent : p.contentAt? (some call) = some (.call target typeArgs args) := hc
  have htypeArgs : s₀.types.HasAll typeArgs := hsetting₀.program.types_at hcontent
  rw [callType_of_calleeSignature? hcallee] at hrun
  obtain ⟨hle, hg, -⟩ := Comparison.repeating.signatureCallType p
    (Comparison.asks_repeating p room) ⟨.refl env, fun _ => hsetting₀⟩ call target
    (fun _ => hsignature) (fun _ => htypeArgs) args s₀ t s' rfl hmemo₀ hrun
  obtain ⟨-, -, -, -, hagain⟩ := Comparison.repeating.calleeSignature? p
    (Comparison.asks_of_remembers (Comparison.remembers_repeating p) room (room + 1)
      (Nat.le_succ room)) ⟨.refl env, fun _ => hsetting⟩ target s _ s₀ rfl hmemo hcallee
  obtain ⟨_, ⟨rfl, -⟩, hlook⟩ := hagain (by omega) 0 s'.types s'.fallbacks hg.le
  rw [hcalleeMemo, ← hkept] at hlook
  unfold isPromisifiableCall
  rw [hcontent]
  exact InferM.bind_of_ok hlook

include hsetting hmemo hnone in
/-- The same for the promise form of the call. -/
theorem promisifiedType_again
    (hpromised : p.promisifiedType (p.judge room) env (some call) s = .ok t s')
    (hkept : s'.memo = s.memo) :
    p.promisifiedType (p.judge (room + 1)) env (some call) s' = .ok t s' := by
  obtain ⟨-, -, -, -, hagain⟩ := Comparison.repeating.promisifiedType p
    (Comparison.asks_of_remembers (Comparison.remembers_repeating p) room (room + 1)
      (Nat.le_succ room)) ⟨.refl env, fun _ => hsetting⟩ (some call) s t s' rfl hmemo hpromised
  obtain ⟨_, ⟨rfl, -⟩, hlook⟩ := hagain hnone 0 s'.types s'.fallbacks le_rfl
  rw [← hkept] at hlook
  exact hlook

theorem promiseValue?_eq_none (h : p.promiseValue? t T = .ok none T') : T' = T := by
  rw [promiseValue?, TypeM.bind_of_ok (TypeM.lookup_run _ T)] at h
  cases hrow : T.lookup t with
  | nominal decl promiseArgs =>
    rw [hrow] at h
    dsimp only at h
    by_cases hdecl : decl = p.world.builtins.promise
    · rw [if_pos hdecl] at h
      obtain ⟨v, T₁, -, h⟩ := TypeM.bind_eq_ok.mp h
      cases (TypeM.pure_eq_ok.mp h).1
    · rw [if_neg hdecl] at h
      exact (TypeM.pure_eq_ok.mp h).2.symm
  | _ =>
    rw [hrow] at h
    exact (TypeM.pure_eq_ok.mp h).2.symm

theorem promiseValue?_of_isPromise {value : Option TypeId} (ht : p.IsPromise T t)
    (h : p.promiseValue? t T = .ok value T') : ∃ v, value = some v := by
  obtain ⟨promiseArgs, hrow⟩ := ht
  rw [promiseValue?, TypeM.bind_of_ok (TypeM.lookup_run _ T), hrow] at h
  dsimp only at h
  rw [if_pos rfl] at h
  obtain ⟨v, T₁, -, h⟩ := TypeM.bind_eq_ok.mp h
  obtain ⟨rfl, rfl⟩ := TypeM.pure_eq_ok.mp h
  exact ⟨v, rfl⟩

include hsetting hinitial hmemo hguard hc hawaited hcallee hpromisifiable hrun in
/-- Awaiting a call of a function with a promise form takes that form apart.  It looks at the callee
again only if there is no callback. -/
theorem awaitType_of_callType {v : TypeId} {s'' : Memory}
    (hlook : t = .unknown → s₀.memo = s.memo ∧ s'.memo = s.memo)
    (hawait : p.awaitType (p.judge (room + 1)) env (some call) s = .ok v s'')
    (hnone : s''.fallbacks = s.fallbacks) :
    p.promisifiedType (p.judge room) env (some call) s = .ok t s' ∧ ∃ value T,
      p.promiseValue? t s'.types = .ok value T ∧ v = value.getD t ∧
        s'' = { s' with types := T } := by
  have hfirst : (p.judge (room + 1)).slot env (some call) s = .ok t s' := by
    change (p.judge (room + 1)).node env call s = _
    rw [judge_succ hc]
    exact hrun
  have hnone' : s'.fallbacks = s.fallbacks := by
    obtain ⟨u, s₁, hfirst', hle, hle'⟩ := awaitType_eq_ok hawait
    cases hfirst.symm.trans hfirst'
    omega
  unfold awaitType at hawait
  rw [InferM.bind_of_ok hfirst] at hawait
  obtain ⟨value, s₁, hlift, hawait⟩ := InferM.bind_eq_ok.mp hawait
  obtain ⟨T, hvalue, rfl⟩ := InferM.liftM_eq_ok.mp hlift
  cases value with
  | some value =>
    obtain ⟨rfl, rfl⟩ := InferM.pure_eq_ok.mp hawait
    obtain ⟨hpromised, -⟩ := promisifiedType_of_callType hsetting hinitial hmemo hguard hc hawaited
      hcallee hpromisifiable hrun hnone'
    exact ⟨hpromised, some value, T, hvalue, rfl, rfl⟩
  | none =>
    obtain rfl := promiseValue?_eq_none hvalue
    obtain ⟨isCall, s₂, hisCall, hawait⟩ := InferM.bind_eq_ok.mp hawait
    obtain ⟨hpromised, hkind⟩ := promisifiedType_of_callType hsetting hinitial hmemo hguard hc
      hawaited hcallee hpromisifiable hrun hnone'
    rcases hkind with rfl | hpromise
    · -- Without a callback the callee is looked at again.
      obtain ⟨hcalleeMemo, hkept⟩ := hlook rfl
      cases hisCall.symm.trans (isPromisifiableCall_again hsetting hmemo hc hcallee hrun hnone'
        hcalleeMemo hkept)
      rw [if_pos hpromisifiable,
        InferM.bind_of_ok (promisifiedType_again hsetting hmemo hnone' hpromised hkept),
        InferM.bind_of_ok (InferM.liftM_of_ok hvalue)] at hawait
      obtain ⟨rfl, rfl⟩ := InferM.pure_eq_ok.mp hawait
      exact ⟨hpromised, none, s'.types, hvalue, rfl, rfl⟩
    · obtain ⟨value, hsome⟩ := promiseValue?_of_isPromise hpromise hvalue
      cases hsome

end Awaited

end Program

end ScriptTyping
