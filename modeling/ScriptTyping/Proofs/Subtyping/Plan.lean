import ScriptTyping.Hierarchy.Subtyping
import ScriptTyping.Proofs.Stability.Hierarchy

/-!
# What a subtype rule asks

One step of the subtype rules first works on the type table and then asks for other pairs.  The
*plan* of a pair is the outcome of the first part: either goals of which all have to be met, or
pairs of which one has to hold.  Questions enter the rules in no other way, so they occur positively
and in a fixed order, and every statement about the rules reduces to one about plans.

## Main definitions

* `Subtyping.Goal`, `Subtyping.Plan` — what a rule asks.
* `Subtyping.plan` — the plan of a pair.

## Main results

* `Subtyping.rules_eq` — the rules make the plan of a pair and carry it out.
* `Subtyping.stable_plan` — making a plan is stable, and a plan mentions types of the table only.
-/

namespace ScriptTyping.Subtyping

/-- One requirement of a rule. -/
inductive Goal where
  /-- Settled without a question. -/
  | verdict (holds : Bool)
  /-- The first type is below the second. -/
  | pair (source target : TypeId)
  /-- The first type argument fits the second, for a type parameter of the given variance. -/
  | argument (source target : TypeId) (variance : Variance)

/-- What a pair of types is reduced to. -/
inductive Plan where
  /-- All goals have to be met. -/
  | all (goals : List Goal)
  /-- One of the pairs has to hold. -/
  | any (pairs : List (TypeId × TypeId))

/-- A plan that is settled without a question. -/
abbrev Plan.verdict (holds : Bool) : Plan := .all [.verdict holds]

/-- A plan with a single question. -/
abbrev Plan.pair (source target : TypeId) : Plan := .all [.pair source target]

/-! ### Plans of the rules -/

/-- The pairs that have to hold for a type argument to fit; nothing if it does not fit anyway. -/
def argumentPairs (source target : TypeId) (variance : Variance) :
    TypeM (Option (List (TypeId × TypeId))) := do
  if source = target then return some []
  match ← TypeM.lookup target with
  | .wildcard none _ => return some []
  | .wildcard (some bound) .upper => return some [(← TypeM.upperBound source, bound)]
  | .wildcard (some bound) .lower =>
    match ← TypeM.lookup source with
    | .wildcard (some lower) .lower => return some [(bound, lower)]
    | .wildcard .. => return none
    | _ => return some [(bound, source)]
  | _ =>
    match variance with
    | .covariant => return some [(source, target)]
    | .contravariant => return some [(target, source)]
    | .invariant => return some [(source, target), (target, source)]

/-- The pairs that have to hold for a goal to be met; nothing if it cannot be met. -/
def Goal.pairs : Goal → TypeM (Option (List (TypeId × TypeId)))
  | verdict true => pure (some [])
  | verdict false => pure none
  | pair source target => pure (some [(source, target)])
  | argument source target variance => argumentPairs source target variance

/-- The goals of a comparison of type arguments. -/
def argumentGoals (w : World) : List DeclId → List TypeId → List TypeId → List Goal
  | params, source :: sources, target :: targets =>
    .argument source target ((params.head?.map w.declarations.variance).getD .invariant) ::
      argumentGoals w params.tail sources targets
  | _, _, _ => []

/-- The plan of a comparison with a reference to a declared type. -/
def nominalPlan (w : World) (source : TypeId) (decl : DeclId) (args : List TypeId) :
    TypeM Plan := do
  if decl = w.builtins.object ∧ args = [] then return .verdict (← w.isObjectLike source)
  match ← w.findInstantiation? source decl with
  | none => return .verdict false
  | some (_, sourceArgs) =>
    if sourceArgs.isEmpty || args.isEmpty then return .verdict true
    let params := ((w.decl? decl).map (·.typeParams)).getD []
    return .all (argumentGoals w params sourceArgs args)

/-- The plan of a comparison of signatures. -/
def functionPlan (source target : Signature) : Plan :=
  let required := source.params.countP fun param => !param.optional && !param.rest
  if target.params.length < required && !target.params.any (·.rest) then .verdict false
  else .all <|
    (source.params.zip target.params).map (fun pair => .pair pair.2.type pair.1.type) ++
      if target.returnType = .void then [] else [.pair source.returnType target.returnType]

/-- The plan of a comparison of object shapes. -/
def structuralPlan (source target : List Property) : Plan :=
  .all <| target.map fun member =>
    match findProperty? source member.name with
    | some found => .pair found.type member.type
    | none => .verdict member.optional

/-- The plan for two types that are neither aliases nor unions nor intersections. -/
def layerPlan (w : World) (source target : TypeId) (sourceData targetData : TypeData) :
    TypeM Plan := do
  match sourceData, targetData with
  | .wildcard .., _ =>
    let upper ← TypeM.upperBound source
    if upper = source then return .verdict false
    return .pair upper target
  | _, .wildcard none _ => return .verdict true
  | _, .wildcard (some bound) .upper => return .pair source bound
  | _, .wildcard (some bound) .lower => return .pair bound source
  | .thisType (some left), .thisType (some right) => return .pair left right
  | .thisType (some bound), _ => return .pair bound target
  | .thisType none, _ => return .pair w.objectType target
  | _, .thisType _ => return .verdict false
  | .typeVariable decl, _ =>
    let bound := w.declarations.variableBound decl
    if bound = .any then return .verdict false
    return .pair bound target
  | _, .typeVariable _ => return .verdict false
  | .literal value, _ => return .pair (← literalBase value) target
  | _, .literal _ => return .verdict false
  | .primitive _, _ => return .verdict false
  | .metaType left leftConstructor, .metaType right rightConstructor =>
    return if leftConstructor || !rightConstructor then .pair left right else .verdict false
  | .function left, .function right => return functionPlan left right
  | .structural left, .structural right => return structuralPlan left right
  | .nominal .., .nominal decl args | .function _, .nominal decl args
  | .structural _, .nominal decl args | .metaType .., .nominal decl args =>
    nominalPlan w source decl args
  | _, _ => return .verdict false

/-- The plan for two types that are no aliases. -/
def expandedPlan (w : World) (source target : TypeId) (sourceData targetData : TypeData) :
    TypeM Plan :=
  match sourceData, targetData with
  | .union members, _ => return .all (members.map (.pair · target))
  | _, .union members => return .any (members.map ((source, ·)))
  | _, .intersection members => return .all (members.map (.pair source ·))
  | .intersection members, _ => return .any (members.map ((·, target)))
  | _, _ => layerPlan w source target sourceData targetData

/-- The plan of a pair of different types. -/
def plan (w : World) (source target : TypeId) : TypeM Plan := do
  if source.isUnknown || target.isUnknown then return .verdict true
  if target.isAny || source == .dynamicAny then return .verdict true
  if source = .undefined then return .verdict true
  if source = .null then return .verdict (target != .undefined)
  if source = .any then return .verdict false
  let source ← w.resolveAlias source
  let target ← w.resolveAlias target
  let sourceData ← TypeM.lookup source
  let targetData ← TypeM.lookup target
  expandedPlan w source target sourceData targetData

/-! ### Carrying out a plan -/

private theorem allM_singleton {α : Type} {m : Type → Type} [Monad m] [LawfulMonad m]
    (p : α → m Bool) (a : α) : [a].allM p = p a := by
  rw [List.allM_cons]
  conv_rhs => rw [← bind_pure (p a)]
  exact bind_congr fun b => by cases b <;> rfl

private theorem allM_append {α : Type} {m : Type → Type} [Monad m] [LawfulMonad m]
    (p : α → m Bool) (l l' : List α) :
    (l ++ l').allM p = do if ← l.allM p then l'.allM p else return false := by
  induction l with
  | nil => simp
  | cons a l ih =>
    simp only [List.cons_append, List.allM_cons, ih, bind_assoc]
    exact bind_congr fun b => by cases b <;> simp

theorem allM_map {α β : Type} {m : Type → Type} [Monad m]
    (p : β → m Bool) (f : α → β) (l : List α) : (l.map f).allM p = l.allM fun a => p (f a) := by
  induction l with
  | nil => rfl
  | cons a l ih => simp only [List.map_cons, List.allM_cons, ih]

theorem anyM_map {α β : Type} {m : Type → Type} [Monad m]
    (p : β → m Bool) (f : α → β) (l : List α) : (l.map f).anyM p = l.anyM fun a => p (f a) := by
  induction l with
  | nil => rfl
  | cons a l ih => simp only [List.map_cons, List.anyM_cons, ih]

section Eval

variable (w : World) (ask : Query)

/-- Carries out a goal. -/
def Goal.eval (goal : Goal) : CheckM Bool := do
  match ← goal.pairs with
  | some pairs => pairs.allM fun pair => ask pair.1 pair.2
  | none => return false

/-- Carries out a plan. -/
def Plan.eval : Plan → CheckM Bool
  | all goals => goals.allM (Goal.eval ask)
  | any pairs => pairs.anyM fun pair => ask pair.1 pair.2

@[simp] theorem Goal.eval_verdict (b : Bool) : (Goal.verdict b).eval ask = pure b := by
  cases b <;> simp [Goal.eval, Goal.pairs]

@[simp] theorem Goal.eval_pair (s t : TypeId) : (Goal.pair s t).eval ask = ask s t := by
  simp only [Goal.eval, Goal.pairs, liftM_pure, pure_bind, allM_singleton]

@[simp] theorem Plan.eval_all (goals : List Goal) :
    (Plan.all goals).eval ask = goals.allM (Goal.eval ask) := rfl

@[simp] theorem Plan.eval_verdict (b : Bool) : (Plan.verdict b).eval ask = pure b := by
  rw [Plan.eval, allM_singleton, Goal.eval_verdict]

@[simp] theorem Plan.eval_pair (s t : TypeId) : (Plan.pair s t).eval ask = ask s t := by
  rw [Plan.eval, allM_singleton, Goal.eval_pair]

theorem argumentRule_eq (s t : TypeId) (v : Variance) :
    argumentRule ask s t v = (Goal.argument s t v).eval ask := by
  unfold Goal.eval Goal.pairs argumentRule argumentPairs
  dsimp only
  split
  · simp
  · simp only [liftM_bind, bind_assoc]
    refine bind_congr fun data => ?_
    split
    · simp
    · simp only [liftM_bind, bind_assoc, liftM_pure, pure_bind, allM_singleton]
    · simp only [liftM_bind, bind_assoc]
      refine bind_congr fun data => ?_
      split <;> simp only [liftM_pure, pure_bind, allM_singleton]
    · cases v with
      | covariant => simp only [liftM_pure, pure_bind, allM_singleton]
      | contravariant => simp only [liftM_pure, pure_bind, allM_singleton]
      | invariant =>
        simp only [liftM_pure, pure_bind]
        rw [List.allM_cons, allM_singleton]

theorem argumentsRule_eq (params : List DeclId) (sources targets : List TypeId) :
    argumentsRule w ask params sources targets =
      (argumentGoals w params sources targets).allM (Goal.eval ask) := by
  induction sources generalizing params targets with
  | nil => simp [argumentsRule, argumentGoals]
  | cons s sources ih =>
    cases targets with
    | nil => simp [argumentsRule, argumentGoals]
    | cons t targets =>
      rw [argumentsRule, argumentGoals, List.allM_cons, argumentRule_eq]
      refine bind_congr fun b => ?_
      cases b
      · simp
      · simp [ih]

theorem nominalRule_eq (s : TypeId) (decl : DeclId) (args : List TypeId) :
    nominalRule w ask s decl args = (do (← nominalPlan w s decl args).eval ask) := by
  unfold nominalRule nominalPlan
  split
  · simp only [liftM_bind, bind_assoc, liftM_pure, pure_bind, bind_pure, Plan.eval_verdict]
  · simp only [liftM_bind, bind_assoc]
    refine bind_congr fun o => ?_
    cases o with
    | none => simp only [liftM_pure, pure_bind, Plan.eval_verdict]
    | some found =>
      dsimp only
      split
      · simp only [liftM_pure, pure_bind, Plan.eval_verdict]
      · simp only [liftM_pure, pure_bind, Plan.eval_all, argumentsRule_eq]

theorem functionRule_eq (s t : Signature) : functionRule ask s t = (functionPlan s t).eval ask := by
  unfold functionRule functionPlan
  dsimp only
  by_cases hshort : (decide (t.params.length <
      s.params.countP fun param => !param.optional && !param.rest) &&
      !t.params.any (·.rest)) = true
  · rw [if_pos hshort, if_pos hshort, Plan.eval_verdict]
  · rw [if_neg hshort, if_neg hshort, Plan.eval_all, allM_append, allM_map]
    simp only [Goal.eval_pair]
    refine bind_congr fun b => ?_
    split
    · split
      · rfl
      · rw [allM_singleton, Goal.eval_pair]
    · rfl

theorem structuralRule_eq (s t : List Property) :
    structuralRule ask s t = (structuralPlan s t).eval ask := by
  rw [structuralRule, structuralPlan, Plan.eval_all, allM_map]
  congr 1
  funext member
  cases findProperty? s member.name <;> simp

theorem layerRule_eq (s t : TypeId) (sd td : TypeData) :
    layerRule w ask s t sd td = (do (← layerPlan w s t sd td).eval ask) := by
  unfold layerRule layerPlan
  split
  · simp only [liftM_bind, bind_assoc]
    refine bind_congr fun upper => ?_
    split <;> simp only [liftM_pure, pure_bind, Plan.eval_verdict, Plan.eval_pair]
  · simp only [liftM_pure, pure_bind, Plan.eval_verdict]
  · simp only [liftM_pure, pure_bind, Plan.eval_pair]
  · simp only [liftM_pure, pure_bind, Plan.eval_pair]
  · simp only [liftM_pure, pure_bind, Plan.eval_pair]
  · simp only [liftM_pure, pure_bind, Plan.eval_pair]
  · simp only [liftM_pure, pure_bind, Plan.eval_pair]
  · simp only [liftM_pure, pure_bind, Plan.eval_verdict]
  · simp only
    split <;> simp only [liftM_pure, pure_bind, Plan.eval_verdict, Plan.eval_pair]
  · simp only [liftM_pure, pure_bind, Plan.eval_verdict]
  · simp only [liftM_bind, bind_assoc, liftM_pure, pure_bind, Plan.eval_pair]
  · simp only [liftM_pure, pure_bind, Plan.eval_verdict]
  · simp only [liftM_pure, pure_bind, Plan.eval_verdict]
  · simp only [liftM_pure, pure_bind]
    split <;> simp only [Plan.eval_verdict, Plan.eval_pair]
  · simp only [liftM_pure, pure_bind, functionRule_eq]
  · simp only [liftM_pure, pure_bind, structuralRule_eq]
  · exact nominalRule_eq ..
  · exact nominalRule_eq ..
  · exact nominalRule_eq ..
  · exact nominalRule_eq ..
  · simp only [liftM_pure, pure_bind, Plan.eval_verdict]

theorem rules_eq (s t : TypeId) : rules w ask s t = (do (← plan w s t).eval ask) := by
  unfold rules plan
  repeat' split
  all_goals try simp only [liftM_pure, pure_bind, Plan.eval_verdict]
  simp only [liftM_bind, bind_assoc]
  refine bind_congr fun source => bind_congr fun target => bind_congr fun sd =>
    bind_congr fun td => ?_
  split
  · simp only [expandedPlan, liftM_pure, pure_bind, Plan.eval, allM_map, Goal.eval_pair]
  · simp only [expandedPlan, liftM_pure, pure_bind, Plan.eval, anyM_map]
  · simp only [expandedPlan, liftM_pure, pure_bind, Plan.eval, allM_map, Goal.eval_pair]
  · simp only [expandedPlan, liftM_pure, pure_bind, Plan.eval, anyM_map]
  · simp only [expandedPlan, layerRule_eq]

end Eval

/-! ### Stability -/

variable {w : World} {T T' : TypeTable}

/-- Both types of the pair belong to the table. -/
def PairWithin (T : TypeTable) (pair : TypeId × TypeId) : Prop := T.Has pair.1 ∧ T.Has pair.2

theorem PairWithin.of_le {pair : TypeId × TypeId} (h : T ≤ T') (hp : PairWithin T pair) :
    PairWithin T' pair :=
  ⟨hp.1.of_le h, hp.2.of_le h⟩

/-- The types of the goal belong to the table. -/
def Goal.Within (T : TypeTable) : Goal → Prop
  | verdict _ => True
  | pair source target | argument source target _ => PairWithin T (source, target)

theorem Goal.Within.of_le {goal : Goal} (h : T ≤ T') (hg : goal.Within T) : goal.Within T' := by
  cases goal with
  | verdict => trivial
  | pair | argument => exact PairWithin.of_le h hg

/-- The types of the plan belong to the table. -/
def Plan.Within (T : TypeTable) : Plan → Prop
  | all goals => ∀ goal ∈ goals, goal.Within T
  | any pairs => ∀ pair ∈ pairs, PairWithin T pair

theorem Plan.within_verdict (b : Bool) : (Plan.verdict b).Within T := fun goal h => by
  rw [List.mem_singleton.mp h]
  trivial

theorem Plan.within_pair {s t : TypeId} (hs : T.Has s) (ht : T.Has t) :
    (Plan.pair s t).Within T := fun goal h => by
  rw [List.mem_singleton.mp h]
  exact ⟨hs, ht⟩

/-- The pairs that a goal is reduced to belong to the table. -/
def ReducedWithin (T : TypeTable) (o : Option (List (TypeId × TypeId))) : Prop :=
  ∀ pairs, o = some pairs → ∀ pair ∈ pairs, PairWithin T pair

theorem reducedWithin_none : ReducedWithin T none := fun _ h => by cases h

theorem reducedWithin_some {pairs : List (TypeId × TypeId)}
    (h : ∀ pair ∈ pairs, PairWithin T pair) : ReducedWithin T (some pairs) := fun _ h' => by
  rw [← Option.some.inj h']
  exact h

private theorem stable_argumentPairs (hT : T.WellFormed) {s t : TypeId} (hs : T.Has s)
    (ht : T.Has t) (variance : Variance) :
    TypeM.Stable (argumentPairs s t variance) T ReducedWithin := by
  unfold argumentPairs
  split
  · exact .pure hT (reducedWithin_some (by simp))
  refine .lookup ht ?_
  split
  · exact .pure hT (reducedWithin_some (by simp))
  · rename_i bound hd
    have hb : T.Has bound := hT.hasAll_of_lookup hd bound (by simp [TypeData.parts])
    refine (TypeM.stable_upperBound hT hs).bind fun upper T₁ hg hu => .pure hg.wellFormed ?_
    exact reducedWithin_some (by simpa [PairWithin] using ⟨hu, hb.of_le hg.le⟩)
  · rename_i bound hd
    have hb : T.Has bound := hT.hasAll_of_lookup hd bound (by simp [TypeData.parts])
    refine .lookup hs ?_
    split
    · rename_i lower hd'
      have hl : T.Has lower := hT.hasAll_of_lookup hd' lower (by simp [TypeData.parts])
      exact .pure hT (reducedWithin_some (by simpa [PairWithin] using ⟨hb, hl⟩))
    · exact .pure hT reducedWithin_none
    · exact .pure hT (reducedWithin_some (by simpa [PairWithin] using ⟨hb, hs⟩))
  · cases variance with
    | covariant => exact .pure hT (reducedWithin_some (by simpa [PairWithin] using ⟨hs, ht⟩))
    | contravariant => exact .pure hT (reducedWithin_some (by simpa [PairWithin] using ⟨ht, hs⟩))
    | invariant => exact .pure hT (reducedWithin_some (by simp [PairWithin, hs, ht]))

theorem Goal.stable_pairs (hT : T.WellFormed) {goal : Goal} (hgoal : goal.Within T) :
    TypeM.Stable goal.pairs T ReducedWithin := by
  cases goal with
  | verdict b =>
    cases b with
    | true => exact .pure hT (reducedWithin_some (by simp))
    | false => exact .pure hT reducedWithin_none
  | pair s t =>
    have hpair : PairWithin T (s, t) := hgoal
    exact .pure hT (reducedWithin_some (by simpa using hpair))
  | argument s t variance => exact stable_argumentPairs hT hgoal.1 hgoal.2 variance

theorem within_argumentGoals {params : List DeclId} {sources targets : List TypeId}
    (hs : T.HasAll sources) (ht : T.HasAll targets) :
    ∀ goal ∈ argumentGoals w params sources targets, goal.Within T := by
  induction sources generalizing params targets with
  | nil => simp [argumentGoals]
  | cons s sources ih =>
    cases targets with
    | nil => simp [argumentGoals]
    | cons t targets =>
      intro goal hgoal
      rw [argumentGoals] at hgoal
      rcases List.mem_cons.mp hgoal with rfl | hgoal
      · exact ⟨hs s (List.mem_cons_self ..), ht t (List.mem_cons_self ..)⟩
      · exact ih (fun a ha => hs a (List.mem_cons_of_mem _ ha))
          (fun a ha => ht a (List.mem_cons_of_mem _ ha)) goal hgoal

theorem stable_nominalPlan (hT : T.WellFormed) (hw : w.Within T) {s : TypeId} (hs : T.Has s)
    (decl : DeclId) {args : List TypeId} (hargs : T.HasAll args) :
    TypeM.Stable (nominalPlan w s decl args) T Plan.Within := by
  unfold nominalPlan
  split
  · exact (World.stable_isObjectLike hT hw hs).bind fun _ _ hg _ =>
      .pure hg.wellFormed (Plan.within_verdict _)
  refine (World.stable_findInstantiation? hT hw hs decl).bind fun o T₁ hg ho => ?_
  cases o with
  | none => exact .pure hg.wellFormed (Plan.within_verdict _)
  | some found =>
    dsimp only
    split
    · exact .pure hg.wellFormed (Plan.within_verdict _)
    · exact .pure hg.wellFormed
        (within_argumentGoals (ho found.1 found.2 rfl).2 (hargs.of_le hg.le))

private theorem hasAll_params {signature : Signature}
    (h : T.HasAll (TypeData.function signature).parts) :
    (∀ param ∈ signature.params, T.Has param.type) ∧ T.Has signature.returnType :=
  ⟨fun _ hp => h _ (List.mem_append_left _ (List.mem_map_of_mem hp)),
    h _ (List.mem_append_right _ (List.mem_cons_self ..))⟩

theorem within_functionPlan {s t : Signature} (hs : T.HasAll (TypeData.function s).parts)
    (ht : T.HasAll (TypeData.function t).parts) : (functionPlan s t).Within T := by
  obtain ⟨hsp, hsr⟩ := hasAll_params hs
  obtain ⟨htp, htr⟩ := hasAll_params ht
  unfold functionPlan
  dsimp only
  by_cases hshort : (decide (t.params.length <
      s.params.countP fun param => !param.optional && !param.rest) &&
      !t.params.any (·.rest)) = true
  · rw [if_pos hshort]
    exact Plan.within_verdict _
  · rw [if_neg hshort]
    intro goal hgoal
    rcases List.mem_append.mp hgoal with hgoal | hgoal
    · obtain ⟨pair, hpair, rfl⟩ := List.mem_map.mp hgoal
      exact ⟨htp _ (List.of_mem_zip hpair).2, hsp _ (List.of_mem_zip hpair).1⟩
    · split at hgoal
      · cases hgoal
      · rw [List.mem_singleton.mp hgoal]
        exact ⟨hsr, htr⟩

theorem within_structuralPlan {s t : List Property} (hs : T.HasAll (TypeData.structural s).parts)
    (ht : T.HasAll (TypeData.structural t).parts) : (structuralPlan s t).Within T := by
  intro goal hgoal
  obtain ⟨member, hmember, rfl⟩ := List.mem_map.mp hgoal
  cases hfound : findProperty? s member.name with
  | none => trivial
  | some found =>
    exact ⟨hs _ (List.mem_map_of_mem (List.mem_of_find?_eq_some hfound)),
      ht _ (List.mem_map_of_mem hmember)⟩

theorem stable_layerPlan (hT : T.WellFormed) (hw : w.Within T) {s t : TypeId} (hs : T.Has s)
    (ht : T.Has t) : TypeM.Stable (layerPlan w s t (T.lookup s) (T.lookup t)) T Plan.Within := by
  unfold layerPlan
  split
  · refine (TypeM.stable_upperBound hT hs).bind fun upper T₁ hg hu => ?_
    split
    · exact .pure hg.wellFormed (Plan.within_verdict _)
    · exact .pure hg.wellFormed (Plan.within_pair hu (ht.of_le hg.le))
  · exact .pure hT (Plan.within_verdict _)
  · rename_i bound hd _
    exact .pure hT (Plan.within_pair hs (hT.hasAll_of_lookup hd bound (by simp [TypeData.parts])))
  · rename_i bound hd _
    exact .pure hT (Plan.within_pair (hT.hasAll_of_lookup hd bound (by simp [TypeData.parts])) hs)
  · rename_i left right hd hd'
    exact .pure hT (Plan.within_pair (hT.hasAll_of_lookup hd left (by simp [TypeData.parts]))
      (hT.hasAll_of_lookup hd' right (by simp [TypeData.parts])))
  · rename_i bound hd _ _ _ _
    exact .pure hT (Plan.within_pair (hT.hasAll_of_lookup hd bound (by simp [TypeData.parts])) ht)
  · exact .pure hT (Plan.within_pair hw.objectType ht)
  · exact .pure hT (Plan.within_verdict _)
  · dsimp only
    split
    · exact .pure hT (Plan.within_verdict _)
    · exact .pure hT (Plan.within_pair (hw.variableBound hT _) ht)
  · exact .pure hT (Plan.within_verdict _)
  · exact (World.stable_literalBase hT _).bind fun _ _ hg hb =>
      .pure hg.wellFormed (Plan.within_pair hb (ht.of_le hg.le))
  · exact .pure hT (Plan.within_verdict _)
  · exact .pure hT (Plan.within_verdict _)
  · rename_i left _ right _ hd hd'
    refine .pure hT ?_
    split
    · exact Plan.within_pair (hT.hasAll_of_lookup hd left (by simp [TypeData.parts]))
        (hT.hasAll_of_lookup hd' right (by simp [TypeData.parts]))
    · exact Plan.within_verdict _
  · rename_i hd hd'
    exact .pure hT (within_functionPlan (hT.hasAll_of_lookup hd) (hT.hasAll_of_lookup hd'))
  · rename_i hd hd'
    exact .pure hT (within_structuralPlan (hT.hasAll_of_lookup hd) (hT.hasAll_of_lookup hd'))
  · rename_i hd
    exact stable_nominalPlan hT hw hs _ (hT.hasAll_of_lookup hd)
  · rename_i hd
    exact stable_nominalPlan hT hw hs _ (hT.hasAll_of_lookup hd)
  · rename_i hd
    exact stable_nominalPlan hT hw hs _ (hT.hasAll_of_lookup hd)
  · rename_i hd
    exact stable_nominalPlan hT hw hs _ (hT.hasAll_of_lookup hd)
  · exact .pure hT (Plan.within_verdict _)

/-- Making the plan of a pair of types of the table is stable. -/
theorem stable_plan (hT : T.WellFormed) (hw : w.Within T) {s t : TypeId} (hs : T.Has s)
    (ht : T.Has t) : TypeM.Stable (plan w s t) T Plan.Within := by
  unfold plan
  repeat' split
  all_goals try exact .pure hT (Plan.within_verdict _)
  refine (World.stable_resolveAlias hT hw hs).bind fun s T₁ hg₁ hs => ?_
  refine (World.stable_resolveAlias hg₁.wellFormed (hw.of_le hg₁.le) (ht.of_le hg₁.le)).bind
    fun t T₂ hg₂ ht => ?_
  have hT := hg₂.wellFormed
  have hs := hs.of_le hg₂.le
  refine .lookup hs (.lookup ht ?_)
  unfold expandedPlan
  split
  · rename_i members hd
    refine .pure hT fun goal hgoal => ?_
    obtain ⟨member, hmember, rfl⟩ := List.mem_map.mp hgoal
    exact ⟨hT.hasAll_of_lookup hd member hmember, ht⟩
  · rename_i members hd _
    refine .pure hT fun pair hpair => ?_
    obtain ⟨member, hmember, rfl⟩ := List.mem_map.mp hpair
    exact ⟨hs, hT.hasAll_of_lookup hd member hmember⟩
  · rename_i members hd _
    refine .pure hT fun goal hgoal => ?_
    obtain ⟨member, hmember, rfl⟩ := List.mem_map.mp hgoal
    exact ⟨hs, hT.hasAll_of_lookup hd member hmember⟩
  · rename_i members hd _ _
    refine .pure hT fun pair hpair => ?_
    obtain ⟨member, hmember, rfl⟩ := List.mem_map.mp hpair
    exact ⟨hT.hasAll_of_lookup hd member hmember, ht⟩
  · exact stable_layerPlan hT (hw.of_le (hg₁.trans hg₂).le) hs ht

end ScriptTyping.Subtyping
