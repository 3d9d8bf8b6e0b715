import ScriptTyping.Proofs.Hierarchy.Abbreviation
import ScriptTyping.Proofs.Stability.Members
import ScriptTyping.Proofs.Subtyping.Unfolding
import ScriptTyping.Proofs.Termination.Expansion

/-!
# Termination of member and signature resolution

Member lookup and the two signature resolutions have no guard: each hands its type on until it meets
one that answers.  All that they do between two steps ends on its own, so a resolution ends if the
type has a span, which it has unless something is handed on in a circle.  Circles of aliases that
stand as one another, and of type variables that an environment replaces by one another, are cut off
and do no harm.

## Main definitions

* `Reading.Ready` — what a resolution reads is in order.

## Main results

* `World.Spans.settles_call`, `World.Spans.settles_construct`, `World.Spans.settles_member` — a type
  with a span is resolved.
* `World.resolveMember?_of_memberless`, `World.resolveMember?_of_shape` — receivers that answer at
  once.
* `World.resolution_terminates` — without a circle the three resolutions end.
-/

namespace ScriptTyping

open TypeM (Total Settles)

/-! ### Between two steps -/

namespace World

variable (w : World) (env : Environment)

theorem total_classifierChain (t : TypeId) : Total (w.classifierChain t) :=
  (w.total_supertypes t).bind fun _ => .get fun _ => .pure _

private theorem total_recordArgument (state : Environment × List DeclId) (pair : DeclId × TypeId) :
    Total (recordArgument state pair) := by
  rw [recordArgument]
  split
  · exact .pure _
  · exact (TypeM.total_intern _).bind fun _ => .pure _

private theorem total_recordArguments (state : Environment × List DeclId) (t : TypeId) :
    Total (w.recordArguments state t) := by
  rw [recordArguments]
  refine (TypeM.total_lookup t).bind fun data => ?_
  split
  · split
    · exact .pure _
    · split
      · exact .foldlM total_recordArgument _ _
      · exact .pure _
  · exact .pure _

theorem total_addSubstitutions (receiver : TypeId) : Total (w.addSubstitutions env receiver) :=
  (w.total_supertypes receiver).bind fun above =>
    (Total.foldlM w.total_recordArguments above _).bind fun _ => .pure _

theorem total_instantiateFor (receiver t : TypeId) : Total (w.instantiateFor env receiver t) :=
  ((w.total_addSubstitutions env.wrap receiver).bind fun _ => .pure _).bind fun env =>
    env.total_substitute t

theorem total_signatureMember? (receiver : TypeId) (flag : Flag) :
    Total (w.signatureMember? env receiver flag) := by
  rw [signatureMember?]
  refine (w.total_classifierChain receiver).bind fun chain => ?_
  split
  · exact (w.total_instantiateFor env receiver _).bind fun _ => .pure _
  · exact .pure _

theorem total_classConstructor? (instanceType : TypeId) :
    Total (w.classConstructor? env instanceType) := by
  have hopen (decl : DeclId) (info : Declaration) (args : List TypeId) :
      Total (openInstance instanceType decl info args) := by
    rw [openInstance]
    split
    · exact (Total.mapM (fun _ => TypeM.total_intern _) _).bind fun _ =>
        (TypeM.total_intern _).bind fun _ => .pure _
    · exact .pure _
  have hsignature (receiver : TypeId) : Total (w.constructorSignature? env receiver) := by
    rw [constructorSignature?]
    refine (w.total_classifierChain receiver).bind fun chain => ?_
    dsimp only
    split
    · exact (w.total_instantiateFor env receiver _).bind fun _ =>
        (TypeM.total_lookup _).bind fun _ => .pure _
    · exact .pure _
  rw [classConstructor?]
  refine (TypeM.total_lookup instanceType).bind fun data => ?_
  split
  · split
    · split
      · exact .pure _
      · exact (hopen _ _ _).bind fun opened => (hsignature _).bind fun _ =>
          (TypeM.total_intern _).bind fun _ => .pure _
    · exact .pure _
  · exact .pure _

theorem total_declaredMember? (query : MemberQuery) (receiver : TypeId) :
    Total (w.declaredMember? query receiver) :=
  (w.total_classifierChain receiver).bind fun _ => .pure _

end World

/-- All alternatives are asked until two of them differ. -/
theorem TypeM.Settles.agreeing {α β : Type} [DecidableEq β] {ask : Nat → α → TypeM (Option β)}
    (l : List α) : ∀ {T : TypeTable} {agreed : Option β}, T.WellFormed →
      (∀ a ∈ l, ∀ T', T.GrowsTo T' → Settles (fun n => ask n a) T' fun _ _ => True) →
      Settles (fun n => World.agreeing (ask n) agreed l) T fun _ _ => True := by
  induction l with
  | nil => exact fun hT _ => .pure hT trivial
  | cons a l ih =>
    intro T agreed hT hask
    refine (hask a (List.mem_cons_self ..) T (.refl hT)).bind fun o T₁ hg _ => ?_
    cases o with
    | none => exact .pure hg.wellFormed trivial
    | some b =>
      refine .ite (fun _ => .pure hg.wellFormed trivial) fun _ => ?_
      exact ih hg.wellFormed fun a' ha' T' hg' =>
        hask a' (List.mem_cons_of_mem _ ha') T' (hg.trans hg')

/-! ### One step -/

/-- What a resolution reads is in order: rows mention earlier rows only, and the table has all types
that are read. -/
structure Reading.Ready (r : Reading) (w : World) (T : TypeTable) : Prop where
  table : T.WellFormed
  descending : T.Descending
  initial : TypeTable.initial ≤ T
  world : w.Within T
  environment : r.Within T

variable {w : World} {r : Reading} {env : Environment} {T T' : TypeTable} {t : TypeId}
  {n rounds : Nat}

theorem Reading.Ready.grow (h : r.Ready w T) (hg : T.GrowsTo T') : r.Ready w T' where
  table := hg.wellFormed
  descending := h.descending.growsTo hg
  initial := le_trans h.initial hg.le
  world := h.world.of_le hg.le
  environment := h.environment.of_le hg.le

namespace World

/-- What an environment makes of a type is asked in its place. -/
theorem Spans.settles_substitute (h : r.Ready w T) (henv : r.env? = some env)
    (hspan : w.Spans r T noSpans n expansionLimit t) :
    Settles (fun _ => env.substitute t) T fun T' u => w.Spans r T' noSpans n expansionLimit u := by
  refine (env.total_substitute t).settles_of_runs fun u T' hrun => ?_
  obtain ⟨hg, -, -⟩ :=
    Environment.stable_substitute h.table (h.environment env henv) hspan.has u T' hrun
  exact ⟨hg, hspan.substitute h.table h.environment henv le_rfl hrun⟩

/-- What an alias expands to is asked in its place. -/
theorem Spans.settles_resolveAlias (h : r.Ready w T)
    (hspan : w.Spans r T noSpans n expansionLimit t) :
    Settles (fun _ => w.resolveAlias t) T fun T' u => w.Spans r T' noSpans n 0 u := by
  refine (w.total_resolveAlias t).settles_of_runs fun u T' hrun => ?_
  obtain ⟨hg, -, -⟩ := stable_resolveAlias h.table h.world hspan.has u T' hrun
  exact ⟨hg, hspan.resolveAlias h.table h.world h.environment hrun⟩

/-- The bound of a type has a smaller span, unless it is the type itself or `any`. -/
theorem Spans.boundFrom? (hasked : r.env?.isSome) (fuel : Nat) :
    ∀ {n rounds : Nat} {t b : TypeId}, w.Spans r T noSpans n rounds t →
      T.boundFrom? fuel t = some b →
      b = t ∨ b = .any ∨ ∃ m < n, w.Spans r T noSpans m expansionLimit b := by
  induction fuel with
  | zero =>
    intro n rounds t b _ hb
    rw [TypeTable.boundFrom?] at hb
    split at hb
    · cases hb
    · cases hb
    · exact .inr (.inl (Option.some.inj hb).symm)
    · exact .inl (Option.some.inj hb).symm
  | succ fuel ih =>
    intro n rounds t b hspan hb
    have hchain {bound : TypeId} (hpassed : bound ∈ r.passed (T.lookup t))
        (hb : T.boundFrom? fuel bound = some b) :
        b = t ∨ b = .any ∨ ∃ m < n, w.Spans r T noSpans m expansionLimit b := by
      obtain ⟨m, rfl, hbound⟩ := hspan.passed hpassed
      rcases ih hbound hb with rfl | hany | ⟨k, hk, hspan⟩
      · exact .inr (.inr ⟨m, Nat.lt_succ_self m, hbound⟩)
      · exact .inr (.inl hany)
      · exact .inr (.inr ⟨k, by omega, hspan⟩)
    rw [TypeTable.boundFrom?] at hb
    split at hb
    · rename_i bound hd
      refine hchain ?_ hb
      rw [hd]
      cases r with
      | call | construct => exact List.mem_singleton_self bound
      | member => cases hasked
    · rename_i bound hd
      refine hchain ?_ hb
      rw [hd]
      cases r with
      | call | construct => exact List.mem_singleton_self bound
      | member => cases hasked
    · exact .inr (.inl (Option.some.inj hb).symm)
    · exact .inl (Option.some.inj hb).symm

section Asked

variable {α : Type} {ask : Nat → TypeId → TypeM (Option α)}

/-- The question is answered for all types with a smaller span. -/
def SettlesBelow (w : World) (r : Reading) (ask : Nat → TypeId → TypeM (Option α)) (n : Nat) :
    Prop :=
  ∀ m < n, ∀ {T : TypeTable} {s : TypeId}, r.Ready w T → w.Spans r T noSpans m expansionLimit s →
    Settles (fun k => ask k s) T fun _ _ => True

/-- The parts of a layer are asked. -/
theorem Spans.settles_passed (h : r.Ready w T) (hask : w.SettlesBelow r ask n)
    (hspan : w.Spans r T noSpans n rounds t) {s : TypeId} (hs : s ∈ r.passed (T.lookup t))
    (T' : TypeTable) (hg : T.GrowsTo T') : Settles (fun k => ask k s) T' fun _ _ => True := by
  obtain ⟨m, rfl, hm⟩ := hspan.passed hs
  exact hask m (Nat.lt_succ_self m) (h.grow hg) (hm.of_le hg.le h.environment)

/-- A type variable is asked through its declared bound. -/
theorem Spans.settles_variable {d : DeclId} (h : r.Ready w T) (hasked : r.env?.isSome)
    (hask : w.SettlesBelow r ask n) (hspan : w.Spans r T noSpans n rounds t)
    (hd : T.lookup t = .typeVariable d) :
    Settles (fun k => do
      let bound := w.declarations.variableBound d
      if bound = .any then return none
      ask k bound) T fun _ _ => True := by
  refine .ite (fun _ => .pure h.table trivial) fun _ => ?_
  obtain ⟨m, rfl, hm⟩ := hspan.stands (.bound hasked .refl hd)
  exact hask m (Nat.lt_succ_self m) h hm

/-- A wildcard and a bound `this` are asked through their upper bound. -/
theorem Spans.settles_upper (h : r.Ready w T) (hasked : r.env?.isSome)
    (hask : w.SettlesBelow r ask n) (hspan : w.Spans r T noSpans n rounds t)
    (hany : Settles (fun k => ask k .any) T fun _ _ => True) :
    Settles (fun k => do
      let upper ← TypeM.upperBound t
      if upper = t then return none
      ask k upper) T fun _ _ => True := by
  obtain ⟨b, hb⟩ := TypeTable.exists_upperBound h.table h.descending hspan.has
  have hrun : TypeM.upperBound t T = .ok b T := by
    change TypeM.ofOption (T.upperBound? t) T = _
    rw [hb]
    rfl
  refine .after hrun (.ite (fun _ => .pure h.table trivial) fun hne => ?_)
  rcases hspan.boundFrom? hasked _ hb with rfl | rfl | ⟨m, hm, hs⟩
  · exact absurd rfl hne
  · exact hany
  · exact hask m hm h hs

end Asked

/-! ### The three resolutions -/

/-- Nothing is put in place of `any`, it is no alias, and it is a primitive type. -/
private theorem any_unchanged (w : World) (env : Environment) (hinit : TypeTable.initial ≤ T) :
    env.substitute .any T = .ok .any T ∧ w.resolveAlias .any T = .ok .any T ∧
      T.lookup .any = .primitive .any := by
  refine ⟨?_, Subtyping.resolveAlias_of_reserved hinit (by decide), ?_⟩
  · rw [Environment.substitute]
    split <;> rfl
  · exact TypeTable.lookup_of_le hinit (TypeTable.wellFormed_initial.has_reserved (by decide))

/-- A callee with a span is resolved. -/
theorem Spans.settles_call (n : Nat) : ∀ {T : TypeTable} {t : TypeId},
    (Reading.call env).Ready w T → w.Spans (.call env) T noSpans n expansionLimit t →
    Settles (fun k => w.resolveCallableFrom env k t) T fun _ _ => True := by
  induction n using Nat.strong_induction_on with
  | _ n hask =>
  intro T t h hspan
  refine .succ ?_
  simp only [resolveCallableFrom]
  refine (hspan.settles_substitute h rfl).bind fun t T₁ hg₁ hspan => ?_
  have h := h.grow hg₁
  refine (hspan.settles_resolveAlias h).bind fun t T₂ hg₂ hspan => ?_
  have h := h.grow hg₂
  have hany : Settles (fun k => w.resolveCallableFrom env k .any) T₂ fun _ _ => True := by
    obtain ⟨hsubstitute, hresolve, hlookup⟩ := any_unchanged w env h.initial
    refine .succ ?_
    simp only [resolveCallableFrom]
    refine .after hsubstitute (.after hresolve (.lookup ?_))
    rw [hlookup]
    exact .pure h.table trivial
  have hupper := hspan.settles_upper h rfl hask hany
  have hpassed {s : TypeId} := hspan.settles_passed h hask (s := s)
  refine .lookup ?_
  cases hd : T₂.lookup t with
  | nominal decl args =>
    refine .ite (fun _ => .pure h.table trivial) fun _ => ?_
    have hmember := (w.total_signatureMember? env t .callSignature).settles
      (stable_signatureMember? ⟨h.table, h.world, h.environment env rfl⟩ hspan.has _)
    exact hmember.bind fun _ _ hg _ => .pure hg.wellFormed trivial
  | typeVariable d => exact hspan.settles_variable h rfl hask hd
  | thisType bound =>
    cases bound with
    | none => exact .pure h.table trivial
    | some bound => exact hupper
  | wildcard => exact hupper
  | intersection members =>
    rw [hd] at hpassed
    exact .findSomeM? members h.table fun s hs => hpassed hs
  | union members =>
    rw [hd] at hpassed
    exact .agreeing members h.table fun s hs => hpassed hs
  | _ => exact .pure h.table trivial

/-- A callee of `new` with a span is resolved. -/
theorem Spans.settles_construct (n : Nat) : ∀ {T : TypeTable} {t : TypeId},
    (Reading.construct env).Ready w T → w.Spans (.construct env) T noSpans n expansionLimit t →
    Settles (fun k => w.resolveConstructibleFrom env k t) T fun _ _ => True := by
  induction n using Nat.strong_induction_on with
  | _ n hask =>
  intro T t h hspan
  refine .succ ?_
  simp only [resolveConstructibleFrom]
  refine (hspan.settles_substitute h rfl).bind fun t T₁ hg₁ hspan => ?_
  have h := h.grow hg₁
  refine (hspan.settles_resolveAlias h).bind fun t T₂ hg₂ hspan => ?_
  have h := h.grow hg₂
  have hsetting : w.Setting env T₂ := ⟨h.table, h.world, h.environment env rfl⟩
  have hany : Settles (fun k => w.resolveConstructibleFrom env k .any) T₂ fun _ _ => True := by
    obtain ⟨hsubstitute, hresolve, hlookup⟩ := any_unchanged w env h.initial
    refine .succ ?_
    simp only [resolveConstructibleFrom]
    refine .after hsubstitute (.after hresolve (.lookup ?_))
    rw [hlookup]
    exact .pure h.table trivial
  have hupper := hspan.settles_upper h rfl hask hany
  have hpassed {s : TypeId} := hspan.settles_passed h hask (s := s)
  refine .lookup ?_
  cases hd : T₂.lookup t with
  | metaType arg isConstructor =>
    cases isConstructor with
    | false => exact .pure h.table trivial
    | true =>
      have harg : T₂.Has arg := h.table.hasAll_of_lookup hd arg (List.mem_singleton_self arg)
      refine (Subtyping.settles_upperBound h.table h.descending harg).bind fun upper T₃ hg₃ hu => ?_
      refine (w.total_classConstructor? env upper).settles ?_
      exact (stable_classConstructor? (hsetting.grow hg₃) hu).mono fun _ _ _ _ => trivial
  | nominal decl args =>
    have hmember := (w.total_signatureMember? env t .constructSignature).settles
      (stable_signatureMember? hsetting hspan.has _)
    refine hmember.bind fun o T₃ hg _ => ?_
    cases o with
    | none => exact .pure hg.wellFormed trivial
    | some signature => exact .lookup (.pure hg.wellFormed trivial)
  | typeVariable d => exact hspan.settles_variable h rfl hask hd
  | thisType bound =>
    cases bound with
    | none => exact .pure h.table trivial
    | some bound => exact hupper
  | wildcard => exact hupper
  | intersection members =>
    rw [hd] at hpassed
    exact .findSomeM? members h.table fun s hs => hpassed hs
  | _ => exact .pure h.table trivial

/-- The members of a type with a span are looked up. -/
theorem Spans.settles_member (query : MemberQuery) (n : Nat) : ∀ {T : TypeTable} {t : TypeId},
    Reading.member.Ready w T → w.Spans .member T noSpans n expansionLimit t →
    Settles (fun k => w.resolveMemberFrom query k t) T fun _ _ => True := by
  induction n using Nat.strong_induction_on with
  | _ n hask =>
  intro T t h hspan
  refine .succ ?_
  simp only [resolveMemberFrom]
  refine (hspan.settles_resolveAlias h).bind fun t T₁ hg₁ hspan => ?_
  have h := h.grow hg₁
  have hpassed {s : TypeId} := hspan.settles_passed h hask (s := s)
  have hdeclared := (w.total_declaredMember? query t).settles
    (stable_declaredMember? h.table h.world query hspan.has)
  refine .lookup ?_
  cases hd : T₁.lookup t with
  | structural | unknown | dynamicAny | primitive => exact .pure h.table trivial
  | metaType arg isConstructor =>
    rw [hd] at hpassed
    exact hpassed (List.mem_singleton_self arg) T₁ (.refl h.table)
  | union members =>
    rw [hd] at hpassed
    exact .agreeing members h.table fun s hs => hpassed hs
  | intersection members =>
    rw [hd] at hpassed
    exact .findSomeM? members h.table fun s hs => hpassed hs
  | _ => exact hdeclared

/-! ### Receivers that answer at once -/

/-- Nothing is found on what is unknown or dynamic. -/
theorem resolveMember?_of_memberless (hfuel : 0 < w.fuel) (hinit : .initial ≤ T)
    (ht : t = .unknown ∨ t = .dynamicAny) (query : MemberQuery) :
    w.resolveMember? query t T = .ok none T := by
  obtain ⟨fuel, hfuel⟩ := Nat.exists_eq_succ_of_ne_zero (Nat.ne_of_gt hfuel)
  have hreserved : t.index < TypeId.firstDynamic := by
    rcases ht with rfl | rfl <;> decide
  have hlookup : T.lookup t = TypeTable.initial.lookup t :=
    TypeTable.lookup_of_le hinit (TypeTable.wellFormed_initial.has_reserved hreserved)
  rw [resolveMember?, hfuel, resolveMemberFrom,
    TypeM.bind_of_ok (Subtyping.resolveAlias_of_reserved hinit hreserved),
    TypeM.bind_of_ok (TypeM.lookup_run t T), hlookup]
  rcases ht with rfl | rfl <;> rfl

/-- On a shape the declaration behind the member is found. -/
theorem resolveMember?_of_shape (hfuel : 0 < w.fuel) {members : List Property}
    (hshape : T.lookup t = .structural members) (query : MemberQuery) :
    w.resolveMember? query t T = .ok ((findProperty? members query.name).bind (·.decl)) T := by
  obtain ⟨fuel, hfuel⟩ := Nat.exists_eq_succ_of_ne_zero (Nat.ne_of_gt hfuel)
  have halias : w.resolveAlias t T = .ok t T := by
    refine Subtyping.resolveAlias_of_not_alias ?_
    rintro ⟨decl, args, hlookup, -⟩
    cases hshape.symm.trans hlookup
  rw [resolveMember?, hfuel, resolveMemberFrom, TypeM.bind_of_ok halias,
    TypeM.bind_of_ok (TypeM.lookup_run t T), hshape]
  rfl

/-! ### Fuel -/

section Fuel

variable (w : World) (fuel : Nat)

theorem classifierChain_withFuel (t : TypeId) :
    (w.withFuel fuel).classifierChain t = w.classifierChain t := by
  rw [classifierChain, classifierChain, supertypes_withFuel]

theorem instantiateFor_withFuel (env : Environment) (receiver t : TypeId) :
    (w.withFuel fuel).instantiateFor env receiver t = w.instantiateFor env receiver t := by
  simp only [instantiateFor, receiverScope, addSubstitutions, supertypes_withFuel]
  rfl

theorem signatureMember?_withFuel (env : Environment) (receiver : TypeId) (flag : Flag) :
    (w.withFuel fuel).signatureMember? env receiver flag =
      w.signatureMember? env receiver flag := by
  simp only [signatureMember?, classifierChain_withFuel, instantiateFor_withFuel]
  rfl

theorem classConstructor?_withFuel (env : Environment) (instanceType : TypeId) :
    (w.withFuel fuel).classConstructor? env instanceType =
      w.classConstructor? env instanceType := by
  simp only [classConstructor?, constructorSignature?, classifierChain_withFuel,
    instantiateFor_withFuel]
  rfl

theorem declaredMember?_withFuel (query : MemberQuery) (receiver : TypeId) :
    (w.withFuel fuel).declaredMember? query receiver = w.declaredMember? query receiver := by
  simp only [declaredMember?, classifierChain_withFuel]
  rfl

/-- The fuel of the world is the depth of the resolution of a callee. -/
theorem resolveCallable?_withFuel (env : Environment) (t : TypeId) :
    (w.withFuel fuel).resolveCallable? env t = w.resolveCallableFrom env fuel t := by
  suffices ∀ depth, (w.withFuel fuel).resolveCallableFrom env depth =
      w.resolveCallableFrom env depth from congrFun (this fuel) t
  intro depth
  induction depth with
  | zero => rfl
  | succ depth ih =>
    funext t
    simp only [resolveCallableFrom, resolveAlias_withFuel, signatureMember?_withFuel, ih]
    rfl

/-- The fuel of the world is the depth of the resolution of a callee of `new`. -/
theorem resolveConstructible?_withFuel (env : Environment) (t : TypeId) :
    (w.withFuel fuel).resolveConstructible? env t = w.resolveConstructibleFrom env fuel t := by
  suffices ∀ depth, (w.withFuel fuel).resolveConstructibleFrom env depth =
      w.resolveConstructibleFrom env depth from congrFun (this fuel) t
  intro depth
  induction depth with
  | zero => rfl
  | succ depth ih =>
    funext t
    simp only [resolveConstructibleFrom, resolveAlias_withFuel, signatureMember?_withFuel,
      classConstructor?_withFuel, ih]
    rfl

/-- The fuel of the world is the depth of a member lookup. -/
theorem resolveMember?_withFuel (query : MemberQuery) (t : TypeId) :
    (w.withFuel fuel).resolveMember? query t = w.resolveMemberFrom query fuel t := by
  suffices ∀ depth, (w.withFuel fuel).resolveMemberFrom query depth =
      w.resolveMemberFrom query depth from congrFun (this fuel) t
  intro depth
  induction depth with
  | zero => rfl
  | succ depth ih =>
    funext t
    simp only [resolveMemberFrom, resolveAlias_withFuel, declaredMember?_withFuel, ih]

end Fuel

/-! ### The result -/

/-- A question that is answered for all types with a span is answered where nothing is handed on in
a circle. -/
private theorem NoCircle.exists_fuel {α : Type} {ask : Nat → TypeId → TypeM (Option α)}
    (hcircle : w.NoCircle r T t) (h : r.Ready w T) (ht : T.Has t)
    (hask : ∀ n, w.SettlesBelow r ask n) : ∃ n o T', ∀ m, n ≤ m → ask m t T = .ok o T' := by
  obtain ⟨k, hspan⟩ := hcircle.exists_spans h.table h.world h.environment ht
  obtain ⟨n, o, T', -, -, hanswer⟩ := hask (k + 1) k (Nat.lt_succ_self k) h hspan
  exact ⟨n, o, T', hanswer⟩

/-- Where nothing is handed on in a circle, some amount of fuel is enough to resolve a type as a
callee, as a callee of `new` and as the receiver of a member, and more fuel gives the same. -/
theorem resolution_terminates (hT : T.WellFormed) (hdesc : T.Descending)
    (hinit : TypeTable.initial ≤ T) (hw : w.Within T) (ht : T.Has t) :
    (∀ env : Environment, env.Within T → w.NoCircle (.call env) T t → ∃ n o T', ∀ m, n ≤ m →
      (w.withFuel m).resolveCallable? env t T = .ok o T') ∧
    (∀ env : Environment, env.Within T → w.NoCircle (.construct env) T t → ∃ n o T', ∀ m, n ≤ m →
      (w.withFuel m).resolveConstructible? env t T = .ok o T') ∧
    (w.NoCircle .member T t → ∀ query, ∃ n o T', ∀ m, n ≤ m →
      (w.withFuel m).resolveMember? query t T = .ok o T') := by
  simp only [resolveCallable?_withFuel, resolveConstructible?_withFuel, resolveMember?_withFuel]
  refine ⟨fun env henv hcircle => ?_, fun env henv hcircle => ?_, fun hcircle query => ?_⟩
  · have hr : (Reading.call env).Within T := fun _ h => Option.some.inj h ▸ henv
    exact hcircle.exists_fuel ⟨hT, hdesc, hinit, hw, hr⟩ ht fun _ m _ => Spans.settles_call m
  · have hr : (Reading.construct env).Within T := fun _ h => Option.some.inj h ▸ henv
    exact hcircle.exists_fuel ⟨hT, hdesc, hinit, hw, hr⟩ ht fun _ m _ => Spans.settles_construct m
  · have hr : Reading.member.Within T := fun _ h => by cases h
    exact hcircle.exists_fuel ⟨hT, hdesc, hinit, hw, hr⟩ ht
      fun _ m _ => Spans.settles_member query m

/-- A type variable `T` bounded by `U`, which is bounded by a class; an alias with a type parameter
`P` of the alternatives `P` and `U`; two aliases that stand as one another; two type variables that
bound one another; and an alias that is one of its own alternatives. -/
def boundedWorld : World where
  declarations := ⟨#[
    { kind := .classType, name := .none },
    { kind := .typeVariable, name := .none, declaredType := some ⟨16⟩ },
    { kind := .typeVariable, name := .none, declaredType := some ⟨17⟩ },
    { kind := .typeAlias, name := .none, typeParams := [⟨5⟩], declaredType := some ⟨20⟩ },
    { kind := .typeVariable, name := .none },
    { kind := .typeAlias, name := .none, declaredType := some ⟨23⟩ },
    { kind := .typeAlias, name := .none, declaredType := some ⟨22⟩ },
    { kind := .typeVariable, name := .none, declaredType := some ⟨25⟩ },
    { kind := .typeVariable, name := .none, declaredType := some ⟨24⟩ },
    { kind := .typeAlias, name := .none, declaredType := some ⟨27⟩ }]⟩
  builtins := { (default : Builtins) with object := ⟨1⟩, objectType := ⟨16⟩, functionType := ⟨16⟩ }
  fuel := 0

/-- The class; `U`, `T`, `P`, the alternatives, and the alias of them with `T` as argument; the two
aliases, the two type variables, the last alias and its alternatives. -/
def boundedTable : TypeTable :=
  (((((((((((TypeTable.initial.store (.nominal ⟨1⟩ [])).store (.typeVariable ⟨2⟩)).store
    (.typeVariable ⟨3⟩)).store (.typeVariable ⟨5⟩)).store (.union [⟨19⟩, ⟨17⟩])).store
    (.nominal ⟨4⟩ [⟨18⟩])).store (.nominal ⟨6⟩ [])).store (.nominal ⟨7⟩ [])).store
    (.typeVariable ⟨8⟩)).store (.typeVariable ⟨9⟩)).store (.nominal ⟨10⟩ [])).store
    (.union [⟨26⟩, .number])

private theorem growsTo_boundedTable : TypeTable.initial.GrowsTo boundedTable := by
  rw [boundedTable]
  iterate 12 refine TypeTable.GrowsTo.store ?_ (by decide) (by decide)
  exact .refl TypeTable.wellFormed_initial

/-- Under the empty environment only its bound stands for a type variable. -/
private theorem eq_variableBound_of_standsFor {s : TypeId}
    (hr : r.env? = some .empty ∨ r.env? = none) (h : w.StandsFor r T t s) :
    ∃ d, T.lookup t = .typeVariable d ∧ s = w.declarations.variableBound d := by
  have henv {env : Environment} (h : r.env? = some env) : env = .empty := by
    rcases hr with hr | hr <;> rw [hr] at h <;> cases h
    rfl
  have hchain {v : TypeId} (h : r.Follows T t v) : t = v := by
    rcases h.cases_head with rfl | ⟨_, ⟨env, d, hr', -, hd⟩, -⟩
    · rfl
    · obtain rfl := henv hr'
      cases hd
  cases h with
  | bound _ hfollows hv => exact ⟨_, hchain hfollows ▸ hv, rfl⟩
  | replacement ht hfollows hs => exact absurd ht (hchain hfollows ▸ hs _)
  | receiver hr' _ hs =>
    obtain rfl := henv hr'
    cases hs

/-- The alias of the alternatives leads to bounds and arguments that come before it. -/
private theorem noCircle_boundedTable (hr : r.env? = some .empty ∨ r.env? = none) :
    boundedWorld.NoCircle r boundedTable ⟨21⟩ := by
  have hdesc := TypeTable.descending_initial.growsTo growsTo_boundedTable
  have hparts {a b : TypeId} (hb : b ∈ (boundedTable.lookup a).parts) : b.index < a.index := by
    have ha : boundedTable.Has a := TypeTable.has_of_lookup_ne fun hunknown => by
      rw [hunknown] at hb
      cases hb
    exact hdesc a _ ha.lookup? b hb
  have hbounds : ∀ i < 22, (match boundedTable.lookup ⟨i⟩ with
      | .typeVariable d => decide ((boundedWorld.declarations.variableBound d).index < i)
      | _ => true) = true := by decide
  have haliases : ∀ i < 22, ∀ body ∈ boundedWorld.aliasBody? (boundedTable.lookup ⟨i⟩),
      body.2.2.index < i := by decide
  refine noCircle_of_rank TypeId.index (fun a b ha hab => ?_) fun a b ha hab => ?_
  · cases hab with
    | part hb => exact hparts (Reading.mem_parts_of_passed hb)
    | stand hb =>
      obtain ⟨d, hd, rfl⟩ := eq_variableBound_of_standsFor hr hb
      have hbound := hbounds a.index (Nat.lt_succ_of_le ha)
      rw [show boundedTable.lookup ⟨a.index⟩ = .typeVariable d from hd] at hbound
      exact of_decide_eq_true hbound
    | argument hbody hpair =>
      obtain ⟨decl, info, hlookup, -, -⟩ := exists_of_aliasBody? hbody
      refine hparts ?_
      rw [hlookup]
      exact (List.of_mem_zip hpair).2
  · obtain ⟨params, args, hbody⟩ := hab
    exact (haliases a.index (Nat.lt_succ_of_le ha) _ hbody).le

/-- Nothing is handed on between the aliases that stand as one another. -/
private theorem noCircle_aliases (hr : r.env? = some .empty ∨ r.env? = none) :
    boundedWorld.NoCircle r boundedTable ⟨22⟩ := by
  refine noCircle_of_rank (fun t => if t ∈ [(⟨22⟩ : TypeId), ⟨23⟩] then 0 else 1)
    (fun a b ha hab => ?_) fun a b ha hab => ?_
  all_goals
    have hmem : a ∈ [(⟨22⟩ : TypeId), ⟨23⟩] := by
      by_contra hmem
      simp [hmem] at ha
    simp only [List.mem_cons, List.not_mem_nil, or_false] at hmem
  · exfalso
    cases hab with
    | part hb =>
      rcases hmem with rfl | rfl <;> cases r <;> cases hb
    | stand hb =>
      obtain ⟨d, hd, -⟩ := eq_variableBound_of_standsFor hr hb
      rcases hmem with rfl | rfl <;> cases hd
    | argument hbody hpair =>
      rcases hmem with rfl | rfl <;> cases hbody <;> cases hpair
  · obtain ⟨params, args, hbody⟩ := hab
    rcases hmem with rfl | rfl <;> cases hbody <;> decide

/-- The type variables that bound one another hand the question on for ever, and so does the alias
among its own alternatives. -/
private theorem diverges_boundedTable (n : Nat) :
    (∀ t ∈ [(⟨24⟩ : TypeId), ⟨25⟩],
      boundedWorld.resolveCallableFrom .empty n t boundedTable = .error .outOfFuel boundedTable ∧
      boundedWorld.resolveConstructibleFrom .empty n t boundedTable =
        .error .outOfFuel boundedTable) ∧
    ∀ query, boundedWorld.resolveMemberFrom query n ⟨26⟩ boundedTable =
      .error .outOfFuel boundedTable := by
  induction n with
  | zero => exact ⟨fun _ _ => ⟨rfl, rfl⟩, fun _ => rfl⟩
  | succ n ih =>
    refine ⟨fun t ht => ?_, fun query => ?_⟩
    · simp only [List.mem_cons, List.not_mem_nil, or_false] at ht
      rcases ht with rfl | rfl
      · exact ih.1 ⟨25⟩ (by simp)
      · exact ih.1 ⟨24⟩ (by simp)
    · have hunion : boundedWorld.resolveMemberFrom query (n + 1) ⟨26⟩ boundedTable =
          agreeing (boundedWorld.resolveMemberFrom query n) none [⟨26⟩, .number] boundedTable := rfl
      rw [hunion, agreeing]
      change EStateM.bind _ _ _ = _
      rw [EStateM.bind, ih.2 query]

/-- The alias of the alternatives and the aliases that stand as one another are resolved.  The type
variables that bound one another, and the alias among its own alternatives, are handed on in a
circle and resolved with no amount of fuel. -/
theorem resolution_terminates_bounded :
    (∀ t ∈ [(⟨21⟩ : TypeId), ⟨22⟩],
      (∃ n o T', ∀ m, n ≤ m →
        (boundedWorld.withFuel m).resolveCallable? .empty t boundedTable = .ok o T') ∧
      (∃ n o T', ∀ m, n ≤ m →
        (boundedWorld.withFuel m).resolveConstructible? .empty t boundedTable = .ok o T') ∧
      ∀ query, ∃ n o T', ∀ m, n ≤ m →
        (boundedWorld.withFuel m).resolveMember? query t boundedTable = .ok o T') ∧
    (¬boundedWorld.NoCircle (.call .empty) boundedTable ⟨24⟩ ∧ ∀ n o T',
      (boundedWorld.withFuel n).resolveCallable? .empty ⟨24⟩ boundedTable ≠ .ok o T') ∧
    (¬boundedWorld.NoCircle (.construct .empty) boundedTable ⟨24⟩ ∧ ∀ n o T',
      (boundedWorld.withFuel n).resolveConstructible? .empty ⟨24⟩ boundedTable ≠ .ok o T') ∧
    (¬boundedWorld.NoCircle .member boundedTable ⟨26⟩ ∧ ∀ query n o T',
      (boundedWorld.withFuel n).resolveMember? query ⟨26⟩ boundedTable ≠ .ok o T') := by
  have hbound {r : Reading} (hasked : r.env?.isSome) :
      ¬boundedWorld.NoCircle r boundedTable ⟨24⟩ := by
    have hthere : boundedWorld.HandsOn r boundedTable ⟨24⟩ ⟨25⟩ :=
      .stand (.bound (d := ⟨8⟩) hasked .refl rfl)
    have hback : boundedWorld.HandsOn r boundedTable ⟨25⟩ ⟨24⟩ :=
      .stand (.bound (d := ⟨9⟩) hasked .refl rfl)
    exact fun h => h ⟨24⟩ ⟨25⟩ .refl hthere (.single (.inl hback))
  have hself : ¬boundedWorld.NoCircle .member boundedTable ⟨26⟩ := fun h =>
    h ⟨27⟩ ⟨26⟩ (.single (.inr ⟨[], [], rfl⟩)) (.part (List.mem_cons_self ..))
      (.single (.inr ⟨[], [], rfl⟩))
  refine ⟨fun t ht => ?_, ⟨hbound rfl, fun n o T' h => ?_⟩, ⟨hbound rfl, fun n o T' h => ?_⟩,
    hself, fun query n o T' h => ?_⟩
  · have hcircle {r : Reading} (hr : r.env? = some .empty ∨ r.env? = none) :
        boundedWorld.NoCircle r boundedTable t := by
      simp only [List.mem_cons, List.not_mem_nil, or_false] at ht
      rcases ht with rfl | rfl
      · exact noCircle_boundedTable hr
      · exact noCircle_aliases hr
    have hHas : boundedTable.HasAll [⟨21⟩, ⟨22⟩] := by decide
    obtain ⟨hcall, hconstruct, hmember⟩ := resolution_terminates growsTo_boundedTable.wellFormed
      (TypeTable.descending_initial.growsTo growsTo_boundedTable) growsTo_boundedTable.le
      (within_of_entries (w := boundedWorld) (by decide) (by decide)) (hHas t ht)
    exact ⟨hcall .empty Environment.within_empty (hcircle (.inl rfl)),
      hconstruct .empty Environment.within_empty (hcircle (.inl rfl)), hmember (hcircle (.inr rfl))⟩
  · rw [resolveCallable?_withFuel, ((diverges_boundedTable n).1 ⟨24⟩ (by simp)).1] at h
    cases h
  · rw [resolveConstructible?_withFuel, ((diverges_boundedTable n).1 ⟨24⟩ (by simp)).2] at h
    cases h
  · rw [resolveMember?_withFuel, (diverges_boundedTable n).2 query] at h
    cases h

end World

end ScriptTyping
