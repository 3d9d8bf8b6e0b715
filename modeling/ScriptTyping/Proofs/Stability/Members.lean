import ScriptTyping.Proofs.Environment.Congruence
import ScriptTyping.Proofs.Stability.Join

/-!
# Stability of members, signatures and type arguments

Looking up a member, resolving a callee and inferring the type arguments of a call are stable.  The
environments that are built on the way mention types of the table only.

## Main definitions

* `TypeTable.Binds` — replacements by types of the table.
* `Signature.types` — the types that a signature mentions.

## Main results

* `Environment.Within.extend`, `World.stable_receiverBindings` — environments of the table.
* `World.stable_resolveMember?` — members.
* `World.stable_resolveCallable?`, `World.stable_resolveConstructible?` — callees.
* `TypeArguments.stable_infer` — type arguments.
-/

namespace ScriptTyping

variable {w : World} {env : Environment} {T T' : TypeTable}

/-! ### Environments of the table -/

/-- All replacements are by types of the table. -/
def TypeTable.Binds (T : TypeTable) (bindings : List (DeclId × TypeId)) : Prop :=
  ∀ binding ∈ bindings, T.Has binding.2

theorem TypeTable.Binds.of_le {bindings : List (DeclId × TypeId)} (hle : T ≤ T')
    (h : T.Binds bindings) : T'.Binds bindings := fun binding hb => (h binding hb).of_le hle

theorem TypeTable.Binds.zip (params : List DeclId) {args : List TypeId} (hargs : T.HasAll args) :
    T.Binds (params.zip args) := fun _ hp => hargs _ (List.of_mem_zip hp).2

theorem TypeTable.Binds.flatten {found : List (List (DeclId × TypeId))}
    (h : ∀ bindings ∈ found, T.Binds bindings) : T.Binds found.flatten := fun binding hb => by
  obtain ⟨bindings, hbindings, hmem⟩ := List.mem_flatten.mp hb
  exact h bindings hbindings binding hmem

namespace Environment

/-- Writing an entry whose type, unless it belongs to a guard, is one of the table. -/
theorem Within.put (h : env.Within T) {key : EnvKey} {value : EnvValue}
    (hvalue : (∃ guard, key = .guard guard) ∨ ∀ t, value.type? = some t → T.Has t) :
    (env.put key value).Within T := by
  refine ⟨fun d t ht => ?_, fun t ht => ?_⟩
  · rw [substitution?, get?_put] at ht
    split at ht
    · rename_i hkey
      rcases hvalue with ⟨guard, hguard⟩ | hvalue
      · rw [hguard] at hkey
        cases hkey
      · exact hvalue t ht
    · exact h.substitution d t ht
  · rw [this?, get?_put] at ht
    split at ht
    · rename_i hkey
      rcases hvalue with ⟨guard, hguard⟩ | hvalue
      · rw [hguard] at hkey
        cases hkey
      · exact hvalue t ht
    · exact h.this t ht

theorem Within.wrap (h : env.Within T) : env.wrap.Within T := ⟨h.substitution, h.this⟩

theorem Within.withGuard (h : env.Within T) (key : GuardKey) : (env.withGuard key).Within T :=
  h.wrap.put (.inl ⟨key, rfl⟩)

theorem Within.withProvisional (h : env.Within T) (key : GuardKey) (preliminary : TypeId) :
    (env.withProvisional key preliminary).Within T :=
  h.wrap.put (.inl ⟨key, rfl⟩)

private theorem type?_type {t s : TypeId} (ht : T.Has t) (h : (EnvValue.type t).type? = some s) :
    T.Has s := Option.some.inj h ▸ ht

theorem Within.setThis (h : env.Within T) {t : TypeId} (ht : T.Has t) : (env.setThis t).Within T :=
  h.put (.inr fun _ hs => type?_type ht hs)

theorem Within.extend (bindings : List (DeclId × TypeId)) : ∀ {env : Environment},
    env.Within T → T.Binds bindings → (env.extend bindings).Within T := by
  induction bindings with
  | nil => exact fun h _ => h
  | cons binding bindings ih =>
    intro env h hbindings
    refine ih (h.put (.inr fun _ hs => ?_)) fun b hb => hbindings b (List.mem_cons_of_mem _ hb)
    exact type?_type (hbindings binding (List.mem_cons_self ..)) hs

end Environment

/-- The types that a signature mentions. -/
def Signature.types (signature : Signature) : List TypeId := (TypeData.function signature).parts

theorem TypeTable.HasAll.returnType {signature : Signature} (h : T.HasAll signature.types) :
    T.Has signature.returnType := h _ (by simp [Signature.types, TypeData.parts])

theorem TypeTable.HasAll.params {signature : Signature} (h : T.HasAll signature.types)
    {param : Parameter} (hp : param ∈ signature.params) : T.Has param.type :=
  h _ (List.mem_append_left _ (List.mem_map_of_mem hp))

/-- The types of a signature with another return type. -/
theorem TypeTable.HasAll.withReturnType {signature : Signature} {t : TypeId}
    (h : T.HasAll signature.types) (ht : T.Has t) :
    T.HasAll { signature with returnType := t }.types := by
  intro s hs
  rcases List.mem_append.mp hs with hs | hs
  · exact h s (List.mem_append_left _ hs)
  · rcases List.mem_cons.mp hs with rfl | hs
    · exact ht
    · exact h s (List.mem_append_right _ (List.mem_cons_of_mem _ hs))

/-- The signature of a row mentions types of the table. -/
theorem TypeTable.WellFormed.hasAll_signature (hT : T.WellFormed) {t : TypeId}
    {signature : Signature} (h : (T.lookup t).signature? = some signature) :
    T.HasAll signature.types := by
  have hparts := hT.hasAll_parts t
  cases hd : T.lookup t <;> rw [hd] at h hparts <;> cases h
  exact hparts

/-- The elements of an array type of the table. -/
theorem TypeTable.WellFormed.has_arrayElement (hT : T.WellFormed) {t element : TypeId}
    (h : w.arrayElement? (T.lookup t) = some element) : T.Has element := by
  have hparts := hT.hasAll_parts t
  cases hd : T.lookup t <;> rw [hd] at h hparts <;> try cases h
  rename_i decl args
  rw [World.arrayElement?] at h
  split at h
  · cases h
    cases args with
    | nil => exact hT.has_reserved (t := .any) (by decide)
    | cons arg args => exact hparts arg (List.mem_cons_self ..)
  · cases h

namespace World

/-! ### The receiver of a member -/

theorem stable_classifierChain (hT : T.WellFormed) (hw : w.Within T) {t : TypeId} (ht : T.Has t) :
    TypeM.Stable (w.classifierChain t) T fun _ _ => True := by
  rw [classifierChain]
  refine (stable_supertypes hT hw ht).bind fun above T₁ hg habove => ?_
  refine .get (fun T₂ hle => ?_) (.pure hg.wellFormed trivial)
  rw [List.filterMap_congr fun s hs => ?_]
  rw [TypeTable.lookup_of_le hle (habove s hs)]

/-- What is recorded while type arguments are collected. -/
private abbrev Recorded (T : TypeTable) (state : List (DeclId × TypeId) × List DeclId) : Prop :=
  T.Binds state.1

private theorem stable_recordBinding (hT : T.WellFormed)
    {state : List (DeclId × TypeId) × List DeclId} {pair : DeclId × TypeId}
    (hstate : Recorded T state) (hpair : T.Has pair.2) :
    TypeM.Stable (recordBinding state pair) T Recorded := by
  rw [recordBinding]
  split
  · exact .pure hT hstate
  refine (TypeM.stable_typeVariable hT _).bind fun own T₁ hg _ => .pure hg.wellFormed ?_
  intro b hb
  dsimp only at hb
  split at hb
  · exact (hstate b hb).of_le hg.le
  · rcases List.mem_append.mp hb with hb | hb
    · exact (hstate b hb).of_le hg.le
    · rw [List.mem_singleton.mp hb]
      exact hpair.of_le hg.le

private theorem stable_recordBindings (hT : T.WellFormed)
    {state : List (DeclId × TypeId) × List DeclId} {t : TypeId} (hstate : Recorded T state)
    (ht : T.Has t) : TypeM.Stable (w.recordBindings state t) T Recorded := by
  rw [recordBindings]
  refine .lookup ht ?_
  have hparts := hT.hasAll_parts t
  cases hd : T.lookup t with
  | nominal decl args =>
    rw [hd] at hparts
    dsimp only
    split
    · exact .pure hT hstate
    · cases w.decl? decl with
      | none => exact .pure hT hstate
      | some info =>
        refine TypeM.Stable.foldlM _ hT (fun pair hp T₁ state hg hs => ?_) hstate
        exact stable_recordBinding hg.wellFormed hs
          ((TypeTable.Binds.zip info.typeParams hparts pair hp).of_le hg.le)
  | _ => exact .pure hT hstate

/-- The type arguments of a receiver are types of the table. -/
theorem stable_receiverBindings (hT : T.WellFormed) (hw : w.Within T) {receiver : TypeId}
    (hr : T.Has receiver) : TypeM.Stable (w.receiverBindings receiver) T TypeTable.Binds := by
  rw [receiverBindings]
  refine (stable_supertypes hT hw hr).bind fun above T₁ hg₁ habove => ?_
  refine (TypeM.Stable.foldlM (W := Recorded) above hg₁.wellFormed
    (fun t ht T₂ state hg hs => stable_recordBindings hg.wellFormed hs
      ((habove t ht).of_le hg.le)) fun _ h => by cases h).bind fun state T₂ hg₂ hs => ?_
  exact .pure hg₂.wellFormed hs

theorem stable_instantiateFor (h : w.Setting env T) {receiver t : TypeId} (hr : T.Has receiver)
    (ht : T.Has t) : TypeM.Stable (w.instantiateFor env receiver t) T TypeTable.Has := by
  rw [instantiateFor, receiverScope_eq, bind_map_left]
  refine (stable_receiverBindings h.table h.world hr).bind fun bindings T₁ hg hb => ?_
  have henv := ((h.environment.of_le hg.le).wrap.extend bindings hb).setThis (hr.of_le hg.le)
  exact Environment.stable_substitute hg.wellFormed henv (ht.of_le hg.le)

/-! ### Members -/

theorem stable_agreeing {α β : Type} [DecidableEq β] {ask : α → TypeM (Option β)}
    {W : TypeTable → β → Prop} (l : List α) : ∀ {T : TypeTable} {agreed : Option β}, T.WellFormed →
      (∀ a ∈ l, ∀ T', T.GrowsTo T' → TypeM.Stable (ask a) T' fun T' o => ∀ b, o = some b → W T' b) →
      (∀ b, agreed = some b → W T b) →
      TypeM.Stable (agreeing ask agreed l) T fun T' o => ∀ b, o = some b → W T' b := by
  induction l with
  | nil => exact fun hT _ hagreed => .pure hT hagreed
  | cons a l ih =>
    intro T agreed hT hask hagreed
    rw [agreeing]
    refine (hask a (List.mem_cons_self ..) T (.refl hT)).bind fun o T₁ hg ho => ?_
    cases o with
    | none => exact .pure hg.wellFormed fun _ h => by cases h
    | some b =>
      dsimp only
      split
      · exact .pure hg.wellFormed fun _ h => by cases h
      · exact ih hg.wellFormed (fun a' ha' T' hg' =>
          hask a' (List.mem_cons_of_mem _ ha') T' (hg.trans hg')) ho

theorem stable_declaredMember? (hT : T.WellFormed) (hw : w.Within T) (query : MemberQuery)
    {receiver : TypeId} (hr : T.Has receiver) :
    TypeM.Stable (w.declaredMember? query receiver) T fun _ _ => True :=
  (stable_classifierChain hT hw hr).bind fun _ _ hg _ => .pure hg.wellFormed trivial

theorem stable_resolveMemberFrom (query : MemberQuery) (fuel : Nat) :
    ∀ {T : TypeTable} {receiver : TypeId}, T.WellFormed → w.Within T → T.Has receiver →
      TypeM.Stable (w.resolveMemberFrom query fuel receiver) T fun _ _ => True := by
  induction fuel with
  | zero => exact fun _ _ _ => TypeM.stable_diverge
  | succ fuel ih =>
    intro T receiver hT hw hr
    rw [resolveMemberFrom]
    refine (stable_resolveAlias hT hw hr).bind fun receiver T₁ hg₁ hr => ?_
    have hT := hg₁.wellFormed
    have hw := hw.of_le hg₁.le
    refine .lookup hr ?_
    have hparts := hT.hasAll_parts receiver
    have hmember {T₂ : TypeTable} {t : TypeId} (hg : T₁.GrowsTo T₂) (ht : T₁.Has t) :
        TypeM.Stable (w.resolveMemberFrom query fuel t) T₂ fun _ _ => True :=
      ih hg.wellFormed (hw.of_le hg.le) (ht.of_le hg.le)
    cases hd : T₁.lookup receiver with
    | structural members => exact .pure hT trivial
    | metaType arg isConstructor =>
      rw [hd] at hparts
      exact hmember (.refl hT) (hparts _ (List.mem_singleton_self _))
    | union members =>
      rw [hd] at hparts
      refine (stable_agreeing (W := fun _ _ => True) _ hT (fun t ht T₂ hg => ?_)
        fun _ _ => trivial).mono fun _ _ _ _ => trivial
      exact (hmember hg (hparts t ht)).mono fun _ _ _ _ _ _ => trivial
    | intersection members =>
      rw [hd] at hparts
      refine (TypeM.Stable.findSomeM? (W := fun _ _ => True) _ hT fun t ht T₂ hg => ?_).mono
        fun _ _ _ _ => trivial
      exact (hmember hg (hparts t ht)).mono fun _ _ _ _ _ _ => trivial
    | unknown | dynamicAny | primitive => exact .pure hT trivial
    | _ => exact stable_declaredMember? hT hw query hr

/-- Member lookup depends on nothing that is stored later. -/
theorem stable_resolveMember? (hT : T.WellFormed) (hw : w.Within T) (query : MemberQuery)
    {receiver : TypeId} (hr : T.Has receiver) :
    TypeM.Stable (w.resolveMember? query receiver) T fun _ _ => True :=
  stable_resolveMemberFrom query _ hT hw hr

/-! ### Callees -/

/-- The type that a declaration, found in some way, is declared with. -/
private theorem has_declared {found : Option DeclId} {t : TypeId} (hw : w.Within T)
    (h : (found.bind w.decl?).bind (·.declaredType) = some t) : T.Has t := by
  obtain ⟨info, hinfo, ht⟩ := Option.bind_eq_some_iff.mp h
  obtain ⟨d, -, hd⟩ := Option.bind_eq_some_iff.mp hinfo
  exact hw.declaredType hd ht

theorem stable_signatureMember? (h : w.Setting env T) {receiver : TypeId} (hr : T.Has receiver)
    (flag : Flag) :
    TypeM.Stable (w.signatureMember? env receiver flag) T fun T' o => T'.HasAll o.toList := by
  rw [signatureMember?]
  refine (stable_classifierChain h.table h.world hr).bind fun chain T₁ hg _ => ?_
  have h := h.grow hg
  split
  · rename_i signature hsignature
    refine (stable_instantiateFor h (hr.of_le hg.le) (has_declared h.world hsignature)).bind ?_
    exact fun t T₂ hg ht => .pure hg.wellFormed ht.hasAll
  · exact .pure h.table TypeTable.hasAll_nil

/-- Wildcards and a bound `this` are called through their bounds. -/
private theorem stable_throughBound {α : Type} {W : TypeTable → Option α → Prop} {t : TypeId}
    {resolve : TypeId → TypeM (Option α)} (h : w.Setting env T) (ht : T.Has t)
    (hnone : ∀ T', W T' none)
    (hresolve : ∀ {T' : TypeTable} {upper : TypeId}, w.Setting env T' → T'.Has upper →
      TypeM.Stable (resolve upper) T' W) :
    TypeM.Stable (do
      let upper ← TypeM.upperBound t
      if upper = t then return none
      resolve upper) T W := by
  refine (TypeM.stable_upperBound h.table ht).bind fun upper T₁ hg hupper => ?_
  exact .ite (.pure hg.wellFormed (hnone T₁)) (hresolve (h.grow hg) hupper)

theorem stable_resolveCallableFrom (fuel : Nat) : ∀ {T : TypeTable} {t : TypeId},
    w.Setting env T → T.Has t → TypeM.Stable (w.resolveCallableFrom env fuel t) T
      fun T' o => ∀ c, o = some c → T'.HasAll c.signature.toList := by
  induction fuel with
  | zero => exact fun _ _ => TypeM.stable_diverge
  | succ fuel ih =>
    intro T t h ht
    rw [resolveCallableFrom]
    refine (Environment.stable_substitute h.table h.environment ht).bind fun t T₁ hg₁ ht => ?_
    have h := h.grow hg₁
    refine (stable_resolveAlias h.table h.world ht).bind fun t T₂ hg₂ ht => ?_
    have h := h.grow hg₂
    have hnone : TypeM.Stable (pure (none : Option Callable)) T₂
        fun T' o => ∀ c, o = some c → T'.HasAll c.signature.toList :=
      .pure h.table fun _ hc => by cases hc
    have hupper := stable_throughBound h ht (W := fun T' o => ∀ c : Callable, o = some c →
      T'.HasAll c.signature.toList) (fun _ _ hc => by cases hc) ih
    refine .lookup ht ?_
    have hparts := h.table.hasAll_parts t
    cases hd : T₂.lookup t with
    | dynamicAny =>
      refine .pure h.table fun c hc => ?_
      cases hc
      exact TypeTable.hasAll_nil
    | function signature =>
      refine .pure h.table fun c hc => ?_
      cases hc
      exact ht.hasAll
    | nominal decl args =>
      dsimp only
      split
      · refine .pure h.table fun c hc => ?_
        cases hc
        exact TypeTable.hasAll_nil
      refine (stable_signatureMember? h ht .callSignature).bind fun member T₃ hg₃ hm =>
        .pure hg₃.wellFormed fun c hc => ?_
      obtain ⟨signature, rfl, rfl⟩ := Option.map_eq_some_iff.mp hc
      exact hm
    | typeVariable decl =>
      dsimp only
      split
      · exact hnone
      · exact ih h (h.world.variableBound h.table decl)
    | thisType bound =>
      cases bound with
      | none => exact hnone
      | some bound => exact hupper
    | wildcard => exact hupper
    | intersection members =>
      rw [hd] at hparts
      exact .findSomeM? _ h.table fun m hm T₃ hg => ih (h.grow hg) ((hparts m hm).of_le hg.le)
    | union members =>
      rw [hd] at hparts
      exact stable_agreeing _ h.table
        (fun m hm T₃ hg => ih (h.grow hg) ((hparts m hm).of_le hg.le)) fun _ hc => by cases hc
    | _ => exact hnone

theorem stable_resolveCallable? (h : w.Setting env T) {t : TypeId} (ht : T.Has t) :
    TypeM.Stable (w.resolveCallable? env t) T
      fun T' o => ∀ c, o = some c → T'.HasAll c.signature.toList :=
  stable_resolveCallableFrom _ h ht

/-- The types that a callee of `new` mentions. -/
private abbrev HasNewable (T : TypeTable) (newable : Newable) : Prop :=
  T.HasAll (newable.instanceType :: newable.signature.toList)

theorem stable_openInstance (hT : T.WellFormed) {instanceType : TypeId}
    (hinstance : T.Has instanceType) (decl : DeclId) (info : Declaration) (args : List TypeId) :
    TypeM.Stable (openInstance instanceType decl info args) T fun T' result => T'.Has result.1 := by
  rw [openInstance]
  split
  · refine (TypeM.Stable.mapM (W := TypeTable.Has) (fun _ _ _ => TypeTable.Has.of_le) _ hT
      fun d _ T₁ hg => TypeM.stable_typeVariable hg.wellFormed d).bind fun own T₁ hg₁ hown => ?_
    exact (TypeM.stable_nominal hg₁.wellFormed decl hown).bind
      fun _ _ hg ht => .pure hg.wellFormed ht
  · exact .pure hT hinstance

theorem stable_constructorSignature? (h : w.Setting env T) {receiver : TypeId}
    (hr : T.Has receiver) : TypeM.Stable (w.constructorSignature? env receiver) T
      fun T' o => ∀ signature, o = some signature → T'.HasAll signature.types := by
  rw [constructorSignature?]
  refine (stable_classifierChain h.table h.world hr).bind fun chain T₁ hg₁ _ => ?_
  have h := h.grow hg₁
  dsimp only
  split
  · rename_i declared hdeclared
    refine (stable_instantiateFor h (hr.of_le hg₁.le) (has_declared h.world hdeclared)).bind
      fun t T₂ hg₂ ht => ?_
    refine .lookup ht (.pure hg₂.wellFormed fun signature hs => ?_)
    exact hg₂.wellFormed.hasAll_signature hs
  · exact .pure h.table fun _ hs => by cases hs

theorem stable_classConstructor? (h : w.Setting env T) {instanceType : TypeId}
    (hinstance : T.Has instanceType) : TypeM.Stable (w.classConstructor? env instanceType) T
      fun T' o => ∀ newable, o = some newable → HasNewable T' newable := by
  rw [classConstructor?]
  refine .lookup hinstance ?_
  cases T.lookup instanceType with
  | nominal decl args =>
    dsimp only
    cases w.decl? decl with
    | none => exact .pure h.table fun _ hn => by cases hn
    | some info =>
      dsimp only
      split
      · exact .pure h.table fun _ hn => by cases hn
      refine (stable_openInstance h.table hinstance decl info args).bind
        fun opened T₁ hg₁ hopened => ?_
      obtain ⟨instanceType, openParams⟩ := opened
      have h := h.grow hg₁
      refine (stable_constructorSignature? h hopened).bind fun declared T₂ hg₂ hdeclared => ?_
      have hopened := hopened.of_le hg₂.le
      have hparts : T₂.HasAll (declared.getD (.plain [] instanceType)).types := by
        cases declared with
        | none => exact hopened.hasAll
        | some signature => exact hdeclared signature rfl
      have hparts := hparts.withReturnType hopened
      refine TypeM.Stable.bind (TypeM.stable_intern_has hg₂.wellFormed hparts)
        fun signature T₃ hg₃ hsignature => ?_
      refine .pure hg₃.wellFormed fun newable hn => ?_
      cases hn
      exact (hopened.of_le hg₃.le).hasAll.append hsignature.hasAll
  | _ => exact .pure h.table fun _ hn => by cases hn

theorem stable_resolveConstructibleFrom (fuel : Nat) : ∀ {T : TypeTable} {t : TypeId},
    w.Setting env T → T.Has t → TypeM.Stable (w.resolveConstructibleFrom env fuel t) T
      fun T' o => ∀ newable, o = some newable → HasNewable T' newable := by
  induction fuel with
  | zero => exact fun _ _ => TypeM.stable_diverge
  | succ fuel ih =>
    intro T t h ht
    rw [resolveConstructibleFrom]
    refine (Environment.stable_substitute h.table h.environment ht).bind fun t T₁ hg₁ ht => ?_
    have h := h.grow hg₁
    refine (stable_resolveAlias h.table h.world ht).bind fun t T₂ hg₂ ht => ?_
    have h := h.grow hg₂
    have hnone : TypeM.Stable (pure (none : Option Newable)) T₂
        fun T' o => ∀ newable, o = some newable → HasNewable T' newable :=
      .pure h.table fun _ hn => by cases hn
    have hupper := stable_throughBound h ht (W := fun T' o => ∀ newable, o = some newable →
      HasNewable T' newable) (fun _ _ hn => by cases hn) ih
    refine .lookup ht ?_
    have hparts := h.table.hasAll_parts t
    cases hd : T₂.lookup t with
    | dynamicAny =>
      refine .pure h.table fun newable hn => ?_
      cases hn
      exact (h.table.has_reserved (by decide)).hasAll
    | metaType arg isConstructor =>
      rw [hd] at hparts
      cases isConstructor with
      | false => exact hnone
      | true =>
        exact (TypeM.stable_upperBound h.table (hparts arg (List.mem_singleton_self _))).bind
          fun upper T₃ hg₃ hu => stable_classConstructor? (h.grow hg₃) hu
    | nominal decl args =>
      refine (stable_signatureMember? h ht .constructSignature).bind fun member T₃ hg₃ hm => ?_
      cases member with
      | none => exact .pure hg₃.wellFormed fun _ hn => by cases hn
      | some signature =>
        have hs : T₃.Has signature := hm _ (List.mem_singleton_self _)
        refine .lookup hs (.pure hg₃.wellFormed fun newable hn => ?_)
        cases hn
        have hinstance : T₃.Has
            (((T₃.lookup signature).signature?.map (·.returnType)).getD .unknown) := by
          cases hsig : (T₃.lookup signature).signature? with
          | none => exact hg₃.wellFormed.has_reserved (t := .unknown) (by decide)
          | some found => exact (hg₃.wellFormed.hasAll_signature hsig).returnType
        exact hinstance.hasAll.append hs.hasAll
    | typeVariable decl =>
      dsimp only
      split
      · exact hnone
      · exact ih h (h.world.variableBound h.table decl)
    | thisType bound =>
      cases bound with
      | none => exact hnone
      | some bound => exact hupper
    | wildcard => exact hupper
    | intersection members =>
      rw [hd] at hparts
      exact .findSomeM? _ h.table fun m hm T₃ hg => ih (h.grow hg) ((hparts m hm).of_le hg.le)
    | _ => exact hnone

theorem stable_resolveConstructible? (h : w.Setting env T) {t : TypeId} (ht : T.Has t) :
    TypeM.Stable (w.resolveConstructible? env t) T fun T' o => ∀ newable, o = some newable →
      T'.HasAll (newable.instanceType :: newable.signature.toList) :=
  stable_resolveConstructibleFrom _ h ht

end World

/-! ### Type arguments of calls -/

namespace TypeArguments

/-- The candidates of several matches. -/
private theorem stable_collectAll {α : Type} {match' : α → TypeM Candidates} (l : List α)
    (hT : T.WellFormed)
    (h : ∀ a ∈ l, ∀ T', T.GrowsTo T' → TypeM.Stable (match' a) T' TypeTable.Binds) :
    TypeM.Stable (l.mapM match' >>= fun found => pure found.flatten) T TypeTable.Binds :=
  (TypeM.Stable.mapM (W := TypeTable.Binds) (fun _ _ _ => TypeTable.Binds.of_le) l hT h).bind
    fun _ _ hg hfound => .pure hg.wellFormed (TypeTable.Binds.flatten hfound)

/-- Matching with this much room is stable. -/
private abbrev Collects (w : World) (room : Nat) : Prop :=
  ∀ {T : TypeTable} {param arg : TypeId}, T.WellFormed → w.Within T → T.Has param → T.Has arg →
    TypeM.Stable (collect w room param arg) T TypeTable.Binds

section Collect

variable {room : Nat} {arg : TypeId}

private theorem stable_noCandidates (hT : T.WellFormed) :
    TypeM.Stable (pure ([] : Candidates)) T TypeTable.Binds :=
  .pure hT fun _ h => by cases h

/-- The type arguments of a reference against those of the instantiation that the argument is. -/
private theorem stable_collectArgs (hcollect : Collects w room) (hT : T.WellFormed)
    (hw : w.Within T) {args : List TypeId} (hargs : T.HasAll args) (harg : T.Has arg)
    (decl : DeclId) :
    TypeM.Stable (do
      match ← w.findInstantiation? arg decl with
      | none => return []
      | some (_, argArgs) =>
        let found ← (args.zip argArgs).mapM fun (p, a) => do
          collect w room p (← TypeM.upperBound a)
        return found.flatten) T TypeTable.Binds := by
  refine (World.stable_findInstantiation? hT hw harg decl).bind fun o T₁ hg₁ ho => ?_
  cases o with
  | none => exact stable_noCandidates hg₁.wellFormed
  | some found =>
    obtain ⟨s, argArgs⟩ := found
    obtain ⟨-, hargArgs⟩ := ho s argArgs rfl
    refine stable_collectAll _ hg₁.wellFormed fun pair hpair T₂ hg₂ => ?_
    obtain ⟨hp, ha⟩ := List.of_mem_zip hpair
    refine (TypeM.stable_upperBound hg₂.wellFormed ((hargArgs _ ha).of_le hg₂.le)).bind
      fun a T₃ hg₃ ha => ?_
    have hle := ((hg₁.trans hg₂).trans hg₃).le
    exact hcollect hg₃.wellFormed (hw.of_le hle) ((hargs _ hp).of_le hle) ha

/-- The parameters of two signatures and then what they return. -/
private theorem stable_collectSignature (hcollect : Collects w room) (hT : T.WellFormed)
    (hw : w.Within T) {signature argSignature : Signature} (hsignature : T.HasAll signature.types)
    (hargSignature : T.HasAll argSignature.types) :
    TypeM.Stable (do
      let found ← (signature.params.zip argSignature.params).mapM fun (p, a) =>
        collect w room p.type a.type
      let result ← collect w room signature.returnType argSignature.returnType
      return found.flatten ++ result) T TypeTable.Binds := by
  refine (TypeM.Stable.mapM (W := TypeTable.Binds) (fun _ _ _ => TypeTable.Binds.of_le) _
    hT fun pair hpair T₁ hg₁ => ?_).bind fun found T₁ hg₁ hfound => ?_
  · obtain ⟨hp, ha⟩ := List.of_mem_zip hpair
    exact hcollect hg₁.wellFormed (hw.of_le hg₁.le) ((hsignature.params hp).of_le hg₁.le)
      ((hargSignature.params ha).of_le hg₁.le)
  · refine (hcollect hg₁.wellFormed (hw.of_le hg₁.le) (hsignature.returnType.of_le hg₁.le)
      (hargSignature.returnType.of_le hg₁.le)).bind fun result T₂ hg₂ hresult =>
        .pure hg₂.wellFormed fun binding hb => ?_
    rcases List.mem_append.mp hb with hb | hb
    · exact (TypeTable.Binds.flatten hfound binding hb).of_le hg₂.le
    · exact hresult binding hb

/-- The members of a shape against those of the same name. -/
private theorem stable_collectMembers (hcollect : Collects w room) (hT : T.WellFormed)
    (hw : w.Within T) {members argMembers : List Property}
    (hmembers : T.HasAll (TypeData.structural members).parts)
    (hargMembers : T.HasAll (TypeData.structural argMembers).parts) :
    TypeM.Stable (do
      let found ← members.mapM fun member =>
        match findProperty? argMembers member.name with
        | some argMember => collect w room member.type argMember.type
        | none => pure []
      return found.flatten) T TypeTable.Binds := by
  refine stable_collectAll _ hT fun member hm T₁ hg₁ => ?_
  cases hfind : findProperty? argMembers member.name with
  | none => exact stable_noCandidates hg₁.wellFormed
  | some argMember =>
    exact hcollect hg₁.wellFormed (hw.of_le hg₁.le)
      ((hmembers _ (List.mem_map_of_mem hm)).of_le hg₁.le)
      ((hargMembers _ (List.mem_map_of_mem (List.mem_of_find?_eq_some hfind))).of_le hg₁.le)

end Collect

/-- Candidates are types of the table. -/
theorem stable_collect (room : Nat) : ∀ {T : TypeTable} {param arg : TypeId}, T.WellFormed →
    w.Within T → T.Has param → T.Has arg →
    TypeM.Stable (collect w room param arg) T TypeTable.Binds := by
  induction room with
  | zero => exact fun hT _ _ _ => stable_noCandidates hT
  | succ room ih =>
    intro T param arg hT hw hparam harg
    rw [collect]
    split
    · exact stable_noCandidates hT
    refine .lookup hparam ?_
    have hparts := hT.hasAll_parts param
    have hargParts := hT.hasAll_parts arg
    cases hd : T.lookup param with
    | typeVariable decl =>
      refine .pure hT fun binding hb => ?_
      rw [List.mem_singleton.mp hb]
      exact harg
    | nominal decl args =>
      rw [hd] at hparts
      exact .ite (stable_noCandidates hT) (stable_collectArgs ih hT hw hparts harg decl)
    | union members =>
      rw [hd] at hparts
      refine stable_collectAll _ hT fun member hm T₁ hg₁ => ?_
      exact ih hg₁.wellFormed (hw.of_le hg₁.le) ((hparts member hm).of_le hg₁.le)
        (harg.of_le hg₁.le)
    | function signature =>
      rw [hd] at hparts
      refine .lookup harg ?_
      cases hs : (T.lookup arg).signature? with
      | none => exact stable_noCandidates hT
      | some argSignature =>
        exact stable_collectSignature ih hT hw hparts (hT.hasAll_signature hs)
    | structural members =>
      rw [hd] at hparts
      refine .lookup harg ?_
      cases hda : T.lookup arg with
      | structural argMembers =>
        rw [hda] at hargParts
        exact stable_collectMembers ih hT hw hparts hargParts
      | _ => exact stable_noCandidates hT
    | metaType inner isConstructor =>
      rw [hd] at hparts
      refine .lookup harg ?_
      cases hda : T.lookup arg with
      | metaType argInner _ =>
        rw [hda] at hargParts
        exact ih hT hw (hparts _ (List.mem_singleton_self _))
          (hargParts _ (List.mem_singleton_self _))
      | _ => exact stable_noCandidates hT
    | wildcard bound kind =>
      rw [hd] at hparts
      cases bound with
      | none => exact stable_noCandidates hT
      | some bound => exact ih hT hw (hparts _ (List.mem_singleton_self _)) harg
    | _ => exact stable_noCandidates hT

/-- The parameter types that arguments meet are types of the table and read the same later on. -/
theorem parameterTypes_of_le (hT : T.WellFormed) (hle : T ≤ T') (args : List TypeId) :
    ∀ {params : List Parameter}, (∀ param ∈ params, T.Has param.type) → T.HasAll args →
      parameterTypes w T' params args = parameterTypes w T params args ∧
        ∀ pair ∈ parameterTypes w T params args, T.Has pair.1 ∧ T.Has pair.2 := by
  induction args with
  | nil =>
    intro params _ _
    cases params <;> exact ⟨rfl, fun _ h => by cases h⟩
  | cons arg args ih =>
    intro params hparams hargs
    cases params with
    | nil => exact ⟨rfl, fun _ h => by cases h⟩
    | cons param params =>
      have hp := hparams param (List.mem_cons_self ..)
      have hfurther : ∀ q ∈ (if params.isEmpty && param.rest then [param] else params),
          T.Has q.type := by
        intro q hq
        split at hq
        · rw [List.mem_singleton.mp hq]
          exact hp
        · exact hparams q (List.mem_cons_of_mem _ hq)
      obtain ⟨hsame, hhas⟩ := ih hfurther fun t ht => hargs t (List.mem_cons_of_mem _ ht)
      have hexpected : T.Has (if param.rest = true then
          (w.arrayElement? (T.lookup param.type)).getD param.type else param.type) := by
        split
        · cases helement : w.arrayElement? (T.lookup param.type) with
          | none => exact hp
          | some element => exact hT.has_arrayElement helement
        · exact hp
      rw [parameterTypes, parameterTypes, TypeTable.lookup_of_le hle hp]
      refine ⟨by rw [hsame], fun pair hpair => ?_⟩
      rcases List.mem_cons.mp hpair with rfl | hpair
      · exact ⟨hexpected, hargs arg (List.mem_cons_self ..)⟩
      · exact hhas pair hpair

theorem stable_choose (h : w.Setting env T) (param : DeclId) {candidates : List TypeId}
    (hcandidates : T.HasAll candidates) :
    TypeM.Stable (choose w w.isSubtype env param candidates) T TypeTable.Has := by
  rw [choose]
  refine (TypeM.Stable.mapM (W := TypeTable.Has) (fun _ _ _ => TypeTable.Has.of_le) _ h.table
    fun t ht T₁ hg => stable_widenLiterals (h.grow hg) ((hcandidates t ht).of_le hg.le)).bind
    fun widened T₁ hg₁ hwidened => ?_
  have h := h.grow hg₁
  split
  · exact .pure h.table (h.world.variableBound h.table param)
  · exact stable_joinTypes h hwidened

/-- Inferred type arguments are types of the table. -/
theorem stable_infer (h : w.Setting env T) {signature : Signature} {written argTypes : List TypeId}
    (hsignature : T.HasAll signature.types) (hwritten : T.HasAll written)
    (hargs : T.HasAll argTypes) :
    TypeM.Stable (infer w w.isSubtype env signature written argTypes) T
      fun T' s => s.Within T' := by
  rw [infer]
  split
  · exact .pure h.table Substitution.within_empty
  split
  · exact .pure h.table (Substitution.within_ofArgs _ hwritten)
  have hmatched {T' : TypeTable} (hle : T ≤ T') := parameterTypes_of_le (w := w) h.table hle
    argTypes (fun param hp => hsignature.params hp) hargs
  refine .get (fun T₁ hle => by rw [(hmatched hle).1]) ?_
  refine (TypeM.Stable.mapM (W := TypeTable.Binds) (fun _ _ _ => TypeTable.Binds.of_le) _ h.table
    fun pair hpair T₁ hg => ?_).bind fun found T₁ hg₁ hfound => ?_
  · obtain ⟨hexpected, harg⟩ := (hmatched le_rfl).2 pair hpair
    exact stable_collect _ hg.wellFormed (h.world.of_le hg.le) (hexpected.of_le hg.le)
      (harg.of_le hg.le)
  have h := h.grow hg₁
  refine TypeM.Stable.foldlM _ h.table (fun param _ T₂ s hg hs => ?_) Substitution.within_empty
  have hown : T₂.HasAll ((found.flatten.filter fun entry => entry.1 == param).map (·.2)) := by
    intro t ht
    obtain ⟨entry, hentry, rfl⟩ := List.mem_map.mp ht
    exact (TypeTable.Binds.flatten hfound entry (List.mem_filter.mp hentry).1).of_le hg.le
  refine (stable_choose (h.grow hg) param hown).bind fun t T₃ hg₃ ht => ?_
  exact .pure hg₃.wellFormed ((hs.of_le hg₃.le).insert param ht)

end TypeArguments

end ScriptTyping
