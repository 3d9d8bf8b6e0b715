import ScriptTyping.Proofs.Declarations.Store
import ScriptTyping.Proofs.Hierarchy.Abbreviation
import ScriptTyping.Proofs.Judgment.Inquiry

/-!
# Aliases as annotations

Rules that resolve aliases take a name for the type itself: calls, constructions, the receivers of
indices, loops and spreads.  Others look at the type of an operand as it is; sums, for example, do
not see that an alias of `number` is a number.

Let the annotation of a variable or parameter be replaced by a name for it.  The expressions that
carry the type of the element are the references to it and what hands one of them on.  As long as
they stand only where their type is resolved, or not looked at, all other expressions keep their
types, and the carrying ones have the name instead of the type.

## Main definitions

* `Program.annotate` — the program with another annotation of a declaration.
* `Program.Carries` — the expressions that carry the type of a declaration.
* `Program.Confines` — they stand only where their type is resolved or not looked at.
* `Program.Renames` — an annotation is to be replaced by a name for it.

## Main results

* `World.Abbreviates.interchangeable` — rules that resolve aliases take a name for the type.
* `Program.infer_annotate` — naming the type of an element does not show.
-/

namespace ScriptTyping

/-! ### Another annotation -/

/-- One declaration is hidden, in all tables beyond the given one. -/
def Veil.single (d : DeclId) (T : TypeTable) : Veil := ⟨(· = d), T⟩

instance (d e : DeclId) (T : TypeTable) : Decidable ((Veil.single d T).hidden e) :=
  inferInstanceAs (Decidable (e = d))

/-- Whether a layer mentions a hidden declaration can be computed. -/
instance (v : Veil) [DecidablePred v.hidden] : DecidablePred (TypeData.Hides v)
  | .typeVariable d => inferInstanceAs (Decidable ¬v.hidden d)
  | .function signature =>
    inferInstanceAs (Decidable (∀ param ∈ signature.typeParams, ¬v.hidden param))
  | .structural members =>
    inferInstanceAs (Decidable (∀ member ∈ members, ∀ d ∈ member.decl, ¬v.hidden d))
  | .unknown | .dynamicAny | .primitive _ | .nominal .. | .union _ | .intersection _ | .literal _
  | .thisType _ | .wildcard .. | .metaType .. => .isTrue trivial

/-- The program with another annotation of a declaration. -/
def Program.annotate (p : Program) (d : DeclId) (t : TypeId) : Program :=
  p.withWorld { p.world with
    declarations := p.world.declarations.update d fun info => { info with declaredType := some t } }

/-- Every rule that resolves aliases takes a name for the type. -/
theorem World.Abbreviates.interchangeable {v : Veil} {p : Program} {w : World}
    {name type : TypeId} (h : p.world.Abbreviates v.base name type)
    (hw : p.world.AlikeBut v w) : Interchangeable v p (p.withWorld w) type name := by
  have h' : w.Abbreviates v.base name type := h.alike hw
  have hrefl : Interchangeable v p (p.withWorld w) type type := .refl hw type
  refine ⟨fun env T hT callable T' hcallable => ?_, fun env => ?_, ?_, fun env isAsync => ?_⟩
  · obtain ⟨hle, hT', _, hsame, rfl, -⟩ := hrefl.callable env T hT callable T' hcallable
    refine ⟨hle, hT', callable, (h'.resolveCallable?_name hT.beyond env).trans hsame, rfl, ?_⟩
    rintro rfl
    exact iff_of_false (h.ne_dynamicAny_of_callable hT.beyond hcallable)
      (h.name_ne_dynamicAny hT.beyond)
  · exact (hrefl.constructible env).congr_right fun T hT =>
      h'.resolveConstructible?_name hT.beyond env
  · refine hrefl.indexed.congr_right fun T hT => ?_
    rw [TypeM.bind_of_ok (h'.upperBound_name hT.beyond),
      TypeM.bind_of_ok (h'.upperBound_type hT.beyond)]
    exact h'.resolveAlias_name hT.beyond
  · exact (hrefl.iterable env isAsync).congr_right fun T hT => h'.resolved_name hT.beyond _

/-! ### Carriers -/

/-- The child that a node hands on: the type of the node is that of the child. -/
def Content.handed? : Content → Slot
  | paren expression | argument expression _ | arrayElement expression _ => expression
  | comma expressions => expressions.getLast?.getD none
  | assignment .assign _ right => right
  | _ => none

namespace Program

variable {p : Program} {d : DeclId}

/-- The expressions that carry the type of a declaration: the references to it, and what hands one
of them on. -/
inductive Carries (p : Program) (d : DeclId) : NodeId → Prop
  | reference {n : NodeId} {name : Symbol} (hc : p.content? n = some (.identifier name (some d))) :
    Carries p d n
  | handed {n m : NodeId} {c : Content} (hc : p.content? n = some c) (hm : c.handed? = some m)
    (h : Carries p d m) : Carries p d n

/-- A node that neither refers to the declaration nor hands anything on does not carry its type. -/
theorem not_carries {n : NodeId} {c : Content} (hc : p.content? n = some c)
    (hreference : ∀ name, c ≠ .identifier name (some d)) (hhanded : c.handed? = none) :
    ¬p.Carries d n := by
  intro h
  cases h with
  | reference hn => exact hreference _ (Option.some.inj (hc.symm.trans hn))
  | handed hn hm =>
    cases hc.symm.trans hn
    cases hhanded.symm.trans hm

theorem nodeType_of_handed (judge : Judge) (env : Environment) (n : NodeId) {m : NodeId}
    {c : Content} (hm : c.handed? = some m) : p.nodeType judge env n c = judge.node env m := by
  cases c with
  | paren | argument | arrayElement =>
    cases hm
    rfl
  | comma expressions =>
    have hlast : expressions.getLast?.getD none = some m := hm
    rw [nodeType, hlast, Judge.slot]
  | assignment op =>
    cases op with
    | assign =>
      cases hm
      rfl
    | _ => cases hm
  | _ => cases hm

/-- The expressions that carry the type of a declaration stand only where their type is resolved or
not looked at: the types of operands, initializers, elements of arrays, returned values and tested
types are used as they are.  The declaration is referred to by name only, and no type test refines
it. -/
structure Confines (p : Program) (d : DeclId) : Prop where
  operands : ∀ {n c slot}, ¬p.Carries d n → p.content? n = some c → slot ∈ c.operands →
    slot.Satisfies fun m => ¬p.Carries d m
  initializer? : ∀ {n c}, p.content? n = some c → c.initializer?.Satisfies fun m => ¬p.Carries d m
  elements : ∀ {n elements m c}, p.content? n = some (.arrayLiteral elements) →
    some m ∈ elements → p.content? m = some c →
    Content.inspects (.arrayLiteral elements) c = false → ¬p.Carries d m
  bindings : ∀ {n pattern initializer}, p.content? n = some (.variableBinding pattern initializer) →
    initializer.Satisfies fun m => ¬p.Carries d m
  returns : ∀ {n expression}, p.content? n = some (.returnStatement expression) →
    expression.Satisfies fun m => ¬p.Carries d m
  tested : ∀ {reference guard}, guard ∈ p.flow.guardsAt reference →
    ∀ n ∈ guard.typeRefs, ¬p.Carries d n
  declared : ∀ {e info n}, p.decl? e = some info → info.kind.isTypedElement = true →
    info.node = some n → ¬p.Carries d n
  references : ∀ {n c}, p.content? n = some c → d ∈ c.referents →
    ∃ name, c = .identifier name (some d)
  functions : ∀ {n c}, p.content? n = some c → c.hasBody true = true → c.declared? ≠ some d
  unrefined : ∀ {n guard}, guard ∈ p.flow.guardsAt n →
    p.world.declarations.canonical guard.subject = d → guard.typeRefs = []

/-- The rules ask only for expressions that do not carry the type, and for receivers. -/
theorem Confines.asksOnly (h : p.Confines d) :
    p.AsksOnly (fun n => ¬p.Carries d n) fun _ => True where
  operands := h.operands
  receiver? _ _ _ := trivial
  initializer? := h.initializer?
  elements := h.elements
  properties hc := not_carries hc (fun _ h => by cases h) rfl
  calls hc := not_carries hc (fun _ h => by cases h) rfl
  yields hc := not_carries hc (fun _ h => by cases h) rfl
  bindings := h.bindings
  returns := h.returns
  tested := h.tested
  declared := h.declared

/-- An annotated variable or parameter that is no part of another declaration. -/
structure IsElement (p : Program) (d : DeclId) (type : TypeId) : Prop where
  annotated : ∃ info, p.decl? d = some info ∧ info.isPlainElement = true ∧
    info.has .variadic = false ∧ info.declaredType = some type
  canonical : p.world.declarations.canonical d = d
  unmerged : ∀ e, e ≠ d → p.world.declarations.canonical e ≠ d
  typeParams : ∀ e info, p.decl? e = some info → d ∉ info.typeParams
  members : ∀ e info, p.decl? e = some info → d ∉ info.members

variable {type name : TypeId} {T : TypeTable}

theorem IsElement.alike (h : p.IsElement d type) (T : TypeTable) (name : TypeId) :
    p.world.AlikeBut (.single d T) (p.annotate d name).world where
  builtins := rfl
  fuel := rfl
  size := by
    simp only [annotate, withWorld, Declarations.update, Declarations.size]
    split
    · rfl
    · exact Array.size_modify
  visible e he := (Declarations.get?_update ..).trans (if_neg he)
  masked e he := by
    obtain rfl := he
    obtain ⟨info, hinfo, hplain, -⟩ := h.annotated
    refine ⟨info, some name, hinfo, ?_, hplain⟩
    exact (Declarations.get?_update ..).trans ((if_pos rfl).trans (congrArg _ hinfo))
  typeParams e info hinfo param hparam := by
    rintro rfl
    exact h.typeParams e info hinfo hparam
  members e info hinfo member hmember := by
    rintro rfl
    exact h.members e info hinfo hmember
  merged e he := h.unmerged e he

/-- The types that an expression may have in the two programs: the same, or the type and its
name. -/
def Renamed (name type t t' : TypeId) : Prop := t' = t ∨ t = type ∧ t' = name

theorem declarationType_of_annotated (judge : Judge) (env : Environment) {info : Declaration}
    {t : TypeId} (hcanonical : p.world.declarations.canonical d = d) (hinfo : p.decl? d = some info)
    (hplain : info.isPlainElement = true) (hvariadic : info.has .variadic = false)
    (ht : info.declaredType = some t) : p.declarationType judge env d = pure t := by
  have helement : p.declarationType judge env d = p.elementType judge env d info := by
    simp only [declarationType, hcanonical, hinfo]
    rcases World.kind_of_plain hplain with hkind | hkind
    · rw [hkind]
    · rw [hkind]
  rw [helement, elementType]
  simp only [ht, hvariadic, Bool.and_false, Bool.false_eq_true, if_false]

end Program

/-- The second inference returns whenever the first one does, with a related result and the same
memory, as long as no type mentions what is hidden. -/
def Correspondence.following (d : DeclId) (T : TypeTable) : Correspondence (.single d T) where
  rel x y V := ∀ s, s.types.Hides (.single d T) → ∀ a s', x s = .ok a s' →
    s'.types.Hides (.single d T) ∧ ∃ b, y s = .ok b s' ∧ V a b
  return' := by
    intro α β V a b hab s hs a' s' ha
    obtain ⟨rfl, rfl⟩ := InferM.pure_eq_ok.mp ha
    exact ⟨hs, b, rfl, hab⟩
  bind := by
    intro α β γ δ V W x y f g hx hf s hs c s' hc
    obtain ⟨a, s₁, ha, hc⟩ := InferM.bind_eq_ok.mp hc
    obtain ⟨hs₁, b, hb, hab⟩ := hx s hs a s₁ ha
    obtain ⟨hs', e, he, hce⟩ := hf a b hab s₁ hs₁ c s' hc
    exact ⟨hs', e, InferM.bind_eq_ok.mpr ⟨b, s₁, hb, he⟩, hce⟩
  lift := by
    intro α β V z z' hz s hs a s' ha
    obtain ⟨T', hT', rfl⟩ := InferM.liftM_eq_ok.mp ha
    obtain ⟨-, hhides, b, hb, hab⟩ := hz s.types hs a T' hT'
    exact ⟨hhides, b, InferM.liftM_eq_ok.mpr ⟨T', hb, rfl⟩, hab⟩
  noteFallback s hs a s' ha := by
    cases ha
    exact ⟨hs, _, rfl, rfl⟩
  fallbackCount s hs a s' ha := by
    cases ha
    exact ⟨hs, _, rfl, rfl⟩
  memoized? d s hs a s' ha := by
    cases ha
    exact ⟨hs, _, rfl, rfl⟩
  writable _ := True
  memoize d t _ s hs a s' ha := by
    cases ha
    exact ⟨hs, _, rfl, rfl⟩

namespace Program

open Correspondence (following)

variable {p : Program} {d : DeclId} {type name : TypeId} {T : TypeTable}

theorem capture_of_upperBound {t : TypeId} (h : TypeM.upperBound t T = .ok t T) :
    capture t T = .ok t T := by
  rw [capture, TypeM.bind_of_ok (TypeM.lookup_run t T)]
  split
  · exact h
  · rfl

/-- The annotation of an element is to be replaced by a name for it. -/
structure Renames (p : Program) (T : TypeTable) (d : DeclId) (type name : TypeId) : Prop where
  element : p.IsElement d type
  name : p.world.Abbreviates T name type
  confined : p.Confines d

/-- A reference that no type test refines. -/
private theorem narrowByFlow_unrefined {q : Program} (judge : Judge) (env : Environment)
    {n : NodeId} (h : ∀ guard ∈ q.flow.guardsAt n, q.world.declarations.canonical guard.subject =
      q.world.declarations.canonical d → guard.typeRefs = []) (t : TypeId) :
    q.narrowByFlow judge env n d t = pure t := by
  have hguards : ((q.flow.guardsAt n).filter fun guard =>
      q.world.declarations.canonical guard.subject == q.world.declarations.canonical d &&
        !guard.typeRefs.isEmpty) = [] := by
    refine List.filter_eq_nil_iff.mpr fun guard hguard hrefined => ?_
    obtain ⟨hsubject, hrefs⟩ := Bool.and_eq_true_iff.mp hrefined
    rw [h guard hguard (eq_of_beq hsubject)] at hrefs
    cases hrefs
  simp only [narrowByFlow, hguards, List.mapM_nil, pure_bind, List.isEmpty_nil, if_true]

namespace Renames

variable (h : p.Renames T d type name)

include h

theorem alike : p.world.AlikeBut (.single d T) (p.annotate d name).world := h.element.alike T name

theorem interchangeable {t t' : TypeId} (ht : Renamed name type t t') :
    Interchangeable (.single d T) p (p.annotate d name) t t' := by
  rcases ht with rfl | ⟨rfl, rfl⟩
  · exact .refl h.alike _
  · exact World.Abbreviates.interchangeable h.name h.alike

theorem mirror : Mirror (following d T) p (p.annotate d name) id
    (fun n => ¬p.Carries d n) (fun n => ¬p.Carries d n) fun _ => True := by
  refine h.confined.asksOnly.mirror h.alike (fun {n decl name declared value} hc => ?_)
    (fun hc hbody hd => ?_) fun _ _ => trivial
  · rintro rfl
    obtain ⟨name, hname⟩ := h.confined.references hc (List.mem_singleton_self _)
    cases hname
  · rintro rfl
    exact h.confined.functions hc hbody hd

/-- A reference to the element has the type, or its name. -/
private theorem identifierType {judge judge' : Judge} (env : Environment) (n : NodeId)
    (hdecl : (following d T).rel (judge.decl env d) (judge'.decl env d) (Renamed name type)) :
    (following d T).rel (p.identifierType judge env n (some d))
      ((p.annotate d name).identifierType judge' env n (some d)) (Renamed name type) := by
  have hunrefined : ∀ guard ∈ p.flow.guardsAt n, p.world.declarations.canonical guard.subject =
      p.world.declarations.canonical d → guard.typeRefs = [] := fun guard hguard hsubject =>
    h.confined.unrefined hguard (hsubject.trans h.element.canonical)
  have hunrefined' : ∀ guard ∈ (p.annotate d name).flow.guardsAt n,
      (p.annotate d name).world.declarations.canonical guard.subject =
        (p.annotate d name).world.declarations.canonical d → guard.typeRefs = [] := by
    simp only [h.alike.canonical]
    exact hunrefined
  unfold Program.identifierType
  refine (following _ _).bind hdecl fun t t' ht => ?_
  rw [narrowByFlow_unrefined judge env hunrefined, narrowByFlow_unrefined judge' env hunrefined',
    pure_bind, pure_bind]
  rcases ht with rfl | ⟨rfl, rfl⟩
  · refine (following _ _).mono (V := Eq) ?_ fun _ _ ht => .inl ht.symm
    refine Correspondence.bindLiftEq (env.agrees_substitute _) fun t => ?_
    change (following _ _).rel (if p.tree.isWriteAccess n then pure t else _)
      (if p.tree.isWriteAccess n then pure t else _) Eq
    split
    · exact (following _ _).same t
    · exact (following _ _).lift (agrees_capture t)
  · have hsubstitute : TypeM.Agrees (.single d T) (env.substitute t) (env.substitute t')
        fun u u' => u = t ∧ u' = t' := by
      intro T' hT' u T'' hu
      rw [h.name.substitute_type hT'.beyond] at hu
      cases hu
      exact ⟨le_refl T', hT', t', h.name.substitute_name hT'.beyond env, rfl, rfl⟩
    have hcapture : TypeM.Agrees (.single d T) (capture t) (capture t')
        fun u u' => u = t ∧ u' = t' := by
      intro T' hT' u T'' hu
      rw [capture_of_upperBound (h.name.upperBound_type hT'.beyond)] at hu
      cases hu
      exact ⟨le_refl T', hT', t', capture_of_upperBound (h.name.upperBound_name hT'.beyond),
        rfl, rfl⟩
    refine Correspondence.bindLift hsubstitute ?_
    rintro u u' ⟨hu, hu'⟩
    rw [hu, hu']
    change (following _ _).rel (if p.tree.isWriteAccess n then pure t else _)
      (if p.tree.isWriteAccess n then pure t' else _) _
    split
    · exact (following _ _).return' (.inr ⟨rfl, rfl⟩)
    · exact (following _ _).mono ((following _ _).lift hcapture) fun _ _ hu => .inr hu

/-- The element itself. -/
private theorem declarationType (room : Nat) (env : Environment) :
    (following d T).rel ((p.judge room).decl env d)
      (((p.annotate d name).judge room).decl env d) (Renamed name type) := by
  cases room with
  | zero =>
    refine (following _ _).bindEq (following _ _).noteFallback fun _ => ?_
    exact (following _ _).return' (.inl rfl)
  | succ room =>
    obtain ⟨info, hinfo, hplain, hvariadic, htype⟩ := h.element.annotated
    have hinfo' : (p.annotate d name).decl? d = some { info with declaredType := some name } :=
      (Declarations.get?_update ..).trans ((if_pos rfl).trans (congrArg _ hinfo))
    have hcanonical' : (p.annotate d name).world.declarations.canonical d = d :=
      (h.alike.canonical d).trans h.element.canonical
    simp only [judge]
    rw [declarationType_of_annotated _ env h.element.canonical hinfo hplain hvariadic htype,
      declarationType_of_annotated _ env hcanonical' hinfo' hplain hvariadic rfl]
    exact (following _ _).return' (.inr ⟨rfl, rfl⟩)

/-- Both kinds of expressions may be asked for as receivers. -/
private theorem asks_of_nodes {judge judge' : Judge}
    (hnode : ∀ env n, ¬p.Carries d n →
      (following d T).rel (judge.node env n) (judge'.node env n) Eq)
    (hcarried : ∀ env n, p.Carries d n →
      (following d T).rel (judge.node env n) (judge'.node env n) (Renamed name type))
    (hdecl : ∀ env e, e ≠ d → (following d T).rel (judge.decl env e) (judge'.decl env e) Eq) :
    (following d T).Asks p (p.annotate d name) id (fun n => ¬p.Carries d n) (fun _ => True)
      judge judge' where
  node := hnode
  direct := hnode
  receiver env n _ := by
    by_cases hn : p.Carries d n
    · exact (following _ _).mono (hcarried env n hn) fun _ _ ht => h.interchangeable ht
    · exact (following _ _).mono (hnode env n hn) fun _ _ ht => h.interchangeable (.inl ht.symm)
  decl := hdecl

/-- The judgments with any room, of expressions that do not carry the type and of those that do. -/
theorem asks_judge (room : Nat) :
    (following d T).Asks p (p.annotate d name) id (fun n => ¬p.Carries d n) (fun _ => True)
      (p.judge room) ((p.annotate d name).judge room) ∧
    ∀ env n, p.Carries d n → (following d T).rel ((p.judge room).node env n)
      (((p.annotate d name).judge room).node env n) (Renamed name type) := by
  have hcutOff : (following d T).rel exhausted exhausted Eq :=
    (following _ _).bindEq (following _ _).noteFallback fun _ => (following _ _).same _
  have hmissing {n : NodeId} (hn : p.content? n = none) (room : Nat) (env : Environment) :
      (following d T).rel ((p.judge room).node env n)
        (((p.annotate d name).judge room).node env n) Eq := by
    rw [judge_of_none hn, judge_of_none (p := p.annotate d name) hn]
    exact (following _ _).same _
  induction room with
  | zero =>
    have hnode (env : Environment) (n : NodeId) : (following d T).rel
        ((p.judge 0).node env n) (((p.annotate d name).judge 0).node env n) Eq := by
      cases hc : p.content? n with
      | none => exact hmissing hc 0 env
      | some c =>
        rw [judge_zero hc, judge_zero (p := p.annotate d name) hc]
        exact hcutOff
    have hcarried (env : Environment) (n : NodeId) (_ : p.Carries d n) :
        (following d T).rel ((p.judge 0).node env n)
          (((p.annotate d name).judge 0).node env n) (Renamed name type) :=
      (following _ _).mono (hnode env n) fun _ _ ht => .inl ht.symm
    exact ⟨h.asks_of_nodes (fun env n _ => hnode env n) hcarried fun _ _ _ => hcutOff, hcarried⟩
  | succ room ih =>
    obtain ⟨ihAsks, ihCarried⟩ := ih
    have hcarried (env : Environment) (n : NodeId) (hn : p.Carries d n) :
        (following d T).rel ((p.judge (room + 1)).node env n)
          (((p.annotate d name).judge (room + 1)).node env n) (Renamed name type) := by
      cases hn with
      | reference hc =>
        rw [judge_succ hc, judge_succ (p := p.annotate d name) hc]
        exact h.identifierType env n (h.declarationType room env)
      | handed hc hm hcarries =>
        rw [judge_succ hc, judge_succ (p := p.annotate d name) hc,
          nodeType_of_handed _ env n hm, nodeType_of_handed _ env n hm]
        exact ihCarried env _ hcarries
    refine ⟨h.asks_of_nodes (fun env n hn => ?_) hcarried fun env e he => ?_, hcarried⟩
    · cases hc : p.content? n with
      | none => exact hmissing hc (room + 1) env
      | some c =>
        rw [judge_succ hc, judge_succ (p := p.annotate d name) hc]
        have hreferents : ∀ e ∈ c.referents, ¬(Veil.single d T).hidden e := by
          rintro e he rfl
          obtain ⟨x, rfl⟩ := h.confined.references hc he
          exact hn (.reference hc)
        have hrule := Correspondence.nodeType h.mirror ihAsks env hn hc hreferents
          fun _ _ _ _ _ _ ha => by cases ha
        rw [Content.relocate_id] at hrule
        exact hrule
    · exact Correspondence.declarationType h.mirror ihAsks env he

end Renames

/-- Let the annotation of a variable or parameter be replaced by a name for it, which the rules for
the expressions that carry it resolve.  Inference of any node then returns what it did before, in
the same memory: the same type, or the name where it was the named type.  In particular, both types
resolve to the same. -/
theorem infer_annotate (h : p.Renames T d type name) {env : Environment} {n : NodeId}
    {s s' : Memory} {t : TypeId} (hs : s.types.Hides (.single d T))
    (hrun : p.infer env (.node n) s = .ok t s') :
    ∃ t', (p.annotate d name).infer env (.node n) s = .ok t' s' ∧
      (¬p.Carries d n → t' = t) ∧
      (p.annotate d name).world.resolveAlias t' s'.types = p.world.resolveAlias t s'.types := by
  have hresolve (u : TypeId) : (p.annotate d name).world.resolveAlias u = p.world.resolveAlias u :=
    h.alike.resolveAliasFrom _ u
  obtain ⟨hasks, hcarried⟩ := h.asks_judge p.options.maxInferenceDepth
  by_cases hn : p.Carries d n
  · obtain ⟨hs', t', hrun', ht⟩ := hcarried env n hn s hs t s' hrun
    refine ⟨t', hrun', fun hn' => absurd hn hn', ?_⟩
    rw [hresolve]
    rcases ht with rfl | ⟨rfl, rfl⟩
    · rfl
    · exact h.name.resolveAlias_name hs'.beyond
  · obtain ⟨-, _, hrun', rfl⟩ := hasks.node env n hn s hs t s' hrun
    exact ⟨t, hrun', fun _ => rfl, by rw [hresolve]⟩

/-- A call of a variable that is dynamic `any`, and an alias of that type. -/
def dynamicCall : Program where
  world.declarations := ⟨#[{ kind := .var, name := .none, declaredType := some .dynamicAny },
    { kind := .typeAlias, name := .none, declaredType := some .dynamicAny }]⟩
  world.builtins := default
  world.fuel := 1
  tree := ⟨#[⟨.identifier .none (some ⟨1⟩), some ⟨1⟩⟩, ⟨.call (some ⟨0⟩) [] [], none⟩]⟩
  flow := .empty
  options := {}

/-- A table with a reference to the alias. -/
def aliasTable : TypeTable := TypeTable.initial.store (.nominal ⟨2⟩ [])

theorem dynamicCall_renames : dynamicCall.Renames aliasTable ⟨1⟩ .dynamicAny ⟨16⟩ := by
  have hcontent {n : NodeId} {c : Content} (hc : dynamicCall.content? n = some c) :
      c = .identifier .none (some ⟨1⟩) ∨ c = .call (some ⟨0⟩) [] [] := by
    refine Tree.forall_content?
      (P := fun c => c = .identifier .none (some ⟨1⟩) ∨ c = .call (some ⟨0⟩) [] []) ?_ hc
    decide
  have hinfo {e : DeclId} {info : Declaration} (he : dynamicCall.decl? e = some info) :
      info.node = none ∧ info.typeParams = [] ∧ info.members = [] ∧ info.mergedInto = none := by
    refine Declarations.forall_get? (P := fun info => info.node = none ∧ info.typeParams = [] ∧
      info.members = [] ∧ info.mergedInto = none) ?_ he
    decide
  have hcanonical (e : DeclId) : dynamicCall.world.declarations.canonical e = e := by
    have hmerged : (dynamicCall.world.declarations.get? e).bind (·.mergedInto) = none := by
      cases he : dynamicCall.world.declarations.get? e with
      | none => rfl
      | some info => exact (hinfo he).2.2.2
    simp only [Declarations.canonical, Declarations.mergeLimit, Declarations.canonicalFrom, hmerged]
  have helement : dynamicCall.IsElement ⟨1⟩ .dynamicAny :=
    { annotated := ⟨_, rfl, rfl, rfl, rfl⟩
      canonical := hcanonical _
      unmerged := fun e he => (hcanonical e).symm ▸ he
      typeParams := fun e info he => (hinfo he).2.1 ▸ List.not_mem_nil
      members := fun e info he => (hinfo he).2.2.1 ▸ List.not_mem_nil }
  have hname : dynamicCall.world.Abbreviates aliasTable ⟨16⟩ .dynamicAny :=
    World.abbreviates_of_intrinsic
      (TypeTable.le_store (TypeTable.handles_initial_of_ne (by decide))) rfl
      ⟨⟨2⟩, _, rfl, rfl, rfl, rfl⟩
  refine ⟨helement, hname, ?_⟩
  -- The variable is called, and nothing else is done with it.
  constructor
  · intro n c slot _ hc hslot
    rcases hcontent hc with rfl | rfl <;> cases hslot
  · intro n c hc m hm
    rcases hcontent hc with rfl | rfl <;> cases hm
  · intro n elements m c hc
    rcases hcontent hc with h | h <;> cases h
  · intro n pattern initializer hc
    rcases hcontent hc with h | h <;> cases h
  · intro n expression hc
    rcases hcontent hc with h | h <;> cases h
  · intro reference guard hguard
    cases hguard
  · intro e info n he _ hn
    cases (hinfo he).1.symm.trans hn
  · intro n c hc hd
    rcases hcontent hc with rfl | rfl
    · exact ⟨_, rfl⟩
    · cases hd
  · intro n c hc hbody
    rcases hcontent hc with rfl | rfl <;> cases hbody
  · intro n guard hguard
    cases hguard

/-- The call stays dynamic when the variable is annotated with the alias. -/
theorem infer_annotate_dynamicCall : ∃ t,
    (dynamicCall.annotate ⟨1⟩ ⟨16⟩).infer .empty (.node ⟨1⟩) ⟨aliasTable, .empty, 0⟩ =
      .ok t ⟨aliasTable, .empty, 0⟩ ∧ t = .dynamicAny := by
  have hrun : dynamicCall.infer .empty (.node ⟨1⟩) ⟨aliasTable, .empty, 0⟩ =
      .ok .dynamicAny ⟨aliasTable, .empty, 0⟩ := rfl
  have hrows : ∀ data ∈ aliasTable.rows.toList, data.Hides (.single ⟨1⟩ aliasTable) := by decide
  have hhides : aliasTable.Hides (.single ⟨1⟩ aliasTable) :=
    ⟨le_refl _, fun i data hdata =>
      hrows data (Array.mem_toList_iff.mpr (Array.mem_of_getElem? hdata))⟩
  obtain ⟨t, hrun', hsame, -⟩ := infer_annotate dynamicCall_renames hhides hrun
  exact ⟨t, hrun', hsame (not_carries rfl (fun _ h => by cases h) rfl)⟩

end Program

end ScriptTyping
