import ScriptTyping.Proofs.Judgment.Traversal

/-!
# Inference on one tree

Comparing a program with itself says something about single runs, and comparing it with one of the
same tree about a change in the declared world.  The nodes that inference comes to ask for may be
restricted, as long as the rules lead from such nodes to such nodes only: through children, the
returns of bodies, the values that patterns take apart, flow facts and the nodes of declarations.

## Main definitions

* `Program.AsksOnly` — the rules ask for nodes of a kind only.

## Main results

* `Program.AsksOnly.mirror` — such a program mirrors the one with a world alike.
* `Correspondence.asks_judge` — the judgment with any room, compared with itself.
-/

namespace ScriptTyping

/-! ### Looking through a program -/

/-- What holds of all stored payloads. -/
theorem Tree.forall_content? {tree : Tree} {P : Content → Prop}
    (h : ∀ node ∈ tree.nodes.toList, P node.content) {n : NodeId} {c : Content}
    (hc : tree.content? n = some c) : P c := by
  obtain ⟨node, hnode, rfl⟩ := Option.map_eq_some_iff.mp hc
  exact h node (Array.mem_toList_iff.mpr (Array.mem_of_getElem? hnode))

/-- What holds of all registered declarations. -/
theorem Declarations.forall_get? {ds : Declarations} {P : Declaration → Prop}
    (h : ∀ info ∈ ds.entries.toList, P info) {d : DeclId} {info : Declaration}
    (hd : ds.get? d = some info) : P info := by
  obtain ⟨index⟩ := d
  cases index with
  | zero => cases hd
  | succ i => exact h info (Array.mem_toList_iff.mpr (Array.mem_of_getElem? hd))

namespace Program

variable {p : Program} {n : NodeId} {c : Content}

theorem judge_of_none (h : p.content? n = none) (room : Nat) (env : Environment) :
    (p.judge room).node env n = pure .unknown := by
  have hget : p.tree.get? n = none := Option.map_eq_none_iff.mp h
  cases room with
  | zero => simp only [judge, hget, Option.isSome_none, Bool.false_eq_true, if_false]
  | succ room => simp only [judge, hget]

theorem judge_zero (h : p.content? n = some c) (env : Environment) :
    (p.judge 0).node env n = exhausted := by
  obtain ⟨node, hget, -⟩ := Option.map_eq_some_iff.mp h
  simp only [judge, hget, Option.isSome_some, if_true]

theorem judge_succ (h : p.content? n = some c) (room : Nat) (env : Environment) :
    (p.judge (room + 1)).node env n = p.nodeType (p.judge room) env n c := by
  obtain ⟨node, hget, rfl⟩ := Option.map_eq_some_iff.mp h
  simp only [judge, hget]

end Program

/-! ### What the rules come to ask for -/

/-- Every node that a search finds yielding is a `yield`. -/
theorem Tree.yields_of_exitsFrom (tree : Tree) {fuel : Nat} {stack : List NodeId}
    {found exits : Exits} (h : tree.exitsFrom fuel stack found = some exits)
    (hfound : ∀ n ∈ found.yields, ∃ expression isDelegate,
      tree.content? n = some (.yieldExpr expression isDelegate)) :
    ∀ n ∈ exits.yields, ∃ expression isDelegate,
      tree.content? n = some (.yieldExpr expression isDelegate) := by
  fun_induction Tree.exitsFrom tree fuel stack found with
  | case1 => exact Option.some.inj h ▸ hfound
  | case2 => cases h
  | case3 fuel n stack found hnone ih => exact ih h hfound
  | case4 fuel n stack found content hcontent hboundary ih => exact ih h hfound
  | case5 fuel n stack found content hcontent hboundary ih =>
    refine ih h fun m hm => ?_
    cases content with
    | yieldExpr expression isDelegate =>
      rcases List.mem_append.mp hm with hm | hm
      · exact hfound m hm
      · exact List.mem_singleton.mp hm ▸ ⟨expression, isDelegate, hcontent⟩
    | returnStatement expression =>
      cases expression with
      | none => exact hfound m hm
      | some expression => exact hfound m hm
    | _ => exact hfound m hm

namespace Program

/-- The rules, from nodes of a kind, ask for nodes of that kind only, and for the receivers whose
types they resolve.  Calls are always of the kind. -/
structure AsksOnly (p : Program) (asked resolved : NodeId → Prop) : Prop where
  operands : ∀ {n c slot}, asked n → p.content? n = some c → slot ∈ c.operands →
    slot.Satisfies asked
  receiver? : ∀ {n c}, p.content? n = some c → c.receiver?.Satisfies resolved
  initializer? : ∀ {n c}, p.content? n = some c → c.initializer?.Satisfies asked
  elements : ∀ {n elements m c}, p.content? n = some (.arrayLiteral elements) →
    some m ∈ elements → p.content? m = some c →
    Content.inspects (.arrayLiteral elements) c = false → asked m
  properties : ∀ {n decl name declared value},
    p.content? n = some (.propertyAssignment decl name declared value) → asked n
  calls : ∀ {n target typeArgs args}, p.content? n = some (.call target typeArgs args) → asked n
  yields : ∀ {n expression isDelegate},
    p.content? n = some (.yieldExpr expression isDelegate) → asked n
  bindings : ∀ {n pattern initializer}, p.content? n = some (.variableBinding pattern initializer) →
    initializer.Satisfies asked
  returns : ∀ {n expression}, p.content? n = some (.returnStatement expression) →
    expression.Satisfies asked
  tested : ∀ {reference guard}, guard ∈ p.flow.guardsAt reference → ∀ n ∈ guard.typeRefs, asked n
  declared : ∀ {d info n}, p.decl? d = some info → info.kind.isTypedElement = true →
    info.node = some n → asked n

/-- The rules ask for nodes, of whatever kind. -/
theorem asksOnly_true (p : Program) : p.AsksOnly (fun _ => True) fun _ => True := by
  constructor
  all_goals intros
  all_goals first | trivial | exact fun _ _ => trivial

variable {p : Program} {asked resolved : NodeId → Prop}

/-- What a search finds returned. -/
theorem AsksOnly.returns_of_exitsFrom (h : p.AsksOnly asked resolved) {fuel : Nat}
    {stack : List NodeId} {found exits : Exits}
    (hexits : p.tree.exitsFrom fuel stack found = some exits)
    (hfound : ∀ n ∈ found.returns, asked n) : ∀ n ∈ exits.returns, asked n := by
  fun_induction Tree.exitsFrom p.tree fuel stack found with
  | case1 => exact Option.some.inj hexits ▸ hfound
  | case2 => cases hexits
  | case3 fuel n stack found hnone ih => exact ih hexits hfound
  | case4 fuel n stack found content hcontent hboundary ih => exact ih hexits hfound
  | case5 fuel n stack found content hcontent hboundary ih =>
    refine ih hexits fun m hm => ?_
    cases content with
    | returnStatement expression =>
      cases expression with
      | none => exact hfound m hm
      | some expression =>
        rcases List.mem_append.mp hm with hm | hm
        · exact hfound m hm
        · exact List.mem_singleton.mp hm ▸ h.returns hcontent expression rfl
    | _ => exact hfound m hm

/-- What a pattern takes apart. -/
theorem AsksOnly.patternPathFrom (h : p.AsksOnly asked resolved) {fuel : Nat} {element : NodeId}
    {steps : List PatternStep} {path : PatternPath}
    (hpath : p.tree.patternPathFrom fuel element steps = some path) :
    path.initializer.Satisfies asked := by
  induction fuel generalizing element steps with
  | zero => cases hpath
  | succ fuel ih =>
    obtain ⟨⟨step, pattern⟩, -, hpath⟩ := Option.bind_eq_some_iff.mp hpath
    obtain ⟨owner, -, hpath⟩ := Option.bind_eq_some_iff.mp hpath
    obtain ⟨content, hcontent, hpath⟩ := Option.bind_eq_some_iff.mp hpath
    cases content with
    | bindingElement => exact ih hpath
    | variableBinding pattern initializer =>
      obtain rfl := Option.some.inj hpath
      exact h.bindings hcontent
    | _ => cases hpath

/-- The same tree, with declarations that differ in hidden annotations. -/
def withWorld (p : Program) (w : World) : Program := { p with world := w }

/-- Constants do not depend on annotations. -/
private theorem evaluate_alike {v : Veil} {w w' : World} (h : w.AlikeBut v w') (tree : Tree)
    (symbols : SymbolTable) (slot : Slot) :
    Constant.evaluate ⟨tree, w'.declarations, symbols⟩ slot =
      Constant.evaluate ⟨tree, w.declarations, symbols⟩ slot := by
  have hinitializer : Constant.initializer? ⟨tree, w'.declarations, symbols⟩ =
      Constant.initializer? ⟨tree, w.declarations, symbols⟩ := by
    funext d
    rcases h.decl?_cases d with he | ⟨info, t, he, he', -⟩
    · have hget : w'.declarations.get? d = w.declarations.get? d := he
      simp only [Constant.initializer?, hget]
    · have hget : w.declarations.get? d = some info := he
      have hget' : w'.declarations.get? d = some { info with declaredType := t } := he'
      simp only [Constant.initializer?, hget, hget']
      rfl
  have heval (fuel : Nat) (visiting : List DeclId) (slot : Slot) :
      Constant.evalFrom ⟨tree, w'.declarations, symbols⟩ fuel visiting slot =
        Constant.evalFrom ⟨tree, w.declarations, symbols⟩ fuel visiting slot := by
    induction fuel generalizing visiting slot with
    | zero => rfl
    | succ fuel ih =>
      unfold Constant.evalFrom
      simp only [ih, h.canonical, hinitializer]
      rfl
  rw [Constant.evaluate, Constant.evaluate, heval, Constant.depth, Constant.depth, h.size]

variable {v : Veil} {C : Correspondence v} {w : World}

/-- What is read from the tree past parentheses is the same. -/
private theorem agrees_isEmptyArray (p : Program) (slot : Slot) :
    TypeM.Agrees v (p.isEmptyArray slot) (p.isEmptyArray slot) Eq := by
  rw [isEmptyArray]
  refine .bindEq (TypeM.agrees_ofOption _) fun slot => ?_
  split <;> exact TypeM.agrees_same _

private theorem agrees_hasThisReceiver (p : Program) (slot : Slot) :
    TypeM.Agrees v (p.hasThisReceiver slot) (p.hasThisReceiver slot) Eq := by
  rw [hasThisReceiver]
  refine .bindEq (TypeM.agrees_ofOption _) fun slot => ?_
  split <;> exact TypeM.agrees_same _

/-- A program mirrors the one with a world alike, with all nodes at their places. -/
theorem AsksOnly.mirror (h : p.AsksOnly asked resolved) (hworld : p.world.AlikeBut v w)
    (hproperties : ∀ {n decl name declared value},
      p.content? n = some (.propertyAssignment (some decl) name declared value) → ¬v.hidden decl)
    (hfunctions : ∀ {n c d}, p.content? n = some c → c.hasBody true = true →
      c.declared? = some d → ¬v.hidden d)
    (hwritable : ∀ {d info}, p.decl? (p.world.declarations.canonical d) = some info →
      info.isInferred = true → C.writable (p.world.declarations.canonical d)) :
    Mirror C p (p.withWorld w) id asked asked resolved where
  world := hworld
  flow := rfl
  options := rfl
  content {n c} _ hc := by
    rw [Content.relocate_id]
    exact hc
  inspected _ _ _ := by
    left
    rw [Option.map_id, id, Content.map_relocate_id]
    rfl
  operands := h.operands
  receiver? := h.receiver?
  initializer? _ hc m hm := ⟨h.initializer? hc m hm, rfl⟩
  elements _ hc hslot hm hcontent hinspects := h.elements hc (hm ▸ hslot) hcontent hinspects
  properties {_ _ _ c} _ _ _ hm hinspects := by
    cases c with
    | propertyAssignment decl =>
      refine ⟨h.properties hm, rfl, fun d hd => ?_⟩
      obtain rfl := Option.mem_toList.mp hd
      exact hproperties hm
    | _ => cases hinspects
  calls _ _ _ _ _ := h.calls
  isWriteAccess _ _ := rfl
  enclosingClassifier? _ _ := rfl
  enclosingClass? _ _ := rfl
  isStaticMember _ := rfl
  isConstructor _ := rfl
  superUse _ _ := rfl
  isAwaited _ _ := rfl
  enclosingFunction? {n _} _ _ := by
    refine ⟨rfl, fun d hd => ?_⟩
    obtain ⟨c, hc, hd⟩ := Option.bind_eq_some_iff.mp hd
    obtain ⟨m, hm, hc⟩ := Option.bind_eq_some_iff.mp hc
    have hbody : (p.content? m).any (Content.hasBody true) = true :=
      @List.find?_some _ (fun a => (p.content? a).any (Content.hasBody true)) _ _ hm
    rw [hc, Option.any_some] at hbody
    exact hfunctions hc hbody hd
  parent? _ _ := by
    refine ⟨rfl, fun q _ => .inl ?_⟩
    rw [Content.map_relocate_id]
    rfl
  patternPath? {n _ _ _ _} _ _ := by
    have hid : (fun path : PatternPath => { path with initializer := path.initializer.map id }) =
        id := by
      funext ⟨binding, initializer, steps⟩
      simp only [Option.map_id, id]
    refine ⟨by rw [hid, Option.map_id, id]; rfl, fun path hpath => ⟨?_, .inl ?_⟩⟩
    · obtain ⟨element, -, hpath⟩ := Option.bind_eq_some_iff.mp hpath
      exact h.patternPathFrom hpath
    · rw [Content.map_relocate_id]
      rfl
  isEmptyArray {_ _ slot} _ _ _ := by
    rw [Option.map_id, id]
    exact C.lift (agrees_isEmptyArray p slot)
  hasThisReceiver {_ _ slot} _ _ _ := by
    rw [Option.map_id, id]
    exact C.lift (agrees_hasThisReceiver p slot)
  constant? {_ _ slot} _ _ _ := by
    rw [Option.map_id, id]
    refine C.lift (.get fun T _ => ?_)
    dsimp only [withWorld]
    rw [evaluate_alike hworld]
    split
    · exact TypeM.agrees_same _
    · exact TypeM.agrees_diverge
  exits? {d info owner} _ _ := by
    refine C.lift ?_
    change TypeM.Agrees v (TypeM.ofOption (p.tree.exits? owner))
      (TypeM.ofOption (p.tree.exits? owner)) _
    cases hexits : p.tree.exits? owner with
    | none => exact TypeM.agrees_diverge
    | some exits =>
      have hnone : ∀ n ∈ Exits.none.yields, ∃ expression isDelegate,
          p.content? n = some (.yieldExpr expression isDelegate) := fun _ hn => by cases hn
      have hyields := p.tree.yields_of_exitsFrom hexits hnone
      refine .pure ⟨by rw [List.map_id], rfl, ?_, fun n hn => ?_⟩
      · exact h.returns_of_exitsFrom hexits fun _ hn => by cases hn
      · obtain ⟨expression, isDelegate, hc⟩ := hyields n hn
        exact ⟨h.yields hc, expression, isDelegate, hc⟩
  tested := h.tested
  declared := h.declared
  writable := hwritable

/-- A program mirrors itself. -/
theorem AsksOnly.self {C : Correspondence .transparent} (h : p.AsksOnly asked asked)
    (hwritable : ∀ {d info}, p.decl? (p.world.declarations.canonical d) = some info →
      info.isInferred = true → C.writable (p.world.declarations.canonical d)) :
    Mirror C p p id asked asked asked :=
  h.mirror (.refl p.world) (fun _ => id) (fun _ _ _ => id) hwritable

end Program

namespace Correspondence

variable {C : Correspondence .transparent} {p : Program} {asked : NodeId → Prop}

/-- The judgment with any room, compared with itself.  A statement or pattern that may be asked for
has to fail in a way that the correspondence allows. -/
theorem asks_judge (M : Mirror C p p id asked asked asked)
    (huntypable : ∀ {n c}, asked n → p.content? n = some c → c.isTypable = false →
      ∀ fault : Fault, C.rel (throw fault : InferM TypeId) (throw fault : InferM TypeId) Eq)
    (room : Nat) : C.Asks p p id asked asked (p.judge room) (p.judge room) := by
  have hcutOff : C.rel Program.exhausted Program.exhausted Eq :=
    C.bindEq C.noteFallback fun _ => C.same _
  -- The four clauses follow from the one for nodes and the one for declarations.
  have hasks {judge : Judge}
      (hnode : ∀ env n, asked n → C.rel (judge.node env n) (judge.node env n) Eq)
      (hdecl : ∀ env d, C.rel (judge.decl env d) (judge.decl env d) Eq) :
      C.Asks p p id asked asked judge judge :=
    { node := hnode
      direct := hnode
      receiver := fun env n hn => C.mono (hnode env n hn) fun t _ ht => ht ▸ .refl M.world t
      decl := fun env d _ => hdecl env d }
  have hmissing {n : NodeId} (hn : p.content? n = none) (room : Nat) (env : Environment) :
      C.rel ((p.judge room).node env n) ((p.judge room).node env n) Eq := by
    rw [Program.judge_of_none hn]
    exact C.same _
  induction room with
  | zero =>
    refine hasks (fun env n _ => ?_) fun _ _ => hcutOff
    cases hc : p.content? n with
    | none => exact hmissing hc 0 env
    | some c =>
      rw [Program.judge_zero hc]
      exact hcutOff
  | succ room ih =>
    refine hasks (fun env n hn => ?_) fun env d => C.declarationType M ih env id
    cases hc : p.content? n with
    | none => exact hmissing hc (room + 1) env
    | some c =>
      have hrule := C.nodeType M ih env hn hc (fun _ _ => id) (huntypable hn hc)
      rw [Content.relocate_id] at hrule
      rw [Program.judge_succ hc]
      exact hrule

end Correspondence

end ScriptTyping
