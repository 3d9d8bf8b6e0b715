import ScriptTyping.Proofs.Judgment.Inquiry
import ScriptTyping.Proofs.Table.Recall
import ScriptTyping.Proofs.Tree.Parentheses

/-!
# Parentheses do not show

Inference gives the same type with and without parentheses around an expression, except where the
rule of the node that holds the expression looks at its shape: `await` and `promisify` look for a
call, and a member access for `this` or `super`, and they do not look into parentheses.

The parentheses cost a unit of room.  Two runs that are never cut off for lack of it meet the same
nodes, one of them the parentheses in addition, and extend their memories in the same way.

## Main definitions

* `Program.uncut` — the judgment that fails where the plain one is cut off.
* `Program.Wraps` — parentheses can be put around a node of the program.
* `Correspondence.coinciding` — inferences that return both do the same.

## Main results

* `Program.Wraps.mirror` — the program with the parentheses reads the same.
* `Program.infer_parenthesize` — parentheses do not show.
-/

namespace ScriptTyping

/-- No rule looks for parentheses. -/
theorem Content.inspects_paren (c : Content) (expression : Slot) :
    c.inspects (.paren expression) = false := by
  cases c <;> rfl

/-- Inferences that return both give related results and leave the same memory. -/
def Correspondence.coinciding : Correspondence .transparent where
  rel x y V := ∀ s a s' b s'', x s = .ok a s' → y s = .ok b s'' → s' = s'' ∧ V a b
  return' := by
    intro α β V a b hab s a' s' b' s'' hx hy
    obtain ⟨rfl, rfl⟩ := InferM.pure_eq_ok.mp hx
    obtain ⟨rfl, rfl⟩ := InferM.pure_eq_ok.mp hy
    exact ⟨rfl, hab⟩
  bind := by
    intro α β γ δ V W x y f g hx hf s c s' e s'' hc he
    obtain ⟨a, s₁, ha, hc⟩ := InferM.bind_eq_ok.mp hc
    obtain ⟨b, s₂, hb, he⟩ := InferM.bind_eq_ok.mp he
    obtain ⟨rfl, hab⟩ := hx s a s₁ b s₂ ha hb
    exact hf a b hab s₁ c s' e s'' hc he
  lift := by
    intro α β V z z' hz s a s' b s'' ha hb
    obtain ⟨T, hT, rfl⟩ := InferM.liftM_eq_ok.mp ha
    obtain ⟨T', hT', rfl⟩ := InferM.liftM_eq_ok.mp hb
    obtain ⟨-, -, b', hb', hab⟩ := hz s.types s.types.hides_transparent a T hT
    cases hb'.symm.trans hT'
    exact ⟨rfl, hab⟩
  noteFallback s a s' b s'' ha hb := by
    cases ha.symm.trans hb
    exact ⟨rfl, rfl⟩
  fallbackCount s a s' b s'' ha hb := by
    cases ha.symm.trans hb
    exact ⟨rfl, rfl⟩
  memoized? d s a s' b s'' ha hb := by
    cases ha.symm.trans hb
    exact ⟨rfl, rfl⟩
  writable _ := True
  memoize d t _ s a s' b s'' ha hb := by
    cases ha.symm.trans hb
    exact ⟨rfl, rfl⟩

/-- Two walks that may not end. -/
theorem Correspondence.coinciding_ofOption {α β : Type} {V : α → β → Prop} {found : Option α}
    {found' : Option β} (h : ∀ a b, found = some a → found' = some b → V a b) :
    coinciding.rel (liftM (TypeM.ofOption found)) (liftM (TypeM.ofOption found')) V := by
  intro s a s' b s'' ha hb
  obtain ⟨T, hT, rfl⟩ := InferM.liftM_eq_ok.mp ha
  obtain ⟨T', hT', rfl⟩ := InferM.liftM_eq_ok.mp hb
  obtain ⟨hfound, rfl⟩ := TypeM.ofOption_eq_ok.mp hT
  obtain ⟨hfound', rfl⟩ := TypeM.ofOption_eq_ok.mp hT'
  exact ⟨rfl, h a b hfound hfound'⟩

namespace Program

open Correspondence (coinciding)

/-- The program with a node in parentheses. -/
def parenthesize (p : Program) (child : NodeId) : Program :=
  { p with tree := p.tree.parenthesize child }

/-- The judgment that fails where the plain one is cut off for lack of room. -/
def uncut (p : Program) : Nat → Judge
  | 0 =>
    { node := fun _ n => if (p.tree.get? n).isSome then throw .outOfFuel else pure .unknown
      decl := fun _ _ => throw .outOfFuel }
  | room + 1 =>
    { node := fun env n =>
        match p.tree.get? n with
        | some node => p.nodeType (uncut p room) env n node.content
        | none => pure .unknown
      decl := fun env d => p.declarationType (uncut p room) env d }

/-- The type of a node or declaration by the uncut judgment. -/
def inferUncut (p : Program) (env : Environment) : Typable → InferM TypeId
  | .node n => (p.uncut p.options.maxInferenceDepth).node env n
  | .decl d => (p.uncut p.options.maxInferenceDepth).decl env d

/-- The inference returns and is never cut off for lack of room. -/
structure InfersUncut (p : Program) (env : Environment) (target : Typable) (s : Memory)
    (t : TypeId) (s' : Memory) : Prop where
  returns : p.infer env target s = .ok t s'
  uncut : p.inferUncut env target s = .ok t s'

section Uncut

variable {p : Program} {env : Environment} {n : NodeId} {c : Content}

theorem uncut_of_none (h : p.content? n = none) (room : Nat) :
    (p.uncut room).node env n = pure .unknown := by
  have hget : p.tree.get? n = none := Option.map_eq_none_iff.mp h
  cases room with
  | zero => simp only [uncut, hget, Option.isSome_none, Bool.false_eq_true, if_false]
  | succ room => simp only [uncut, hget]

theorem uncut_zero (h : p.content? n = some c) :
    (p.uncut 0).node env n = throw .outOfFuel := by
  obtain ⟨node, hget, -⟩ := Option.map_eq_some_iff.mp h
  simp only [uncut, hget, Option.isSome_some, if_true]

theorem uncut_succ (h : p.content? n = some c) (room : Nat) :
    (p.uncut (room + 1)).node env n = p.nodeType (p.uncut room) env n c := by
  obtain ⟨node, hget, rfl⟩ := Option.map_eq_some_iff.mp h
  simp only [uncut, hget]

end Uncut

/-- Parentheses can be put around a node of the program: around the node of the tree, and no
declaration or type test refers to the next handle. -/
structure Wraps (p : Program) (child : NodeId) (d : Content) : Prop where
  tree : p.tree.Wraps child d
  declared : ∀ {d info}, p.decl? d = some info → info.node ≠ some p.tree.next
  tested : ∀ {reference guard}, guard ∈ p.flow.guardsAt reference →
    p.tree.next ∉ guard.typeRefs

variable {p : Program} {child : NodeId} {d : Content}

theorem content?_parenthesize {n : NodeId} (hn : n ≠ p.tree.next) :
    (p.parenthesize child).content? n =
      (p.content? n).map (Content.relocate (p.tree.moved child)) :=
  Tree.content?_parenthesize hn

theorem isConstructor_parenthesize (p : Program) (child n : NodeId) :
    (p.parenthesize child).isConstructor n = p.isConstructor n := by
  unfold Program.isConstructor
  by_cases hn : n = p.tree.next
  · have hnone : p.content? n = none := hn ▸ Tree.content?_next p.tree
    have hparen : (p.parenthesize child).content? n = some (.paren (some child)) :=
      hn ▸ Tree.content?_parenthesize_next p.tree child
    rw [hnone, hparen]
  · rw [content?_parenthesize hn]
    cases p.content? n with
    | none => rfl
    | some c => cases c <;> rfl

/-- The next handle is not asked for, if no node, declaration or type test refers to it. -/
theorem asksOnly_ne_next
    (hslots : ∀ {n m c}, p.content? n = some c → some m ∈ c.slots → m ≠ p.tree.next)
    (hdeclared : ∀ {d info}, p.decl? d = some info → info.node ≠ some p.tree.next)
    (htested : ∀ {reference guard}, guard ∈ p.flow.guardsAt reference →
      p.tree.next ∉ guard.typeRefs) :
    p.AsksOnly (· ≠ p.tree.next) (· ≠ p.tree.next) where
  operands _ hc hslot m hm := hslots hc (Content.mem_slots_of_operands (hm ▸ hslot))
  receiver? hc m hm := hslots hc (Content.mem_slots_of_receiver? hm)
  initializer? hc m hm := hslots hc (Content.mem_slots_of_initializer? hm)
  elements _ _ hm _ := Tree.ne_next_of_content? hm
  properties := Tree.ne_next_of_content?
  calls := Tree.ne_next_of_content?
  yields := Tree.ne_next_of_content?
  bindings hc m hm := hslots hc (hm ▸ List.mem_cons_of_mem _ (List.mem_singleton_self _))
  returns hc m hm := hslots hc (hm ▸ List.mem_singleton_self _)
  tested hguard n hn := by
    rintro rfl
    exact htested hguard hn
  declared hinfo _ hn := by
    rintro rfl
    exact hdeclared hinfo hn

/-- A constant that is evaluated to the end. -/
theorem constant?_eq_ok {slot : Slot} {value : Option ConstValue} {T T' : TypeTable} :
    p.constant? slot T = .ok value T' ↔
      Constant.evaluate ⟨p.tree, p.world.declarations, T.symbols⟩ slot = .ok value ∧ T' = T := by
  have hget : (get : TypeM TypeTable) T = .ok T T := rfl
  unfold constant?
  rw [TypeM.bind_of_ok hget]
  cases hvalue : Constant.evaluate ⟨p.tree, p.world.declarations, T.symbols⟩ slot with
  | ok found =>
    constructor
    · intro h
      obtain ⟨rfl, rfl⟩ := TypeM.pure_eq_ok.mp h
      exact ⟨rfl, rfl⟩
    · rintro ⟨h, rfl⟩
      cases h
      rfl
  | error =>
    constructor
    · intro h
      cases h
    · rintro ⟨h, -⟩
      cases h

namespace Wraps

variable (h : p.Wraps child d)

include h

/-- The handle of the parentheses is not asked for. -/
theorem asksOnly : p.AsksOnly (· ≠ p.tree.next) (· ≠ p.tree.next) :=
  asksOnly_ne_next h.tree.slot_ne_next h.declared h.tested

/-- The payload at the place of a child. -/
private theorem contentAt?_moved {n : NodeId} {c : Content} {slot : Slot}
    (hc : p.content? n = some c) (hslot : slot ∈ c.slots) :
    (p.parenthesize child).contentAt? (slot.map (p.tree.moved child)) =
        (p.contentAt? slot).map (Content.relocate (p.tree.moved child)) ∨
      p.contentAt? slot = some d ∧ c.inspects d = false ∧
        (p.parenthesize child).contentAt? (slot.map (p.tree.moved child)) =
          some (.paren (some child)) :=
  h.tree.contentAt?_moved hc hslot

/-- The member around a node and the node that owns it. -/
private theorem enclosingMember? {α : Type} {read : NodeId → Content → Option α}
    (hread : ∀ member c, read member (c.relocate (p.tree.moved child)) = read member c)
    {n : NodeId} (hn : n ≠ p.tree.next) :
    (((p.parenthesize child).tree.enclosingMember? n).bind fun member =>
      ((p.parenthesize child).tree.parent? member).bind fun owner =>
        ((p.parenthesize child).content? owner).bind (read member)) =
    (p.tree.enclosingMember? n).bind fun member =>
      (p.tree.parent? member).bind fun owner => (p.content? owner).bind (read member) := by
  have hsame : (p.parenthesize child).tree.enclosingMember? n = p.tree.enclosingMember? n :=
    h.tree.findAncestor? (fun _ => rfl) (Content.isMember_relocate _) hn
  rw [hsame]
  refine Option.bind_congr fun member hmember => ?_
  obtain ⟨c, hc, hmember⟩ := Tree.content?_of_findAncestor? hmember
  have hshape : c.isExpression = false := by
    cases c with
    | method | getter | setter | field => rfl
    | _ => cases hmember
  have hparent : (p.parenthesize child).tree.parent? member = p.tree.parent? member :=
    Tree.parent?_parenthesize (Tree.ne_next_of_content? hc) (h.tree.ne_child hc hshape)
  rw [hparent]
  refine Option.bind_congr fun owner howner => ?_
  rw [content?_parenthesize (h.tree.parent_ne_next howner), Option.bind_map]
  exact Option.bind_congr fun c _ => hread member c

/-- What stands around another node than the one in parentheses. -/
private theorem contentAt?_parent {n : NodeId} (hn : n ≠ p.tree.next) (hchild : n ≠ child) :
    (p.parenthesize child).contentAt? ((p.parenthesize child).tree.parent? n) =
      (p.contentAt? (p.tree.parent? n)).map (Content.relocate (p.tree.moved child)) := by
  have hparent : (p.parenthesize child).tree.parent? n = p.tree.parent? n :=
    Tree.parent?_parenthesize hn hchild
  rw [hparent]
  cases hm : p.tree.parent? n with
  | none => rfl
  | some m => exact content?_parenthesize (h.tree.parent_ne_next hm)

private theorem superUse {n : NodeId} (hc : p.content? n = some .superExpr) :
    (p.parenthesize child).superUse n = p.superUse n := by
  have hn := Tree.ne_next_of_content? hc
  have hchild : n ≠ child := by
    rintro rfl
    exact h.tree.notSuper (Option.some.inj (h.tree.content.symm.trans hc))
  unfold Program.superUse
  rw [h.contentAt?_parent hn hchild]
  cases p.contentAt? (p.tree.parent? n) with
  | none => rfl
  | some c =>
    cases c with
    | propertyAccess | indexedAccess | call =>
      simp only [Option.map_some, Content.relocate, Tree.map_moved_eq_some _ hn hchild]
    | _ => rfl

private theorem isAwaited {n : NodeId} {target : Slot} {typeArgs : List TypeId} {args : List Slot}
    (hc : p.content? n = some (.call target typeArgs args)) :
    (p.parenthesize child).isAwaited n = p.isAwaited n := by
  have hn := Tree.ne_next_of_content? hc
  unfold Program.isAwaited
  by_cases hchild : n = child
  · -- What holds the call is no `await`, which would look at it, and the parentheses are none.
    subst hchild
    obtain rfl := Option.some.inj (hc.symm.trans h.tree.content)
    have hparent : (p.parenthesize n).tree.parent? n = some p.tree.next := h.tree.parent?_child
    have hparen : (p.parenthesize n).contentAt? (some p.tree.next) = some (.paren (some n)) :=
      Tree.content?_parenthesize_next p.tree n
    rw [hparent, hparen]
    cases hm : p.tree.parent? n with
    | none => rfl
    | some m =>
      obtain ⟨c, hm, hslot⟩ := h.tree.proper.holds hm
      have hcontent : p.contentAt? (some m) = some c := hm
      have hinspects := (h.tree.holders hm hslot).2
      rw [hcontent]
      cases c with
      | awaitExpr => cases hinspects
      | _ => rfl
  · rw [h.contentAt?_parent hn hchild]
    cases p.contentAt? (p.tree.parent? n) with
    | none => rfl
    | some c =>
      cases c with
      | awaitExpr expression =>
        simp only [Option.map_some, Content.relocate]
        rw [Bool.eq_iff_iff, beq_iff_eq, beq_iff_eq]
        exact Tree.map_moved_eq_some _ hn hchild
      | _ => rfl

private theorem enclosingFunction? {n : NodeId} (hn : n ≠ p.tree.next) :
    (((p.parenthesize child).tree.enclosingFunction? n true).bind
        (p.parenthesize child).content?).bind Content.declared? =
      ((p.tree.enclosingFunction? n true).bind p.content?).bind Content.declared? := by
  have hsame : (p.parenthesize child).tree.enclosingFunction? n true =
      p.tree.enclosingFunction? n true :=
    h.tree.findAncestor? (fun _ => rfl) (Content.hasBody_relocate _ _) hn
  rw [hsame]
  cases hm : p.tree.enclosingFunction? n true with
  | none => rfl
  | some m =>
    obtain ⟨c, hc, -⟩ := Tree.content?_of_findAncestor? hm
    rw [Option.bind_some, Option.bind_some, content?_parenthesize (Tree.ne_next_of_content? hc)]
    cases p.content? m with
    | none => rfl
    | some c => exact c.declared?_relocate _

/-- The way from a binding to a variable, and what the binding stands in. -/
private theorem patternPath? {n : NodeId} {decl : Option DeclId} {declared : Option TypeId}
    {initializer : Slot} {isImmutable : Bool}
    (hc : p.content? n = some (.variableDecl decl declared initializer isImmutable)) :
    (p.parenthesize child).tree.patternPath? n = (p.tree.patternPath? n).map (fun path =>
      { path with initializer := path.initializer.map (p.tree.moved child) }) ∧
    ∀ path, p.tree.patternPath? n = some path →
      path.initializer.Satisfies (· ≠ p.tree.next) ∧
      Content.Surrounds (p.tree.moved child) (p.contentAt? (p.tree.parent? path.binding))
        ((p.parenthesize child).contentAt?
          ((p.parenthesize child).tree.parent? path.binding)) := by
  refine ⟨h.tree.patternPath? hc rfl, fun path hpath => ?_⟩
  obtain ⟨element, -, hpath⟩ := Option.bind_eq_some_iff.mp hpath
  refine ⟨h.asksOnly.patternPathFrom hpath, .inl ?_⟩
  obtain ⟨pattern, initializer, hbinding⟩ := Tree.binding_of_patternPathFrom hpath
  exact h.contentAt?_parent (Tree.ne_next_of_content? hbinding) (h.tree.ne_child hbinding rfl)

/-! ### Walks that may not end -/

/-- What stands inside parentheses, with what is there. -/
private theorem stripParens? {n : NodeId} {c : Content} {slot : Slot}
    (hc : p.content? n = some c) (hslot : slot ∈ c.slots) :
    coinciding.rel (liftM (TypeM.ofOption (p.tree.stripParens? slot)))
      (liftM (TypeM.ofOption
        ((p.parenthesize child).tree.stripParens? (slot.map (p.tree.moved child)))))
      fun inner inner' => (p.parenthesize child).contentAt? inner' =
        (p.contentAt? inner).map (Content.relocate (p.tree.moved child)) := by
  refine Correspondence.coinciding_ofOption fun inner inner' hinner hinner' => ?_
  have hne : slot ≠ some p.tree.next := by
    rintro rfl
    exact h.tree.fresh hc hslot
  obtain rfl := h.tree.stripParensFrom hne hinner hinner'
  have hinner := h.tree.stripped_ne_next hne hinner
  cases inner' with
  | none => rfl
  | some m => exact content?_parenthesize fun hm => hinner (congrArg some hm)

private theorem isEmptyArray {n : NodeId} {c : Content} {slot : Slot}
    (hc : p.content? n = some c) (hslot : slot ∈ c.slots) :
    coinciding.rel (liftM (p.isEmptyArray slot))
      (liftM ((p.parenthesize child).isEmptyArray (slot.map (p.tree.moved child)))) Eq := by
  unfold Program.isEmptyArray
  rw [InferM.liftM_bind, InferM.liftM_bind]
  refine coinciding.bind (h.stripParens? hc hslot) fun inner inner' hinner => ?_
  rw [hinner]
  cases hcontent : p.contentAt? inner with
  | none => exact coinciding.same _
  | some c =>
    cases c with
    | arrayLiteral elements =>
      obtain ⟨m, -, hm⟩ := Option.bind_eq_some_iff.mp hcontent
      refine coinciding.return' ?_
      rw [Bool.eq_iff_iff, List.all_map, List.all_eq_true, List.all_eq_true]
      refine forall₂_congr fun element helement => ?_
      dsimp only [Function.comp_apply]
      rcases h.contentAt?_moved hm helement with hmoved | ⟨hd, -, hparen⟩
      · rw [hmoved]
        cases p.contentAt? element with
        | none => rfl
        | some c => cases c <;> rfl
      · have hexpression := h.tree.expression
        rw [hd, hparen]
        cases d with
        | arrayPadding => cases hexpression
        | _ => rfl
    | _ => exact coinciding.same _

private theorem hasThisReceiver {n : NodeId} {c : Content} {slot : Slot}
    (hc : p.content? n = some c) (hslot : slot ∈ c.slots) :
    coinciding.rel (liftM (p.hasThisReceiver slot))
      (liftM ((p.parenthesize child).hasThisReceiver (slot.map (p.tree.moved child)))) Eq := by
  unfold Program.hasThisReceiver
  rw [InferM.liftM_bind, InferM.liftM_bind]
  refine coinciding.bind (h.stripParens? hc hslot) fun inner inner' hinner => ?_
  rw [hinner]
  cases hcontent : p.contentAt? inner with
  | none => exact coinciding.same _
  | some c =>
    cases c with
    | propertyAccess target =>
      obtain ⟨m, -, hm⟩ := Option.bind_eq_some_iff.mp hcontent
      refine coinciding.return' ?_
      rcases h.contentAt?_moved hm (List.mem_singleton_self _) with
        hmoved | ⟨hd, hinspects, hparen⟩
      · rw [hmoved, Option.any_map]
        congr 1
        funext c
        exact (c.isThisOrSuper_relocate _).symm
      · rw [hd, hparen]
        cases d with
        | thisExpr | superExpr => cases hinspects
        | _ => rfl
    | _ => exact coinciding.same _

private theorem constant? {n : NodeId} {c : Content} {slot : Slot}
    (hc : p.content? n = some c) (hslot : slot ∈ c.slots) :
    coinciding.rel (liftM (p.constant? slot))
      (liftM ((p.parenthesize child).constant? (slot.map (p.tree.moved child)))) Eq := by
  have hne : slot ≠ some p.tree.next := by
    rintro rfl
    exact h.tree.fresh hc hslot
  intro s a s' b s'' ha hb
  obtain ⟨T, hT, rfl⟩ := InferM.liftM_eq_ok.mp ha
  obtain ⟨T', hT', rfl⟩ := InferM.liftM_eq_ok.mp hb
  obtain ⟨hvalue, rfl⟩ := constant?_eq_ok.mp hT
  obtain ⟨hvalue', rfl⟩ := constant?_eq_ok.mp hT'
  exact ⟨rfl, (h.tree.evalFrom h.declared hne _ _ hvalue hvalue').symm⟩

private theorem exits? {d : DeclId} {info : Declaration} {owner : NodeId}
    (hinfo : p.decl? d = some info) (howner : info.node = some owner) :
    coinciding.rel (liftM (TypeM.ofOption (p.tree.exits? owner)))
      (liftM (TypeM.ofOption ((p.parenthesize child).tree.exits? owner)))
      (Exits.Matches p (p.tree.moved child) (· ≠ p.tree.next) (· ≠ p.tree.next)) := by
  refine Correspondence.coinciding_ofOption fun exits exits' hexits hexits' => ?_
  have hne : owner ≠ p.tree.next := fun hnext => h.declared hinfo (hnext ▸ howner)
  have hchildren : (p.parenthesize child).tree.children owner =
      (p.tree.children owner).map (p.tree.moved child) := by
    have hcontent : (p.parenthesize child).tree.content? owner = _ :=
      Tree.content?_parenthesize hne
    rw [Tree.children, hcontent, Tree.children]
    cases p.tree.content? owner with
    | none => rfl
    | some c => exact c.children_relocate _
  have hstack : p.tree.next ∉ p.tree.children owner := by
    rw [Tree.children]
    cases hc : p.tree.content? owner with
    | none => exact List.not_mem_nil
    | some c =>
      intro hmem
      obtain ⟨_, hslot, rfl⟩ := List.mem_filterMap.mp hmem
      exact h.tree.fresh hc hslot
  unfold Tree.exits? at hexits'
  rw [hchildren] at hexits'
  obtain rfl := h.tree.exitsFrom hstack hexits hexits'
  have hyields := p.tree.yields_of_exitsFrom hexits fun _ hn => by cases hn
  refine ⟨rfl, rfl, h.asksOnly.returns_of_exitsFrom hexits (fun _ hn => by cases hn), ?_⟩
  intro n hn
  obtain ⟨expression, isDelegate, hc⟩ := hyields n hn
  exact ⟨Tree.ne_next_of_content? hc, expression, isDelegate, hc⟩

/-- The program with the parentheses reads the same. -/
theorem mirror : Mirror .coinciding p (p.parenthesize child) (p.tree.moved child)
    (· ≠ p.tree.next) (· ≠ p.tree.next) (· ≠ p.tree.next) where
  world := .refl p.world
  flow := rfl
  options := rfl
  content {n c} hn hc := by rw [content?_parenthesize hn, hc, Option.map_some]
  inspected {n c slot} hn hc hslot := by
    rcases h.contentAt?_moved hc (Content.mem_slots_of_inspected hslot) with
      hmoved | ⟨hd, hinspects, hparen⟩
    · exact .inl hmoved
    · exact .inr ⟨_, _, hd, hparen, hinspects, c.inspects_paren _⟩
  operands := h.asksOnly.operands
  receiver? := h.asksOnly.receiver?
  initializer? {n c} _ hc m hm := by
    refine ⟨h.asksOnly.initializer? hc m hm, Tree.moved_of_ne ?_⟩
    rintro rfl
    have hexpression := (h.tree.holders hc (Content.mem_slots_of_initializer? hm)).1
    cases c with
    | field | variableDecl | parameter | propertyAssignment => cases hexpression
    | _ => cases hm
  elements _ _ _ _ hm _ := Tree.ne_next_of_content? hm
  properties {n properties m c} _ _ _ hm hinspects := by
    cases c with
    | propertyAssignment =>
      exact ⟨Tree.ne_next_of_content? hm, Tree.moved_of_ne (h.tree.ne_child hm rfl), fun _ _ => id⟩
    | _ => cases hinspects
  calls _ _ _ _ _ := h.asksOnly.calls
  isWriteAccess hn _ := h.tree.isWriteAccess hn
  enclosingClassifier? hn _ := h.enclosingMember? (fun _ c => by cases c <;> rfl) hn
  enclosingClass? hn _ := h.enclosingMember? (fun _ c => by cases c <;> rfl) hn
  isStaticMember n :=
    Tree.any_content?_parenthesize (fun _ => rfl) (Content.isStaticMember_relocate _) n
  isConstructor := p.isConstructor_parenthesize child
  superUse _ hc := h.superUse hc
  isAwaited _ := h.isAwaited
  enclosingFunction? hn _ := ⟨h.enclosingFunction? hn, fun _ _ => id⟩
  parent? {n _ _ _ _} hn hc := by
    have hchild := h.tree.ne_child hc rfl
    refine ⟨Tree.parent?_parenthesize hn hchild, fun q hq => .inl ?_⟩
    exact content?_parenthesize (h.tree.parent_ne_next hq)
  patternPath? _ hc := h.patternPath? hc
  isEmptyArray _ hc hslot := h.isEmptyArray hc hslot
  hasThisReceiver _ hc hslot := h.hasThisReceiver hc hslot
  constant? _ hc hslot := h.constant? hc hslot
  exits? := h.exits?
  tested := h.asksOnly.tested
  declared := h.asksOnly.declared
  writable _ _ := trivial

/-- The judgments of the nodes in place determine those at the places of children: where the second
run meets the parentheses, it takes a step that the first one does not. -/
private theorem asks_of_direct {judge : Judge}
    (hdirect : ∀ room' env n, n ≠ p.tree.next → coinciding.rel (judge.node env n)
      (((p.parenthesize child).uncut room').node env n) Eq)
    (hdecl : ∀ room' env d, coinciding.rel (judge.decl env d)
      (((p.parenthesize child).uncut room').decl env d) Eq) (room' : Nat) :
    coinciding.Asks p (p.parenthesize child) (p.tree.moved child)
      (· ≠ p.tree.next) (· ≠ p.tree.next) judge ((p.parenthesize child).uncut room') := by
  have hparen : (p.parenthesize child).content? p.tree.next = some (.paren (some child)) :=
    Tree.content?_parenthesize_next p.tree child
  have hnode (env : Environment) (n : NodeId) (hn : n ≠ p.tree.next) :
      coinciding.rel (judge.node env n)
        (((p.parenthesize child).uncut room').node env (p.tree.moved child n)) Eq := by
    by_cases hchild : n = child
    · rw [hchild, Tree.moved_self]
      cases room' with
      | zero =>
        rw [uncut_zero hparen]
        exact fun _ _ _ _ _ _ hb => by cases hb
      | succ room' =>
        rw [uncut_succ hparen]
        exact hdirect room' env child h.tree.child_ne_next
    · rw [Tree.moved_of_ne hchild]
      exact hdirect room' env n hn
  exact
    { node := hnode
      direct := hdirect room'
      receiver := fun env n hn => coinciding.mono (hnode env n hn)
        fun t _ ht => ht ▸ .refl h.mirror.world t
      decl := fun env d _ => hdecl room' env d }

/-- The uncut judgments with any room each. -/
theorem asks_uncut (room room' : Nat) :
    coinciding.Asks p (p.parenthesize child) (p.tree.moved child)
      (· ≠ p.tree.next) (· ≠ p.tree.next) (p.uncut room) ((p.parenthesize child).uncut room') := by
  have hmissing {n : NodeId} (hn : n ≠ p.tree.next) (hc : p.content? n = none) (room room' : Nat)
      (env : Environment) : coinciding.rel ((p.uncut room).node env n)
        (((p.parenthesize child).uncut room').node env n) Eq := by
    have hc' : (p.parenthesize child).content? n = none := by
      rw [content?_parenthesize hn, hc, Option.map_none]
    rw [uncut_of_none hc, uncut_of_none hc']
    exact coinciding.same _
  induction room generalizing room' with
  | zero =>
    refine h.asks_of_direct (fun room' env n hn => ?_) (fun _ _ _ => ?_) room'
    · cases hc : p.content? n with
      | none => exact hmissing hn hc 0 room' env
      | some c =>
        rw [uncut_zero hc]
        exact fun _ _ _ _ _ ha => by cases ha
    · exact fun _ _ _ _ _ ha => by cases ha
  | succ room ih =>
    refine h.asks_of_direct (fun room' env n hn => ?_) (fun room' env d => ?_) room'
    · cases hc : p.content? n with
      | none => exact hmissing hn hc (room + 1) room' env
      | some c =>
        have hc' := h.mirror.content hn hc
        cases room' with
        | zero =>
          rw [uncut_zero hc']
          exact fun _ _ _ _ _ _ hb => by cases hb
        | succ room' =>
          rw [uncut_succ hc, uncut_succ hc']
          refine coinciding.nodeType h.mirror (ih room') env hn hc
            (fun _ _ => id) fun _ _ => ?_
          exact fun _ _ _ _ _ ha => by cases ha
    · cases room' with
      | zero => exact fun _ _ _ _ _ _ hb => by cases hb
      | succ room' => exact coinciding.declarationType h.mirror (ih room') env id

end Wraps

/-- Parentheses around an expression do not show, unless the rule of the node that holds it looks at
its shape: the types of all nodes and declarations stay the same and the memory is extended in the
same way, if neither inference is cut off. -/
theorem infer_parenthesize (h : p.Wraps child d) {env : Environment} {target : Typable}
    (htarget : target ≠ .node p.tree.next) {s s₁ s₂ : Memory} {t₁ t₂ : TypeId}
    (hplain : p.InfersUncut env target s t₁ s₁)
    (hwrapped : (p.parenthesize child).InfersUncut env target s t₂ s₂) : t₁ = t₂ ∧ s₁ = s₂ := by
  have hasks := h.asks_uncut p.options.maxInferenceDepth p.options.maxInferenceDepth
  cases target with
  | node n =>
    have hn : n ≠ p.tree.next := fun hnext => htarget (congrArg Typable.node hnext)
    exact (hasks.direct env n hn s t₁ s₁ t₂ s₂ hplain.uncut hwrapped.uncut).symm
  | decl d => exact (hasks.decl env d id s t₁ s₁ t₂ s₂ hplain.uncut hwrapped.uncut).symm

/-- An annotated variable whose value is awaited. -/
def awaitedVariable : Program where
  world.declarations := ⟨#[{ kind := .var, name := .none, declaredType := some .number }]⟩
  world.builtins := default
  world.fuel := 0
  tree := ((Tree.empty.add (.identifier .none (some ⟨1⟩))).2.add (.awaitExpr (some ⟨0⟩))).2
  flow := .empty
  options := {}

theorem awaitedVariable_wraps :
    awaitedVariable.Wraps ⟨0⟩ (.identifier .none (some ⟨1⟩)) where
  tree :=
    { proper := (Tree.proper_empty.add _).add _
      content := rfl
      expression := rfl
      notSuper := by decide
      holders := fun hc => by
        refine Tree.forall_content? (P := fun c => some ⟨0⟩ ∈ c.slots → c.isExpression = true ∧
          c.inspects (.identifier .none (some ⟨1⟩)) = false) ?_ hc
        decide
      fresh := fun hc => by
        refine Tree.forall_content? (P := fun c => some awaitedVariable.tree.next ∉ c.slots) ?_ hc
        decide }
  declared hinfo := by
    refine Declarations.forall_get? (P := fun info => info.node ≠ some awaitedVariable.tree.next) ?_
      hinfo
    decide
  tested hguard := by cases hguard

/-- The awaited variable is a number, with and without parentheses around it. -/
theorem infer_parenthesize_awaitedVariable : ∃ t₁ t₂ s₁ s₂,
    awaitedVariable.InfersUncut .empty (.node ⟨1⟩) ⟨.initial, .empty, 0⟩ t₁ s₁ ∧
    (awaitedVariable.parenthesize ⟨0⟩).InfersUncut .empty (.node ⟨1⟩) ⟨.initial, .empty, 0⟩ t₂ s₂ ∧
    t₁ = t₂ ∧ s₁ = s₂ := by
  have hplain : awaitedVariable.InfersUncut .empty (.node ⟨1⟩) ⟨.initial, .empty, 0⟩ .number
      ⟨.initial, .empty, 0⟩ := ⟨rfl, rfl⟩
  have hwrapped : (awaitedVariable.parenthesize ⟨0⟩).InfersUncut .empty (.node ⟨1⟩)
      ⟨.initial, .empty, 0⟩ .number ⟨.initial, .empty, 0⟩ := ⟨rfl, rfl⟩
  exact ⟨_, _, _, _, hplain, hwrapped,
    infer_parenthesize awaitedVariable_wraps (by decide) hplain hwrapped⟩

end Program

end ScriptTyping
