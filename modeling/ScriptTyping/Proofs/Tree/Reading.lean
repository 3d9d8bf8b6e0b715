import ScriptTyping.Tree.Node

/-!
# What a rule reads of a node

The rule of a node asks for the types of some of its children and looks at the shape of a few.
These are the parts that a change elsewhere in the tree must leave alone.

## Main definitions

* `Content.relocate` — the node with its children at other places.
* `Content.isTypable` — whether there is a rule for the node at all.
* `Content.operands`, `Content.receiver?`, `Content.initializer?` — the children whose types the
  rule uses as they are, through their aliases, and as the type of an element.
* `Content.inspected`, `Content.inspects` — the children whose shape the rule looks at, and the
  shapes that matter to it.
* `Content.referents` — the declarations that the rule refers to.
-/

namespace ScriptTyping.Content

/-- The node with its children at other places. -/
def relocate (f : NodeId → NodeId) : Content → Content
  | classDecl decl isExpression members => classDecl decl isExpression (members.map (·.map f))
  | interfaceDecl decl members => interfaceDecl decl (members.map (·.map f))
  | enumDecl decl literals => enumDecl decl (literals.map (·.map f))
  | functionDecl decl isExpression isArrow params body =>
    functionDecl decl isExpression isArrow (params.map (·.map f)) (body.map (·.map f))
  | method decl isStatic isConstructor params body =>
    method decl isStatic isConstructor (params.map (·.map f)) (body.map (·.map f))
  | getter decl declared isStatic body => getter decl declared isStatic (body.map (·.map f))
  | setter decl declared isStatic param body =>
    setter decl declared isStatic (param.map f) (body.map (·.map f))
  | field decl declared initializer isStatic isImmutable =>
    field decl declared (initializer.map f) isStatic isImmutable
  | variableDecl decl declared initializer isImmutable =>
    variableDecl decl declared (initializer.map f) isImmutable
  | parameter decl declared initializer isVariadic =>
    parameter decl declared (initializer.map f) isVariadic
  | variableStatement declarations => variableStatement (declarations.map (·.map f))
  | expressionStatement expression => expressionStatement (expression.map f)
  | block statements => block (statements.map (·.map f))
  | returnStatement expression => returnStatement (expression.map f)
  | forLoop kind declarations expression body =>
    forLoop kind (declarations.map (·.map f)) (expression.map f) (body.map f)
  | catchClause binder body => catchClause (binder.map f) (body.map f)
  | variableBinding pattern initializer => variableBinding (pattern.map f) (initializer.map f)
  | arrayPattern elements => arrayPattern (elements.map (·.map f))
  | objectPattern properties => objectPattern (properties.map (·.map f))
  | bindingProperty name value => bindingProperty name (value.map f)
  | bindingElement target isRest => bindingElement (target.map f) isRest
  | objectLiteral properties => objectLiteral (properties.map (·.map f))
  | propertyAssignment decl name declared value =>
    propertyAssignment decl name declared (value.map f)
  | propertySpread expression => propertySpread (expression.map f)
  | template parts => template (parts.map (·.map f))
  | taggedTemplate tag quasi => taggedTemplate (tag.map f) (quasi.map f)
  | arrayLiteral elements => arrayLiteral (elements.map (·.map f))
  | arrayElement expression isSpread => arrayElement (expression.map f) isSpread
  | paren expression => paren (expression.map f)
  | propertyAccess target name property typeArgs =>
    propertyAccess (target.map f) name property typeArgs
  | indexedAccess target index => indexedAccess (target.map f) (index.map f)
  | call target typeArgs args => call (target.map f) typeArgs (args.map (·.map f))
  | argument expression isSpread => argument (expression.map f) isSpread
  | newExpr callee typeArgs args => newExpr (callee.map f) typeArgs (args.map (·.map f))
  | yieldExpr expression isDelegate => yieldExpr (expression.map f) isDelegate
  | awaitExpr expression => awaitExpr (expression.map f)
  | promisify expression => promisify (expression.map f)
  | postfixExpr op operand => postfixExpr op (operand.map f)
  | unary op operand => unary op (operand.map f)
  | binary op left right => binary op (left.map f) (right.map f)
  | conditional condition whenTrue whenFalse =>
    conditional (condition.map f) (whenTrue.map f) (whenFalse.map f)
  | assignment op left right => assignment op (left.map f) (right.map f)
  | comma expressions => comma (expressions.map (·.map f))
  | cast expression target => cast (expression.map f) target
  | jsxElement elementClass props children => jsxElement elementClass props (children.map (·.map f))
  | jsxFragment elementClass children => jsxFragment elementClass (children.map (·.map f))
  | enumLiteral decl => enumLiteral decl
  | typeAlias decl => typeAlias decl
  | typeVariable decl => typeVariable decl
  | catchVariable decl => catchVariable decl
  | nullLiteral => nullLiteral
  | booleanLiteral value => booleanLiteral value
  | numericLiteral value => numericLiteral value
  | stringLiteral value => stringLiteral value
  | regularExpression => regularExpression
  | templateSegment text => templateSegment text
  | arrayPadding => arrayPadding
  | identifier name target => identifier name target
  | thisExpr => thisExpr
  | superExpr => superExpr
  | newTarget => newTarget

/-- A node whose children stay where they are. -/
@[simp] theorem relocate_id (c : Content) : c.relocate id = c := by
  cases c <;> simp [relocate]

@[simp] theorem map_relocate_id (content : Option Content) :
    content.map (relocate id) = content := by
  cases content <;> simp

theorem slots_relocate (f : NodeId → NodeId) (c : Content) :
    (c.relocate f).slots = c.slots.map (·.map f) := by
  cases c <;> simp [relocate, slots]

@[simp] theorem declared?_relocate (f : NodeId → NodeId) (c : Content) :
    (c.relocate f).declared? = c.declared? := by
  cases c <;> rfl

@[simp] theorem isMember_relocate (f : NodeId → NodeId) (c : Content) :
    (c.relocate f).isMember = c.isMember := by
  cases c <;> rfl

@[simp] theorem isStaticMember_relocate (f : NodeId → NodeId) (c : Content) :
    (c.relocate f).isStaticMember = c.isStaticMember := by
  cases c <;> rfl

@[simp] theorem isParen_relocate (f : NodeId → NodeId) (c : Content) :
    (c.relocate f).isParen = c.isParen := by
  cases c <;> rfl

@[simp] theorem isThisOrSuper_relocate (f : NodeId → NodeId) (c : Content) :
    (c.relocate f).isThisOrSuper = c.isThisOrSuper := by
  cases c <;> rfl

@[simp] theorem hasBody_relocate (f : NodeId → NodeId) (skipArrows : Bool) (c : Content) :
    (c.relocate f).hasBody skipArrows = c.hasBody skipArrows := by
  cases c <;> rfl

/-- Whether there is a rule for the node: statements and patterns have none. -/
def isTypable : Content → Bool
  | variableStatement _ | expressionStatement _ | block _ | returnStatement _ | forLoop ..
  | catchClause .. | variableBinding .. | arrayPattern _ | objectPattern _ | bindingProperty ..
  | bindingElement .. => false
  | _ => true

/-- The children whose types the rule of the node uses as they are. -/
def operands : Content → List Slot
  | taggedTemplate tag _ => [tag]
  | arrayElement expression _ | paren expression | argument expression _
  | yieldExpr expression _ | awaitExpr expression => [expression]
  | propertyAccess target _ _ _ => [target]
  | indexedAccess _ index => [index]
  | call _ _ args | newExpr _ _ args => args
  | unary op operand => if op = .plus ∨ op = .minus then [operand] else []
  | binary op left right =>
    if op = .add ∨ op.family = .logical ∨ op.family = .coalesce then [left, right] else []
  | conditional _ whenTrue whenFalse => [whenTrue, whenFalse]
  | assignment op left right =>
    match op with
    | .assign => [right]
    | .addAssign => [left, right]
    | _ => []
  | comma expressions => [expressions.getLast?.getD none]
  | _ => []

/-- The child whose type the rule of the node resolves before it looks at it: a callee, the receiver
of an index, what a loop or a spread iterates over. -/
def receiver? : Content → Slot
  | call target _ _ => target
  | newExpr callee _ _ => callee
  | indexedAccess target _ => target
  | forLoop (.overElements _) _ expression _ => expression
  | arrayElement expression true => expression
  | _ => none

/-- The child that gives an element its type. -/
def initializer? : Content → Slot
  | field _ _ initializer _ _ | variableDecl _ _ initializer _ | parameter _ _ initializer _ =>
    initializer
  | propertyAssignment _ _ _ value => value
  | _ => none

/-- The children whose shape the rule of the node looks at. -/
def inspected : Content → List Slot
  | objectLiteral properties => properties
  | arrayLiteral elements => elements
  | template parts => parts
  | propertyAccess target _ _ _ => [target]
  | indexedAccess target _ => [target]
  | awaitExpr expression | promisify expression => [expression]
  | _ => []

/-- Whether the shape of a child matters to the rule of a node. -/
def inspects : Content → Content → Bool
  | objectLiteral _, propertyAssignment .. => true
  | arrayLiteral _, arrayElement _ true | arrayLiteral _, arrayPadding => true
  | template _, templateSegment _ => true
  | propertyAccess .., thisExpr | propertyAccess .., superExpr => true
  | indexedAccess .., superExpr => true
  | awaitExpr _, call .. | promisify _, call .. => true
  | _, _ => false

theorem inspects_relocate (f : NodeId → NodeId) (c d : Content) :
    c.inspects (d.relocate f) = c.inspects d := by
  cases c with
  | objectLiteral | template | propertyAccess | indexedAccess | awaitExpr | promisify =>
    cases d <;> rfl
  | arrayLiteral elements =>
    cases d with
    | arrayElement expression isSpread => cases isSpread <;> rfl
    | _ => rfl
  | _ => rfl

/-! ### What is read of a node is part of it -/

theorem mem_slots_of_operands {c : Content} {n : NodeId} (h : some n ∈ c.operands) :
    some n ∈ c.slots := by
  cases c with
  | unary | binary =>
    simp only [operands] at h
    split at h
    · exact h
    · cases h
  | assignment op =>
    cases op with
    | assign => exact List.mem_cons_of_mem _ h
    | addAssign => exact h
    | _ => cases h
  | comma expressions =>
    have hlast : some n = expressions.getLast?.getD none := List.mem_singleton.mp h
    cases hfound : expressions.getLast? with
    | none =>
      rw [hfound] at hlast
      cases hlast
    | some last =>
      rw [hfound, Option.getD_some] at hlast
      exact List.mem_of_getLast? (hlast ▸ hfound)
  | taggedTemplate => exact List.mem_cons.mpr (.inl (List.mem_singleton.mp h))
  | indexedAccess | call | newExpr | conditional => exact List.mem_cons_of_mem _ h
  | arrayElement | paren | argument | yieldExpr | awaitExpr | propertyAccess => exact h
  | _ => cases h

theorem mem_slots_of_receiver? {c : Content} {n : NodeId} (h : c.receiver? = some n) :
    some n ∈ c.slots := by
  cases c with
  | call | newExpr | indexedAccess => exact List.mem_cons.mpr (.inl h.symm)
  | forLoop kind =>
    cases kind with
    | overElements =>
      exact List.mem_append.mpr (.inr (List.mem_cons.mpr (.inl h.symm)))
    | _ => cases h
  | arrayElement expression isSpread =>
    cases isSpread with
    | false => cases h
    | true => exact List.mem_singleton.mpr h.symm
  | _ => cases h

theorem mem_slots_of_initializer? {c : Content} {n : NodeId} (h : c.initializer? = some n) :
    some n ∈ c.slots := by
  cases c with
  | field | variableDecl | parameter | propertyAssignment =>
    exact List.mem_singleton.mpr h.symm
  | _ => cases h

theorem mem_slots_of_inspected {c : Content} {slot : Slot} (h : slot ∈ c.inspected) :
    slot ∈ c.slots := by
  cases c with
  | indexedAccess => exact List.mem_cons.mpr (.inl (List.mem_singleton.mp h))
  | objectLiteral | arrayLiteral | template | propertyAccess | awaitExpr | promisify => exact h
  | _ => cases h

/-- The declarations whose types the rule of the node asks for or mentions. -/
def referents : Content → List DeclId
  | classDecl decl _ _ | interfaceDecl decl _ | enumDecl decl _ | enumLiteral decl | typeAlias decl
  | functionDecl decl _ _ _ _ | method decl _ _ _ _ => decl.toList
  | typeVariable decl => [decl]
  | propertyAssignment decl _ _ _ => decl.toList
  | identifier _ target => target.toList
  | propertyAccess _ _ property _ => property.toList
  | _ => []

end ScriptTyping.Content
