import ScriptTyping.Decimal
import ScriptTyping.Handle
import ScriptTyping.Text.Symbol
import ScriptTyping.Tree.Operator

/-!
# Syntax nodes

The payload of a node.  Names are resolved: a node that refers to a declaration carries its handle,
and an annotation carries the handle of its type.  Children are slots that may be empty and may
dangle.

## Main definitions

* `Slot` — the place of a child.
* `Content` — the payload of a node.
* `Content.kind`, `Content.children`, `Content.declared?` — its kind, children and declaration.
-/

namespace ScriptTyping

/-- The place of a child, which may be empty. -/
abbrev Slot := Option NodeId

/-- Payload of a node. -/
inductive Content where
  | classDecl (decl : Option DeclId) (isExpression : Bool) (members : List Slot)
  | interfaceDecl (decl : Option DeclId) (members : List Slot)
  | enumDecl (decl : Option DeclId) (literals : List Slot)
  | enumLiteral (decl : Option DeclId)
  | typeAlias (decl : Option DeclId)
  /-- Function declaration, function expression or arrow function. -/
  | functionDecl (decl : Option DeclId) (isExpression isArrow : Bool) (params body : List Slot)
  | method (decl : Option DeclId) (isStatic isConstructor : Bool) (params body : List Slot)
  | getter (decl : Option DeclId) (declared : Option TypeId) (isStatic : Bool) (body : List Slot)
  | setter (decl : Option DeclId) (declared : Option TypeId) (isStatic : Bool) (param : Slot)
      (body : List Slot)
  | field (decl : Option DeclId) (declared : Option TypeId) (initializer : Slot)
      (isStatic isImmutable : Bool)
  /-- Inside a binding element the initializer is the element's default. -/
  | variableDecl (decl : Option DeclId) (declared : Option TypeId) (initializer : Slot)
      (isImmutable : Bool)
  | parameter (decl : Option DeclId) (declared : Option TypeId) (initializer : Slot)
      (isVariadic : Bool)
  | typeVariable (decl : DeclId)
  | catchVariable (decl : Option DeclId)
  | variableStatement (declarations : List Slot)
  | expressionStatement (expression : Slot)
  | block (statements : List Slot)
  | returnStatement (expression : Slot)
  | forLoop (kind : ForKind) (declarations : List Slot) (expression body : Slot)
  | catchClause (binder body : Slot)
  /-- A pattern with the value that it takes apart. -/
  | variableBinding (pattern initializer : Slot)
  | arrayPattern (elements : List Slot)
  | objectPattern (properties : List Slot)
  | bindingProperty (name : Symbol) (value : Slot)
  /-- A variable or a nested pattern. -/
  | bindingElement (target : Slot) (isRest : Bool)
  | objectLiteral (properties : List Slot)
  | propertyAssignment (decl : Option DeclId) (name : Symbol) (declared : Option TypeId)
      (value : Slot)
  | propertySpread (expression : Slot)
  | nullLiteral
  | booleanLiteral (value : Bool)
  | numericLiteral (value : Decimal)
  | stringLiteral (value : Symbol)
  | regularExpression
  | template (parts : List Slot)
  | templateSegment (text : Symbol)
  | taggedTemplate (tag quasi : Slot)
  | arrayLiteral (elements : List Slot)
  | arrayElement (expression : Slot) (isSpread : Bool)
  /-- A hole in an array literal. -/
  | arrayPadding
  | identifier (name : Symbol) (target : Option DeclId)
  | thisExpr
  | superExpr
  | paren (expression : Slot)
  | propertyAccess (target : Slot) (name : Symbol) (property : Option DeclId)
      (typeArgs : List TypeId)
  | indexedAccess (target index : Slot)
  | call (target : Slot) (typeArgs : List TypeId) (args : List Slot)
  | argument (expression : Slot) (isSpread : Bool)
  | newExpr (callee : Slot) (typeArgs : List TypeId) (args : List Slot)
  | newTarget
  | yieldExpr (expression : Slot) (isDelegate : Bool)
  | awaitExpr (expression : Slot)
  | promisify (expression : Slot)
  | postfixExpr (op : PostfixOperator) (operand : Slot)
  | unary (op : UnaryOperator) (operand : Slot)
  | binary (op : BinaryOperator) (left right : Slot)
  | conditional (condition whenTrue whenFalse : Slot)
  | assignment (op : AssignmentOperator) (left right : Slot)
  | comma (expressions : List Slot)
  | cast (expression : Slot) (target : Option TypeId)
  | jsxElement (elementClass : Option DeclId) (props : Option TypeId) (children : List Slot)
  | jsxFragment (elementClass : Option DeclId) (children : List Slot)
  deriving DecidableEq, Repr

/-- Kind of a node. -/
inductive NodeKind where
  | classDecl | interfaceDecl | enumDecl | enumLiteral | typeAlias | functionDecl | method
  | getter | setter | field | variableDecl | parameter | typeVariable | catchVariable
  | variableStatement | expressionStatement | block | returnStatement | forLoop | catchClause
  | variableBinding | arrayPattern | objectPattern | bindingProperty | bindingElement
  | objectLiteral | propertyAssignment | propertySpread
  | nullLiteral | booleanLiteral | numericLiteral | stringLiteral | regularExpression
  | template | templateSegment | taggedTemplate | arrayLiteral | arrayElement | arrayPadding
  | identifier | thisExpr | superExpr | paren | propertyAccess | indexedAccess
  | call | argument | newExpr | newTarget | yieldExpr | awaitExpr | promisify
  | postfixExpr | unary | binary | conditional | assignment | comma | cast
  | jsxElement | jsxFragment
  deriving DecidableEq, Repr

/-- The name of a kind, as messages write it. -/
def NodeKind.name : NodeKind → String
  | classDecl => "Class"
  | interfaceDecl => "Interface"
  | enumDecl => "Enum"
  | enumLiteral => "EnumLiteral"
  | typeAlias => "TypeAlias"
  | functionDecl => "Function"
  | method => "Method"
  | getter => "Getter"
  | setter => "Setter"
  | field => "Field"
  | variableDecl => "Variable"
  | parameter => "Parameter"
  | typeVariable => "TypeVariable"
  | catchVariable => "CatchVariable"
  | variableStatement => "VariableStatement"
  | expressionStatement => "ExpressionStatement"
  | block => "Block"
  | returnStatement => "Return"
  | forLoop => "For"
  | catchClause => "Catch"
  | variableBinding => "VariableBinding"
  | arrayPattern => "ArrayBindingPattern"
  | objectPattern => "ObjectBindingPattern"
  | bindingProperty => "BindingProperty"
  | bindingElement => "BindingElement"
  | objectLiteral => "ObjectLiteral"
  | propertyAssignment => "PropertyAssignment"
  | propertySpread => "PropertySpread"
  | nullLiteral => "NullLiteral"
  | booleanLiteral => "BooleanLiteral"
  | numericLiteral => "NumericLiteral"
  | stringLiteral => "StringLiteral"
  | regularExpression => "RegularExpressionLiteral"
  | template => "TemplateLiteral"
  | templateSegment => "TemplateSegment"
  | taggedTemplate => "TaggedTemplate"
  | arrayLiteral => "ArrayLiteral"
  | arrayElement => "ArrayElement"
  | arrayPadding => "ArrayPadding"
  | identifier => "Identifier"
  | thisExpr => "This"
  | superExpr => "Super"
  | paren => "Paren"
  | propertyAccess => "PropertyAccess"
  | indexedAccess => "IndexedAccess"
  | call => "Call"
  | argument => "Argument"
  | newExpr => "New"
  | newTarget => "NewTarget"
  | yieldExpr => "Yield"
  | awaitExpr => "Await"
  | promisify => "Promisify"
  | postfixExpr => "Postfix"
  | unary => "Unary"
  | binary => "Binary"
  | conditional => "Conditional"
  | assignment => "Assignment"
  | comma => "Comma"
  | cast => "Cast"
  | jsxElement => "JsxElement"
  | jsxFragment => "JsxFragment"

namespace Content

/-- The kind of a node. -/
def kind : Content → NodeKind
  | classDecl .. => .classDecl
  | interfaceDecl .. => .interfaceDecl
  | enumDecl .. => .enumDecl
  | enumLiteral .. => .enumLiteral
  | typeAlias .. => .typeAlias
  | functionDecl .. => .functionDecl
  | method .. => .method
  | getter .. => .getter
  | setter .. => .setter
  | field .. => .field
  | variableDecl .. => .variableDecl
  | parameter .. => .parameter
  | typeVariable .. => .typeVariable
  | catchVariable .. => .catchVariable
  | variableStatement .. => .variableStatement
  | expressionStatement .. => .expressionStatement
  | block .. => .block
  | returnStatement .. => .returnStatement
  | forLoop .. => .forLoop
  | catchClause .. => .catchClause
  | variableBinding .. => .variableBinding
  | arrayPattern .. => .arrayPattern
  | objectPattern .. => .objectPattern
  | bindingProperty .. => .bindingProperty
  | bindingElement .. => .bindingElement
  | objectLiteral .. => .objectLiteral
  | propertyAssignment .. => .propertyAssignment
  | propertySpread .. => .propertySpread
  | nullLiteral => .nullLiteral
  | booleanLiteral .. => .booleanLiteral
  | numericLiteral .. => .numericLiteral
  | stringLiteral .. => .stringLiteral
  | regularExpression => .regularExpression
  | template .. => .template
  | templateSegment .. => .templateSegment
  | taggedTemplate .. => .taggedTemplate
  | arrayLiteral .. => .arrayLiteral
  | arrayElement .. => .arrayElement
  | arrayPadding => .arrayPadding
  | identifier .. => .identifier
  | thisExpr => .thisExpr
  | superExpr => .superExpr
  | paren .. => .paren
  | propertyAccess .. => .propertyAccess
  | indexedAccess .. => .indexedAccess
  | call .. => .call
  | argument .. => .argument
  | newExpr .. => .newExpr
  | newTarget => .newTarget
  | yieldExpr .. => .yieldExpr
  | awaitExpr .. => .awaitExpr
  | promisify .. => .promisify
  | postfixExpr .. => .postfixExpr
  | unary .. => .unary
  | binary .. => .binary
  | conditional .. => .conditional
  | assignment .. => .assignment
  | comma .. => .comma
  | cast .. => .cast
  | jsxElement .. => .jsxElement
  | jsxFragment .. => .jsxFragment

/-- All slots in source order, the empty ones included. -/
def slots : Content → List Slot
  | classDecl _ _ members | interfaceDecl _ members => members
  | enumDecl _ literals => literals
  | functionDecl _ _ _ params body | method _ _ _ params body => params ++ body
  | getter _ _ _ body => body
  | setter _ _ _ param body => param :: body
  | field _ _ initializer _ _ | variableDecl _ _ initializer _ | parameter _ _ initializer _ =>
    [initializer]
  | variableStatement declarations => declarations
  | block statements => statements
  | expressionStatement expression | returnStatement expression | propertySpread expression
  | paren expression | arrayElement expression _ | argument expression _ | yieldExpr expression _
  | awaitExpr expression | promisify expression | cast expression _ => [expression]
  | forLoop _ declarations expression body => declarations ++ [expression, body]
  | catchClause binder body => [binder, body]
  | variableBinding pattern initializer => [pattern, initializer]
  | arrayPattern elements | arrayLiteral elements => elements
  | objectPattern properties | objectLiteral properties => properties
  | bindingProperty _ value | propertyAssignment _ _ _ value => [value]
  | bindingElement target _ => [target]
  | template parts => parts
  | taggedTemplate tag quasi => [tag, quasi]
  | propertyAccess target _ _ _ => [target]
  | indexedAccess target index => [target, index]
  | call target _ args => target :: args
  | newExpr callee _ args => callee :: args
  | postfixExpr _ operand | unary _ operand => [operand]
  | binary _ left right | assignment _ left right => [left, right]
  | conditional condition whenTrue whenFalse => [condition, whenTrue, whenFalse]
  | comma expressions => expressions
  | jsxElement _ _ children | jsxFragment _ children => children
  | enumLiteral _ | typeAlias _ | typeVariable _ | catchVariable _ | nullLiteral
  | booleanLiteral _ | numericLiteral _ | stringLiteral _ | regularExpression
  | templateSegment _ | arrayPadding | identifier .. | thisExpr | superExpr | newTarget => []

/-- The children in source order, empty slots skipped. -/
def children (s : Content) : List NodeId := s.slots.filterMap id

/-- The declaration that a node introduces. -/
def declared? : Content → Option DeclId
  | classDecl decl _ _ | interfaceDecl decl _ | enumDecl decl _ | enumLiteral decl | typeAlias decl
  | functionDecl decl _ _ _ _ | method decl _ _ _ _ | getter decl _ _ _ | setter decl _ _ _ _
  | field decl _ _ _ _ | variableDecl decl _ _ _ | parameter decl _ _ _ | catchVariable decl
  | propertyAssignment decl _ _ _ => decl
  | typeVariable decl => some decl
  | _ => none

/-- Whether the node is a member of a class or interface body. -/
def isMember : Content → Bool
  | method .. | getter .. | setter .. | field .. => true
  | _ => false

/-- Whether the node is a static member. -/
def isStaticMember : Content → Bool
  | method _ isStatic _ _ _ | getter _ _ isStatic _ | setter _ _ isStatic _ _
  | field _ _ _ isStatic _ => isStatic
  | _ => false

/-- Whether the node stands in parentheses. -/
def isParen : Content → Bool
  | paren _ => true
  | _ => false

/-- Whether the node is `this` or `super`. -/
def isThisOrSuper : Content → Bool
  | thisExpr | superExpr => true
  | _ => false

/-- Whether the node has a body of its own: a function or a member with code.  Arrow functions are
left out on demand. -/
def hasBody (skipArrows : Bool) : Content → Bool
  | functionDecl _ _ isArrow _ _ => !(skipArrows && isArrow)
  | method .. | getter .. | setter .. => true
  | _ => false

end Content

end ScriptTyping
