import ScriptTyping.Judgment.Aggregate
import ScriptTyping.Judgment.Declared
import ScriptTyping.Judgment.Element
import ScriptTyping.Judgment.Invocation
import ScriptTyping.Judgment.Operator
import ScriptTyping.Judgment.Reference

/-!
# The type judgment

Every node that has a type is judged by exactly one rule, and every rule asks for its parts through
a `Judge`.  `Program.judge` ties the two together with a given room: each nested judgment takes one
unit, and without room the answer is unknown, which counts as a fallback.

## Main definitions

* `Program.nodeType` — the rule of a node.
* `Program.judge` — the rules with a given room.
* `Program.infer` — the type of a node or declaration.
-/

namespace ScriptTyping

namespace Program

variable (p : Program)

/-- The type of a node by its rule.  Statements and patterns have none. -/
def nodeType (judge : Judge) (env : Environment) (n : NodeId) (content : Content) :
    InferM TypeId := do
  match content with
  | .classDecl decl _ _ | .interfaceDecl decl _ | .enumDecl decl _ | .enumLiteral decl
  | .typeAlias decl | .functionDecl decl _ _ _ _ | .method decl _ _ _ _ =>
    match decl with
    | some d => judge.decl env d
    | none => return .unknown
  | .typeVariable decl => TypeM.typeVariable decl
  | .getter _ declared _ _ | .setter _ declared _ _ _ => return declared.getD .any
  | .field _ declared initializer _ isImmutable =>
    p.fieldType judge env declared initializer isImmutable
  | .variableDecl _ declared initializer isImmutable =>
    p.variableType judge env n declared initializer isImmutable
  | .parameter _ declared initializer isVariadic =>
    p.parameterType judge env declared initializer isVariadic
  | .catchVariable _ => return p.untypedElement
  | .objectLiteral properties => p.objectLiteralType judge env properties
  | .propertyAssignment _ _ declared value => p.fieldType judge env declared value false
  | .propertySpread _ => return .unknown
  | .nullLiteral => return .null
  | .booleanLiteral value => TypeM.booleanLiteral value
  | .numericLiteral value => TypeM.numberLiteral value
  | .stringLiteral value => TypeM.stringLiteral value
  | .regularExpression => return p.world.builtins.regexpType
  | .template parts => p.templateType parts
  | .templateSegment _ => return .string
  | .taggedTemplate tag _ => taggedTemplateType judge env tag
  | .arrayLiteral elements => p.arrayLiteralType judge env elements
  | .arrayPadding => return .undefined
  | .identifier _ target => p.identifierType judge env n target
  | .thisExpr => return (← p.thisTypeAt? n).getD .unknown
  | .superExpr => p.superType env n
  | .arrayElement expression _ | .paren expression | .argument expression _ =>
    judge.slot env expression
  | .propertyAccess target name property typeArgs =>
    p.propertyAccessType judge env n target name property typeArgs
  | .indexedAccess target index => p.indexedAccessType judge env target index
  | .call target typeArgs args => p.callType judge env n target typeArgs args
  | .newExpr callee typeArgs args => p.newType judge env callee typeArgs args
  | .newTarget => return .unknown
  | .yieldExpr expression isDelegate => p.yieldType judge env n expression isDelegate
  | .awaitExpr expression => p.awaitType judge env expression
  | .promisify expression => p.promisifiedType judge env expression
  | .postfixExpr .. => return .number
  | .unary op operand => unaryType judge env op operand
  | .binary op left right => p.binaryType judge env op left right
  | .conditional _ whenTrue whenFalse => p.alternativesType judge env whenTrue whenFalse
  | .assignment op left right => p.assignmentType judge env op left right
  | .comma expressions => judge.slot env (expressions.getLast?.getD none)
  | .cast _ target => return target.getD .unknown
  | .jsxElement elementClass props _ => p.elementClassType elementClass props
  | .jsxFragment elementClass _ =>
    match elementClass with
    | some decl => TypeM.simple decl
    | none => return .unknown
  | .variableStatement _ | .expressionStatement _ | .block _ | .returnStatement _ | .forLoop ..
  | .catchClause .. | .variableBinding .. | .arrayPattern _ | .objectPattern _
  | .bindingProperty .. | .bindingElement .. => throw (.noJudgment content.kind n)

/-- The answer without room: unknown, and a fallback. -/
def exhausted : InferM TypeId := do
  InferM.noteFallback
  return .unknown

/-- The judgment with a given room.  A node that does not exist is unknown and needs none. -/
def judge : Nat → Judge
  | 0 =>
    { node := fun _ n => if (p.tree.get? n).isSome then exhausted else pure .unknown
      decl := fun _ _ => exhausted }
  | room + 1 =>
    { node := fun env n =>
        match p.tree.get? n with
        | some node => p.nodeType (judge room) env n node.content
        | none => pure .unknown
      decl := fun env d => p.declarationType (judge room) env d }

end Program

/-- What can be judged. -/
inductive Typable where
  | node (n : NodeId)
  | decl (d : DeclId)
  deriving DecidableEq, Repr

namespace Program

/-- The type of a node or declaration, with the room that the options grant. -/
def infer (p : Program) (env : Environment) : Typable → InferM TypeId
  | .node n => (p.judge p.options.maxInferenceDepth).node env n
  | .decl d => (p.judge p.options.maxInferenceDepth).decl env d

end Program

end ScriptTyping
