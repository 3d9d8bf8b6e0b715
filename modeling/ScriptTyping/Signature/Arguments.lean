import ScriptTyping.Lattice.Join
import ScriptTyping.Lattice.Widening

/-!
# Type arguments of calls

Written type arguments are paired with the type parameters of a signature.  Without them, each type
parameter collects candidates by matching the parameter types against the argument types, and takes
the join of the widened candidates, or its bound if there is none.

## Main definitions

* `TypeArguments.collect` — the candidates that one argument yields.
* `TypeArguments.infer` — the substitution for a call.
-/

namespace ScriptTyping.TypeArguments

/-- Candidates in order of discovery, each for a type variable. -/
abbrev Candidates := List (DeclId × TypeId)

/-- How deep parameter and argument types are matched. -/
def matchDepth : Nat := 16

variable (w : World)

/-- Matches a parameter type against an argument type, `room` levels deep. -/
def collect : Nat → TypeId → TypeId → TypeM Candidates
  | 0, _, _ => pure []
  | room + 1, param, arg => do
    if param = arg || arg.isUnknown then return []
    match ← TypeM.lookup param with
    | .typeVariable decl => return [(decl, arg)]
    | .nominal decl args =>
      if args.isEmpty then return []
      match ← w.findInstantiation? arg decl with
      | none => return []
      | some (_, argArgs) =>
        let found ← (args.zip argArgs).mapM fun (p, a) => do
          collect room p (← TypeM.upperBound a)
        return found.flatten
    | .union members =>
      let found ← members.mapM fun member => collect room member arg
      return found.flatten
    | .function signature =>
      match (← TypeM.lookup arg).signature? with
      | none => return []
      | some argSignature =>
        let found ← (signature.params.zip argSignature.params).mapM fun (p, a) =>
          collect room p.type a.type
        let result ← collect room signature.returnType argSignature.returnType
        return found.flatten ++ result
    | .structural members =>
      match ← TypeM.lookup arg with
      | .structural argMembers =>
        let found ← members.mapM fun member =>
          match findProperty? argMembers member.name with
          | some argMember => collect room member.type argMember.type
          | none => pure []
        return found.flatten
      | _ => return []
    | .metaType inner _ =>
      match ← TypeM.lookup arg with
      | .metaType argInner _ => collect room inner argInner
      | _ => return []
    | .wildcard (some bound) _ => collect room bound arg
    | _ => return []

/-- The parameter types that the arguments meet, from the first argument on: the last parameter
takes all further arguments if it is a rest parameter, and its elements are what it takes. -/
def parameterTypes (table : TypeTable) : List Parameter → List TypeId → List (TypeId × TypeId)
  | _, [] => []
  | [], _ :: _ => []
  | param :: params, arg :: args =>
    let expected :=
      if param.rest then (w.arrayElement? (table.lookup param.type)).getD param.type
      else param.type
    let further := if params.isEmpty && param.rest then [param] else params
    (expected, arg) :: parameterTypes table further args
termination_by structural _ args => args

variable (rel : TypeRelation) (env : Environment)

/-- The argument of one type parameter, given its candidates. -/
def choose (param : DeclId) (candidates : List TypeId) : TypeM TypeId := do
  let widened ← candidates.mapM (widenLiterals rel w env)
  if widened.isEmpty then return w.declarations.variableBound param
  joinTypes rel w env widened

/-- The substitution for the open type parameters of a signature at a call with the given written
type arguments and argument types. -/
def infer (signature : Signature) (written argTypes : List TypeId) : TypeM Substitution := do
  if signature.typeParams.isEmpty then return {}
  if !written.isEmpty then return .ofArgs signature.typeParams written
  let matched := parameterTypes w (← get) signature.params argTypes
  let found ← matched.mapM fun (expected, arg) => collect w matchDepth expected arg
  let candidates := found.flatten
  signature.typeParams.eraseDups.foldlM (fun s param => do
    let own := (candidates.filter fun entry => entry.1 == param).map (·.2)
    return s.insert param (← choose w rel env param own)) {}

end ScriptTyping.TypeArguments
