import ScriptTyping.LogFormat
import ScriptTyping.Session
import ScriptTyping.Vocabulary
import ScriptTyping.Proofs.Table.Stable
import ScriptTyping.Proofs.Substitution.Rebuild
import ScriptTyping.Proofs.Stability.Substitution
import ScriptTyping.Proofs.Stability.Hierarchy
import ScriptTyping.Proofs.Subtyping.Plan
import ScriptTyping.Proofs.Subtyping.Check
import ScriptTyping.Proofs.Subtyping.Coinduction
import ScriptTyping.Proofs.Table.Total
import ScriptTyping.Proofs.Termination.Hierarchy
import ScriptTyping.Proofs.Termination.Subtyping
import ScriptTyping.Proofs.Environment.Congruence
import ScriptTyping.Proofs.Judgment.Comparison
import ScriptTyping.Proofs.Judgment.MemoCells
import ScriptTyping.Proofs.Judgment.Rules.Expressions
import ScriptTyping.Proofs.Judgment.Rules.Members
import ScriptTyping.Proofs.Judgment.Rules.Elements
import ScriptTyping.Proofs.Judgment.Rules.Invocations
import ScriptTyping.Proofs.Judgment.Rules
import ScriptTyping.Proofs.Judgment.GuardIndependence
import ScriptTyping.Proofs.Stability.Lattice
import ScriptTyping.Proofs.Stability.Join
import ScriptTyping.Proofs.Stability.Members
import ScriptTyping.Proofs.Stability.Judgment
import ScriptTyping.Proofs.Table.Recall
import ScriptTyping.Proofs.Lattice.Simplification
import ScriptTyping.Proofs.Lattice.JoinArguments
import ScriptTyping.Proofs.Judgment.MemoTransparency
import ScriptTyping.Proofs.Table.Yields
import ScriptTyping.Proofs.Hierarchy.Nominal
import ScriptTyping.Proofs.Subtyping.Nominal
import ScriptTyping.Proofs.Lattice.SharedSupertypes
import ScriptTyping.Proofs.Lattice.Expansion
import ScriptTyping.Proofs.Lattice.NormalForm
import ScriptTyping.Proofs.Lattice.Coverage
import ScriptTyping.Proofs.Subtyping.Unfolding
import ScriptTyping.Proofs.Subtyping.Membership
import ScriptTyping.Proofs.Lattice.LeastUpperBound
import ScriptTyping.Proofs.Subtyping.Anonymous
import ScriptTyping.Proofs.Subtyping.Regular
import ScriptTyping.Proofs.Subtyping.StrictOrder
import ScriptTyping.Proofs.Table.Agreement
import ScriptTyping.Proofs.Agreement.Hierarchy
import ScriptTyping.Proofs.Agreement.Lattice
import ScriptTyping.Proofs.Agreement.Judgment
import ScriptTyping.Proofs.Tree.Reading
import ScriptTyping.Proofs.Judgment.Correspondence
import ScriptTyping.Proofs.Judgment.Traversal.Expressions
import ScriptTyping.Proofs.Judgment.Traversal.Members
import ScriptTyping.Proofs.Judgment.Traversal.Elements
import ScriptTyping.Proofs.Judgment.Traversal.Invocations
import ScriptTyping.Proofs.Judgment.Traversal
import ScriptTyping.Proofs.Judgment.Inquiry
import ScriptTyping.Proofs.Judgment.Frame
import ScriptTyping.Proofs.Lattice.Indexing
import ScriptTyping.Proofs.Judgment.Safety
import ScriptTyping.Proofs.Tree.Ascent
import ScriptTyping.Proofs.Tree.Parentheses
import ScriptTyping.Proofs.Judgment.Parentheses
import ScriptTyping.Proofs.Hierarchy.Abbreviation
import ScriptTyping.Proofs.Judgment.Aliases
import ScriptTyping.Proofs.Decimal.NormalForm
import ScriptTyping.Proofs.Lattice.AnyRelation
import ScriptTyping.Proofs.Table.Construction
import ScriptTyping.Proofs.Table.History
import ScriptTyping.Proofs.Substitution.Layer
import ScriptTyping.Proofs.Hierarchy.Closure
import ScriptTyping.Proofs.Environment.Receiver
import ScriptTyping.Proofs.Substitution.Simultaneous
import ScriptTyping.Proofs.Hierarchy.Inheritance
import ScriptTyping.Proofs.Termination.Circle
import ScriptTyping.Proofs.Termination.Expansion
import ScriptTyping.Proofs.Termination.Resolution
import ScriptTyping.Proofs.Substitution.Composition
import ScriptTyping.Proofs.Hierarchy.Instantiation
import ScriptTyping.Proofs.Lattice.Incremental
import ScriptTyping.Proofs.Lattice.Exclusion
import ScriptTyping.Proofs.Tree.Adoption
import ScriptTyping.Proofs.Tree.PatternPath
import ScriptTyping.Proofs.Constant.Derivation
import ScriptTyping.Proofs.Judgment.Destructuring
import ScriptTyping.Proofs.Declarations.Store
import ScriptTyping.Proofs.Declarations.Installation
import ScriptTyping.Proofs.Judgment.ArrayElements
import ScriptTyping.Proofs.Judgment.Recursion
import ScriptTyping.Proofs.Judgment.Repetition
import ScriptTyping.Proofs.Judgment.ConstantKeys
import ScriptTyping.Proofs.Table.UpperBound
import ScriptTyping.Proofs.Subtyping.Primitives
import ScriptTyping.Proofs.Lattice.Widening
import ScriptTyping.Proofs.Lattice.DeclaredTypes
import ScriptTyping.Proofs.Judgment.Addition
import ScriptTyping.Proofs.Judgment.Awaiting
import ScriptTyping.Proofs.Tree.Promisification
import ScriptTyping.Proofs.Judgment.Promisification
import ScriptTyping.Proofs.Hierarchy.Distance
import ScriptTyping.Proofs.Environment.Reference
import ScriptTyping.Proofs.Decimal.Value
import ScriptTyping.Proofs.Decimal.Text
import ScriptTyping.Proofs.Judgment.Sign
import ScriptTyping.Proofs.Text.Template
import ScriptTyping.Proofs.Lattice.Notices
import ScriptTyping.Proofs.Tree.Loop
import ScriptTyping.Proofs.Tree.ParentLinks
import ScriptTyping.Proofs.Recursion.Guard
import ScriptTyping.Proofs.Tree.Preorder
