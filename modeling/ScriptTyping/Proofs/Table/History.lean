import Mathlib.Logic.Relation
import ScriptTyping.Proofs.Lattice.AnyRelation
import ScriptTyping.Proofs.Stability.Members
import ScriptTyping.Proofs.Table.Construction
import ScriptTyping.Proofs.Table.Recall

/-!
# Histories of the type table

Every recursion over types that has no guard of its own (flattening, widening, upper bounds,
rendering) ends because a row mentions earlier rows only.  The table is filled by calls that store
types and by operations that make such calls on the way; as long as every call and every operation
is handed types of the table, no history of them can break that order.

## Main definitions

* `TypeTable.Step` — one call or one operation that stores types.

## Main results

* `TypeTable.Step.growsTo` — one step only adds descending rows.
* `TypeTable.representation` — what the table looks like after any calls, and after any history.
-/

namespace ScriptTyping.TypeTable

/-- A call that stores a type or an operation over types has led from one table to the next.  Its
arguments, and the types recorded in the declarations and in the environment, belong to the table
that it starts from. -/
inductive Step : TypeTable → TypeTable → Prop
  | construct {T T' : TypeTable} {t : TypeId} (c : Construction) (hc : T.HasAll c.components)
      (h : c.run T = .ok t T') : Step T T'
  | internSymbol (T : TypeTable) (text : String) : Step T (T.internSymbol text).2
  | instantiate {T T' : TypeTable} {t u : TypeId} {s : Substitution} (hs : s.Within T)
      (ht : T.Has t) (h : s.instantiate t T = .ok u T') : Step T T'
  | substitute {T T' : TypeTable} {t u : TypeId} {env : Environment} (henv : env.Within T)
      (ht : T.Has t) (h : env.substitute t T = .ok u T') : Step T T'
  | directSupertypes {T T' : TypeTable} {t : TypeId} {above : List TypeId} {w : World}
      (hw : w.Within T) (ht : T.Has t) (h : w.directSupertypes t T = .ok above T') : Step T T'
  | literalBase {T T' : TypeTable} {u : TypeId} {value : LiteralValue}
      (h : literalBase value T = .ok u T') : Step T T'
  | simplify {T T' : TypeTable} {t : TypeId} {short : TypeId × List Redundancy} {w : World}
      {env : Environment} {rel : TypeRelation} (hrel : rel.Keeps w env) (hw : w.Within T)
      (henv : env.Within T) (ht : T.Has t) (h : simplify rel w env t T = .ok short T') : Step T T'
  | join {T T' : TypeTable} {types : List TypeId} {joined : TypeId × List Redundancy} {w : World}
      {env : Environment} {rel : TypeRelation} (hrel : rel.Keeps w env) (hw : w.Within T)
      (henv : env.Within T) (htypes : T.HasAll types) (h : join rel w env types T = .ok joined T') :
      Step T T'
  | resolveConstructible {T T' : TypeTable} {t : TypeId} {found : Option Newable} {w : World}
      {env : Environment} (hw : w.Within T) (henv : env.Within T) (ht : T.Has t)
      (h : w.resolveConstructible? env t T = .ok found T') : Step T T'

variable {T T' : TypeTable}

/-- One step keeps the table well-formed, only extends it, and adds descending rows only. -/
theorem Step.growsTo (hstep : Step T T') (hT : T.WellFormed) : T.GrowsTo T' := by
  cases hstep with
  | construct c hc h => exact Construction.growsTo_run hT hc h
  | internSymbol text => exact growsTo_internSymbol hT text
  | instantiate hs ht h => exact (Substitution.stable_instantiate hT hs ht _ _ h).1
  | substitute henv ht h => exact (Environment.stable_substitute hT henv ht _ _ h).1
  | directSupertypes hw ht h => exact (World.stable_directSupertypes hT hw ht _ _ h).1
  | literalBase h => exact (World.stable_literalBase hT _ _ _ h).1
  | simplify hrel hw henv ht h => exact (hrel.simplify ⟨hT, hw, henv⟩ ht _ _ h).1
  | join hrel hw henv htypes h => exact (hrel.join ⟨hT, hw, henv⟩ htypes _ _ h).1
  | resolveConstructible hw henv ht h =>
    exact (World.stable_resolveConstructible? ⟨hT, hw, henv⟩ ht _ _ h).1

/-- A history of steps does what each of them does. -/
theorem growsTo_of_history (h : Relation.ReflTransGen Step T T') (hT : T.WellFormed) :
    T.GrowsTo T' := by
  induction h with
  | refl => exact .refl hT
  | tail _ hstep ih => exact ih.trans (hstep.growsTo ih.wellFormed)

/-- The representation of types.  After any calls from the initial table, whatever components they
were given, the rows outside the reserved range and the intrinsic types have their own handles, each
call has returned a handle that reads as the layer it was given and is no reserved one, two calls
have returned one handle exactly when their data are equal, and further calls change no row.  A step
that is handed types of the table keeps every row descending, and so does every history of them. -/
theorem representation :
    (∀ calls : List Construction, ∃ ids T, calls.mapM Construction.run initial = .ok ids T ∧
      (∀ t data, TypeId.firstDynamic ≤ t.index → T.lookup? t = some data →
        T.handles[data]? = some t) ∧
      (∀ row ∈ intrinsics, T.lookup? row.1 = some row.2 ∧ T.handles[row.2]? = some row.1) ∧
      List.Forall₂ (fun c t => TypeId.firstDynamic ≤ t.index ∧
        T.lookup? t = some (c.data T).normalized) calls ids ∧
      (∀ text, Construction.textLiteral text ∈ calls → T.text (T.internSymbol text).1 = text) ∧
      (∀ p ∈ calls.zip ids, ∀ q ∈ calls.zip ids,
        p.2 = q.2 ↔ (p.1.data T).SameValue (q.1.data T)) ∧
      ∀ more : List Construction, ∃ ids' T', more.mapM Construction.run T = .ok ids' T' ∧
        ∀ t data, T.lookup? t = some data → T'.lookup? t = some data) ∧
    (∀ T T', T.WellFormed → T.Descending → Step T T' → T'.WellFormed ∧ T'.Descending) ∧
    ∀ T, Relation.ReflTransGen Step initial T → T.WellFormed ∧ T.Descending := by
  refine ⟨fun calls => ?_, fun T T' hT hdesc hstep => ?_, fun T hhistory => ?_⟩
  · obtain ⟨ids, T, hrun, hT, -, hknown⟩ := Construction.runs_known calls indexed_initial
    have hpairs : ∀ p ∈ calls.zip ids, p.1.Known T p.2 := fun p hp =>
      List.forall₂_iff_zip.mp hknown |>.2 hp
    refine ⟨ids, T, hrun, hT.stored, hT.intrinsic, hknown.imp fun _ _ h => ⟨h.fresh, h.lookup?⟩,
      fun text htext => ?_, fun p hp q hq => (hpairs p hp).eq_iff hT (hpairs q hq),
      fun more => ?_⟩
    · obtain ⟨t, -, h⟩ := TypeM.exists_of_mem_of_forall₂ hknown htext
      exact h.text hT
    · obtain ⟨ids', T', hrun', -, hle, -⟩ := Construction.runs_known more hT
      exact ⟨ids', T', hrun', fun t data ht => lookup?_of_le hle ht⟩
  · have hg := hstep.growsTo hT
    exact ⟨hg.wellFormed, hdesc.growsTo hg⟩
  · have hg := growsTo_of_history hhistory wellFormed_initial
    exact ⟨hg.wellFormed, descending_initial.growsTo hg⟩

/-- Both forms of the decimal have one handle; and a history that stores a union and then asks for
the short form of `number` ends in a table with one more row. -/
theorem representation_decimals :
    (∃ t T, [Construction.numberLiteral ⟨false, 150, 2⟩, .numberLiteral ⟨false, 15, 1⟩].mapM
      Construction.run initial = .ok [t, t] T) ∧
    ∃ T, Relation.ReflTransGen Step initial T ∧ T.rows.size = 17 ∧ T.WellFormed ∧
      T.Descending := by
  constructor
  · obtain ⟨ids, T, hrun, -, -, hall, -, heq, -⟩ := representation.1
      [.numberLiteral ⟨false, 150, 2⟩, .numberLiteral ⟨false, 15, 1⟩]
    cases hall with
    | @cons _ t _ ids ht hall =>
      cases hall with
      | @cons _ u _ ids hu hall =>
        cases hall
        have hvalue : Decimal.SameValue ⟨false, 150, 2⟩ ⟨false, 15, 1⟩ := by decide
        obtain rfl : t = u := (heq (.numberLiteral ⟨false, 150, 2⟩, t) (by simp)
          (.numberLiteral ⟨false, 15, 1⟩, u) (by simp)).mpr hvalue
        exact ⟨t, T, hrun⟩
  · have hnew : initial.handles[TypeData.union [.number, .string]]? = none :=
      handles_initial_of_ne (by decide)
    have hrun : (Construction.union [.number, .string]).run initial =
        .ok ⟨16⟩ (initial.store (.union [.number, .string])) := by
      rw [Construction.run_eq]
      exact congrArg (fun p => EStateM.Result.ok p.1 p.2) (intern_of_new hnew)
    have hstored : Step initial (initial.store (.union [.number, .string])) :=
      .construct (.union [.number, .string]) (by decide) hrun
    have hwithin : (default : World).Within (initial.store (.union [.number, .string])) :=
      World.within_of_entries (by decide) (by decide)
    have hshort : Step (initial.store (.union [.number, .string]))
        (initial.store (.union [.number, .string])) :=
      .simplify ((default : World).keeps_isSubtype .empty) hwithin Environment.within_empty
        (t := .number) (by decide) rfl
    have hhistory := (Relation.ReflTransGen.single hstored).tail hshort
    exact ⟨_, hhistory, rfl, representation.2.2 _ hhistory⟩

end ScriptTyping.TypeTable
