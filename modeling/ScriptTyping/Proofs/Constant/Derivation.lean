import Mathlib.Data.List.Forall2
import Mathlib.Data.List.Perm.Subperm
import Mathlib.Logic.Relation
import ScriptTyping.Constant
import ScriptTyping.Proofs.Tree.Adoption

/-!
# Derivations of constants

The value of a constant expression has a derivation from the values of its parts, where a reference
takes the value of the initializer that it leads to.  The rules know nothing of declarations that
are being evaluated.  The evaluation keeps a list of them, so that it ends on references that come
back to themselves, and this file shows that the list does nothing else.

A derivation is finite, so an expression with a value is not made from itself, and a derivation
never comes back to a declaration on its own path.  The evaluation ends because between two
references the nodes descend, and every reference on a path leads to another declaration.

## Main definitions

* `Constant.Evaluates` — the rules.
* `Constant.Needs` — what the value of an expression is made from.

## Main results

* `Constant.evaluates_of_evalFrom` — whatever evaluation finds has a derivation.
* `Constant.evalFrom_of_evaluates` — evaluation finds what has a derivation.
* `Constant.exists_run_evalFrom` — evaluation comes to an end.
* `Constant.evaluate_decides` — evaluation is the relation of the rules.
-/

namespace ScriptTyping.Constant

variable (c : Context)

/-- The declaration is a constant variable or field with the given initializer. -/
def Initializes (d : DeclId) (initializer : Slot) : Prop :=
  ∃ info n, c.declarations.get? d = some info ∧ info.isConst = true ∧
    (info.kind = .var ∨ info.kind = .field) ∧ info.node = some n ∧
    ((∃ decl declared isImmutable,
        c.tree.content? n = some (.variableDecl decl declared initializer isImmutable)) ∨
      ∃ decl declared isStatic isImmutable,
        c.tree.content? n = some (.field decl declared initializer isStatic isImmutable))

/-- The value of an expression by the values of its parts. -/
inductive Evaluates : Slot → ConstValue → Prop
  | number {slot value} (h : c.tree.contentAt? slot = some (.numericLiteral value)) :
      Evaluates slot (.number value)
  | string {slot value} (h : c.tree.contentAt? slot = some (.stringLiteral value)) :
      Evaluates slot (.string (c.symbols.resolve value))
  | boolean {slot value} (h : c.tree.contentAt? slot = some (.booleanLiteral value)) :
      Evaluates slot (.boolean value)
  | template {slot parts} {texts : List Symbol}
      (h : c.tree.contentAt? slot = some (.template parts))
      (hparts : List.Forall₂
        (fun part text => c.tree.contentAt? part = some (.templateSegment text)) parts texts) :
      Evaluates slot (.string (String.join (texts.map c.symbols.resolve)))
  | paren {slot expression value} (h : c.tree.contentAt? slot = some (.paren expression))
      (hvalue : Evaluates expression value) : Evaluates slot value
  | plus {slot operand n} (h : c.tree.contentAt? slot = some (.unary .plus operand))
      (hoperand : Evaluates operand (.number n)) : Evaluates slot (.number n)
  | minus {slot operand n} (h : c.tree.contentAt? slot = some (.unary .minus operand))
      (hoperand : Evaluates operand (.number n)) : Evaluates slot (.number n.neg)
  | add {slot left right a b n} (h : c.tree.contentAt? slot = some (.binary .add left right))
      (hleft : Evaluates left (.number a)) (hright : Evaluates right (.number b))
      (hsum : a.checkedAdd b = some n) : Evaluates slot (.number n)
  | concat {slot left right a b} (h : c.tree.contentAt? slot = some (.binary .add left right))
      (hleft : Evaluates left a) (hright : Evaluates right b)
      (hstring : (∃ text, a = .string text) ∨ ∃ text, b = .string text) :
      Evaluates slot (.string (a.propertyName ++ b.propertyName))
  | reference {slot name target initializer value}
      (h : c.tree.contentAt? slot = some (.identifier name (some target)))
      (hdecl : Initializes c (c.declarations.canonical target) initializer)
      (hvalue : Evaluates initializer value) : Evaluates slot value

/-- The expressions that the value of an expression is made from. -/
inductive Needs : Slot → Slot → Prop
  | paren {slot expression} (h : c.tree.contentAt? slot = some (.paren expression)) :
      Needs slot expression
  | operand {slot op operand} (h : c.tree.contentAt? slot = some (.unary op operand)) :
      Needs slot operand
  | left {slot op left right} (h : c.tree.contentAt? slot = some (.binary op left right)) :
      Needs slot left
  | right {slot op left right} (h : c.tree.contentAt? slot = some (.binary op left right)) :
      Needs slot right
  | reference {slot name target initializer}
      (h : c.tree.contentAt? slot = some (.identifier name (some target)))
      (hdecl : Initializes c (c.declarations.canonical target) initializer) :
      Needs slot initializer

variable {c} {fuel : Nat} {visiting : List DeclId} {slot : Slot} {v : ConstValue}

theorem initializer?_eq_some_iff {d : DeclId} {initializer : Slot} :
    initializer? c d = some initializer ↔ Initializes c d initializer := by
  constructor
  · intro h
    obtain ⟨info, hinfo, h⟩ := Option.bind_eq_some_iff.mp h
    split at h
    · cases h
    rename_i hallowed
    simp only [Bool.or_eq_true, Bool.not_eq_true', Bool.or_eq_false_iff, beq_eq_false_iff_ne,
      not_or, Bool.not_eq_false, not_and_or, ne_eq, not_not] at hallowed
    obtain ⟨n, hn, h⟩ := Option.bind_eq_some_iff.mp h
    obtain ⟨content, hcontent, h⟩ := Option.bind_eq_some_iff.mp h
    refine ⟨info, n, hinfo, hallowed.1, hallowed.2, hn, ?_⟩
    cases content with
    | variableDecl decl declared initializer' isImmutable =>
      cases h
      exact .inl ⟨_, _, _, hcontent⟩
    | field decl declared initializer' isStatic isImmutable =>
      cases h
      exact .inr ⟨_, _, _, _, hcontent⟩
    | _ => cases h
  · rintro ⟨info, n, hinfo, hconst, hkind, hn, hcontent⟩
    have hallowed : (!info.isConst || !(info.kind == .var || info.kind == .field)) = false := by
      rcases hkind with hkind | hkind <;> rw [hconst, hkind] <;> rfl
    rcases hcontent with ⟨_, _, _, hcontent⟩ | ⟨_, _, _, _, hcontent⟩ <;>
      simp only [initializer?, hinfo, Option.bind_eq_bind, Option.bind_some, hallowed, hn,
        hcontent] <;>
      rfl

/-! ### Steps of the evaluation -/

/-- A sequence of evaluations returns if its first part has no value, or if its second part
returns. -/
theorem run_bind_eq_ok {α β : Type} {x : ConstM α} {f : α → ConstM β} {r : Option β} :
    (x >>= f).run = .ok r ↔
      x.run = .ok none ∧ r = none ∨ ∃ a, x.run = .ok (some a) ∧ (f a).run = .ok r := by
  have hbind : (x >>= f).run = x.run.bind fun a? => a?.elim (.ok none) fun a => (f a).run := by
    rw [OptionT.run_bind]
    rfl
  rw [hbind]
  cases hx : x.run with
  | error e => simp [Except.bind]
  | ok a? => cases a? <;> simp [Except.bind, eq_comm]

theorem evalFrom_reference {name : Symbol} {target : DeclId}
    (h : c.tree.contentAt? slot = some (.identifier name (some target))) :
    evalFrom c (fuel + 1) visiting slot =
      if c.declarations.canonical target ∈ visiting then failure
      else OptionT.mk (pure (initializer? c (c.declarations.canonical target))) >>=
        evalFrom c fuel (c.declarations.canonical target :: visiting) := by
  rw [evalFrom, h]
  by_cases hmem : c.declarations.canonical target ∈ visiting
  · simp only [List.contains_iff_mem.mpr hmem, if_pos hmem, if_true]
    rfl
  · simp only [if_neg hmem, if_neg (mt List.contains_iff_mem.mp hmem)]

theorem mapM_segment?_eq_some {parts : List Slot} {texts : List String} :
    parts.mapM (segment? c) = some texts ↔ ∃ symbols : List Symbol,
      List.Forall₂ (fun part s => c.tree.contentAt? part = some (.templateSegment s))
        parts symbols ∧
      texts = symbols.map c.symbols.resolve := by
  induction parts generalizing texts with
  | nil => simp [eq_comm]
  | cons part parts ih =>
    have hsegment (text : String) : segment? c part = some text ↔
        ∃ s, c.tree.contentAt? part = some (.templateSegment s) ∧ c.symbols.resolve s = text := by
      rw [segment?]
      split <;> simp_all
    simp only [List.mapM_cons, Option.bind_eq_bind, Option.bind_eq_some_iff, hsegment, ih,
      Option.pure_def, Option.some.injEq, List.forall₂_cons_left_iff]
    constructor
    · rintro ⟨_, ⟨s, hs, rfl⟩, _, ⟨symbols, hsymbols, rfl⟩, rfl⟩
      exact ⟨s :: symbols, ⟨s, symbols, hs, hsymbols, rfl⟩, rfl⟩
    · rintro ⟨_, ⟨s, symbols, hs, hsymbols, rfl⟩, rfl⟩
      exact ⟨_, ⟨s, hs, rfl⟩, _, ⟨symbols, hsymbols, rfl⟩, rfl⟩

theorem sign_eq_some_iff {op : UnaryOperator} {value : ConstValue} :
    sign op value = some v ↔ ∃ n, value = .number n ∧
      (op = .plus ∧ v = .number n ∨ op = .minus ∧ v = .number n.neg) := by
  cases op <;> cases value <;> simp [sign, eq_comm]

theorem sum_eq_some_iff {a b : ConstValue} : sum a b = some v ↔
    (∃ m n k, a = .number m ∧ b = .number n ∧ m.checkedAdd n = some k ∧ v = .number k) ∨
      ((∃ text, a = .string text) ∨ ∃ text, b = .string text) ∧
        v = .string (a.propertyName ++ b.propertyName) := by
  cases a <;> cases b <;> simp [sum, @eq_comm _ v]

/-! ### Soundness -/

/-- Whatever evaluation returns has a derivation. -/
theorem evaluates_of_evalFrom (h : (evalFrom c fuel visiting slot).run = .ok (some v)) :
    Evaluates c slot v := by
  induction fuel generalizing visiting slot v with
  | zero => cases h
  | succ fuel ih =>
    have hunfold := h
    rw [evalFrom] at hunfold
    split at hunfold
    · cases hunfold
      exact .number ‹_›
    · cases hunfold
      exact .string ‹_›
    · cases hunfold
      exact .boolean ‹_›
    · rcases run_bind_eq_ok.mp hunfold with ⟨-, hnone⟩ | ⟨texts, htexts, hv⟩
      · cases hnone
      obtain ⟨symbols, hsymbols, rfl⟩ := mapM_segment?_eq_some.mp (Except.ok.inj htexts)
      cases hv
      exact .template ‹_› hsymbols
    · exact .paren ‹_› (ih hunfold)
    · split at hunfold
      · rcases run_bind_eq_ok.mp hunfold with ⟨-, hnone⟩ | ⟨value, hvalue, hv⟩
        · cases hnone
        obtain ⟨n, rfl, ⟨rfl, rfl⟩ | ⟨rfl, rfl⟩⟩ := sign_eq_some_iff.mp (Except.ok.inj hv)
        · exact .plus ‹_› (ih hvalue)
        · exact .minus ‹_› (ih hvalue)
      · cases hunfold
    · rcases run_bind_eq_ok.mp hunfold with ⟨-, hnone⟩ | ⟨a, ha, hunfold⟩
      · cases hnone
      rcases run_bind_eq_ok.mp hunfold with ⟨-, hnone⟩ | ⟨b, hb, hv⟩
      · cases hnone
      obtain ⟨m, n, k, rfl, rfl, hk, rfl⟩ | ⟨hstring, rfl⟩ :=
        sum_eq_some_iff.mp (Except.ok.inj hv)
      · exact .add ‹_› (ih ha) (ih hb) hk
      · exact .concat ‹_› (ih ha) (ih hb) hstring
    · rename_i hcontent
      rw [evalFrom_reference hcontent] at h
      split at h
      · cases h
      rcases run_bind_eq_ok.mp h with ⟨-, hnone⟩ | ⟨initializer, hinitializer, hvalue⟩
      · cases hnone
      exact .reference hcontent (initializer?_eq_some_iff.mp (Except.ok.inj hinitializer))
        (ih hvalue)
    · cases hunfold

/-! ### Completeness -/

theorem Initializes.unique {d : DeclId} {i j : Slot} (hi : Initializes c d i)
    (hj : Initializes c d j) : i = j :=
  Option.some.inj ((initializer?_eq_some_iff.mpr hi).symm.trans (initializer?_eq_some_iff.mpr hj))

/-- An expression with a value is made in finitely many steps. -/
theorem Evaluates.acc (h : Evaluates c slot v) :
    Acc (fun part whole => Needs c whole part) slot := by
  induction h with
  | number hc | string hc | boolean hc | template hc =>
    refine .intro _ fun part hneeds => ?_
    cases hneeds <;> cases hc.symm.trans ‹_›
  | paren hc _ ih | plus hc _ ih | minus hc _ ih =>
    refine .intro _ fun part hneeds => ?_
    cases hneeds <;> cases hc.symm.trans ‹_›
    exact ih
  | add hc _ _ _ ihleft ihright | concat hc _ _ _ ihleft ihright =>
    refine .intro _ fun part hneeds => ?_
    cases hneeds <;> cases hc.symm.trans ‹_›
    · exact ihleft
    · exact ihright
  | reference hc hdecl _ ih =>
    refine .intro _ fun part hneeds => ?_
    cases hneeds with
    | reference hc' hdecl' =>
      cases hc.symm.trans hc'
      exact hdecl.unique hdecl' ▸ ih
    | _ hc' => cases hc.symm.trans hc'

/-- Nothing that an expression with a value is made from is made from itself. -/
theorem Evaluates.not_needs_circle (h : Evaluates c slot v) {part : Slot}
    (hpart : Relation.ReflTransGen (Needs c) slot part) :
    ¬ Relation.TransGen (Needs c) part part := by
  have hacc := h.acc
  clear h
  induction hacc with
  | intro slot _ ih =>
    rcases hpart.cases_head with rfl | ⟨next, hneeds, hrest⟩
    · intro hcircle
      obtain ⟨next, hneeds, hback⟩ := Relation.TransGen.head'_iff.mp hcircle
      exact ih next hneeds hback hcircle
    · exact ih next hneeds hrest

/-- An evaluation that comes to an end finds the value of every derivation, as long as the way leads
through the initializers that are being evaluated. -/
theorem evalFrom_of_evaluates (h : Evaluates c slot v) {r : Option ConstValue}
    (hrun : (evalFrom c fuel visiting slot).run = .ok r)
    (hpath : ∀ d ∈ visiting, ∀ i, Initializes c d i → Relation.ReflTransGen (Needs c) i slot) :
    r = some v := by
  induction fuel generalizing visiting slot v r with
  | zero => cases hrun
  | succ fuel ih =>
    have hpart {part : Slot} {w : ConstValue} {r : Option ConstValue} (hneeds : Needs c slot part)
        (hw : Evaluates c part w) (hrun : (evalFrom c fuel visiting part).run = .ok r) :
        r = some w :=
      ih hw hrun fun d hd i hi => (hpath d hd i hi).tail hneeds
    cases h with
    | number hc | string hc | boolean hc =>
      rw [evalFrom, hc] at hrun
      cases hrun
      rfl
    | template hc hparts =>
      rw [evalFrom, hc] at hrun
      dsimp only at hrun
      rw [mapM_segment?_eq_some.mpr ⟨_, hparts, rfl⟩] at hrun
      cases hrun
      rfl
    | paren hc hvalue =>
      rw [evalFrom, hc] at hrun
      exact hpart (.paren hc) hvalue hrun
    | plus hc hoperand | minus hc hoperand =>
      rw [evalFrom, hc] at hrun
      rcases run_bind_eq_ok.mp hrun with ⟨hnone, -⟩ | ⟨value, hvalue, hr⟩
      · cases hpart (.operand hc) hoperand hnone
      · cases hpart (.operand hc) hoperand hvalue
        cases hr
        rfl
    | add hc hleft hright hsum =>
      rw [evalFrom, hc] at hrun
      rcases run_bind_eq_ok.mp hrun with ⟨hnone, -⟩ | ⟨a, ha, hrun⟩
      · cases hpart (.left hc) hleft hnone
      cases hpart (.left hc) hleft ha
      rcases run_bind_eq_ok.mp hrun with ⟨hnone, -⟩ | ⟨b, hb, hr⟩
      · cases hpart (.right hc) hright hnone
      cases hpart (.right hc) hright hb
      rw [sum_eq_some_iff.mpr (.inl ⟨_, _, _, rfl, rfl, hsum, rfl⟩)] at hr
      cases hr
      rfl
    | concat hc hleft hright hstring =>
      rw [evalFrom, hc] at hrun
      rcases run_bind_eq_ok.mp hrun with ⟨hnone, -⟩ | ⟨a, ha, hrun⟩
      · cases hpart (.left hc) hleft hnone
      cases hpart (.left hc) hleft ha
      rcases run_bind_eq_ok.mp hrun with ⟨hnone, -⟩ | ⟨b, hb, hr⟩
      · cases hpart (.right hc) hright hnone
      cases hpart (.right hc) hright hb
      rw [sum_eq_some_iff.mpr (.inr ⟨hstring, rfl⟩)] at hr
      cases hr
      rfl
    | reference hc hdecl hvalue =>
      rw [evalFrom_reference hc] at hrun
      split at hrun
      · -- Coming back to a declaration would make its initializer from itself.
        rename_i hmem
        exact absurd (.tail' (hpath _ hmem _ hdecl) (.reference hc hdecl))
          (hvalue.not_needs_circle .refl)
      · rw [initializer?_eq_some_iff.mpr hdecl] at hrun
        refine ih hvalue hrun fun d hd i hi => ?_
        rcases List.mem_cons.mp hd with rfl | hd
        · rw [hi.unique hdecl]
        · exact (hpath d hd i hi).tail (.reference hc hdecl)

/-! ### Termination -/

/-- How many steps an expression can take before the next reference. -/
def height (tree : Tree) (slot : Slot) : Nat :=
  slot.elim 1 fun n => min (n.index + 2) (tree.size + 1)

theorem height_le (tree : Tree) (slot : Slot) : height tree slot ≤ tree.size + 1 := by
  cases slot with
  | none => exact Nat.le_add_left 1 tree.size
  | some n => exact Nat.min_le_right ..

theorem height_pos (tree : Tree) (slot : Slot) : 0 < height tree slot := by
  cases slot with
  | none => exact Nat.one_pos
  | some n => exact Nat.lt_min.mpr ⟨Nat.succ_pos _, Nat.succ_pos _⟩

theorem height_part (htree : c.tree.BottomUp) {content : Content}
    (hc : c.tree.contentAt? slot = some content) {part : Slot} (hpart : part ∈ content.slots) :
    height c.tree part < height c.tree slot := by
  obtain ⟨n, rfl, hn⟩ := Option.bind_eq_some_iff.mp hc
  have hlt : n.index < c.tree.size := by
    obtain ⟨node, hnode, -⟩ := Option.map_eq_some_iff.mp hn
    exact (Array.getElem?_eq_some_iff.mp hnode).choose
  have hheight : height c.tree (some n) = n.index + 2 := Nat.min_eq_left (by omega)
  rw [hheight]
  cases part with
  | none => exact Nat.lt_add_left _ (Nat.lt_succ_self 1)
  | some child =>
    have hchild : child.index < n.index := by
      refine htree n child ?_
      rw [Tree.children, hn]
      exact List.mem_filterMap.mpr ⟨_, hpart, rfl⟩
    exact Nat.lt_of_le_of_lt (Nat.min_le_left ..) (by omega)

theorem Initializes.mem {d : DeclId} {i : Slot} (h : Initializes c d i) :
    d ∈ (List.range c.declarations.size).map fun i => (⟨i + 1⟩ : DeclId) := by
  obtain ⟨info, -, hinfo, -⟩ := h
  obtain ⟨_ | i⟩ := d
  · cases hinfo
  · refine List.mem_map.mpr ⟨i, List.mem_range.mpr ?_, rfl⟩
    exact (Array.getElem?_eq_some_iff.mp hinfo).choose

/-- Different declarations that have initializers are no more than all declarations. -/
theorem length_le_of_nodup {visiting : List DeclId} (hnodup : visiting.Nodup)
    (hdecls : ∀ d ∈ visiting, ∃ i, Initializes c d i) :
    visiting.length ≤ c.declarations.size := by
  have hsubset : visiting ⊆ (List.range c.declarations.size).map fun i => (⟨i + 1⟩ : DeclId) :=
    fun d hd => (hdecls d hd).choose_spec.mem
  simpa using (List.subperm_of_subset hnodup hsubset).length_le

theorem exists_run_bind {α β : Type} {x : ConstM α} {f : α → ConstM β} (hx : ∃ r, x.run = .ok r)
    (hf : ∀ a, ∃ r, (f a).run = .ok r) : ∃ r, (x >>= f).run = .ok r := by
  obtain ⟨_ | a, hx⟩ := hx
  · exact ⟨none, run_bind_eq_ok.mpr (.inl ⟨hx, rfl⟩)⟩
  · obtain ⟨r, hr⟩ := hf a
    exact ⟨r, run_bind_eq_ok.mpr (.inr ⟨a, hx, hr⟩)⟩

/-- With room for the steps down to the next reference, and for as many steps again as there are
declarations to follow, evaluation comes to an end. -/
theorem exists_run_evalFrom (htree : c.tree.BottomUp) (hnodup : visiting.Nodup)
    (hdecls : ∀ d ∈ visiting, ∃ i, Initializes c d i)
    (hfuel : height c.tree slot +
      (c.tree.size + 1) * (c.declarations.size - visiting.length) ≤ fuel) :
    ∃ r, (evalFrom c fuel visiting slot).run = .ok r := by
  induction fuel generalizing visiting slot with
  | zero =>
    have := height_pos c.tree slot
    omega
  | succ fuel ih =>
    have hpart {content : Content} (hc : c.tree.contentAt? slot = some content) {part : Slot}
        (hmem : part ∈ content.slots) : ∃ r, (evalFrom c fuel visiting part).run = .ok r := by
      have := height_part htree hc hmem
      exact ih hnodup hdecls (by omega)
    have hreference {name : Symbol} {target : DeclId}
        (hc : c.tree.contentAt? slot = some (.identifier name (some target))) :
        ∃ r, (evalFrom c (fuel + 1) visiting slot).run = .ok r := by
      rw [evalFrom_reference hc]
      split
      · exact ⟨_, rfl⟩
      rename_i hnot
      cases hinitializer : initializer? c (c.declarations.canonical target) with
      | none => exact ⟨none, rfl⟩
      | some initializer =>
        have hdecl := initializer?_eq_some_iff.mp hinitializer
        have hnodup' := List.nodup_cons.mpr ⟨hnot, hnodup⟩
        have hdecls' := List.forall_mem_cons.mpr ⟨⟨initializer, hdecl⟩, hdecls⟩
        have hlength := length_le_of_nodup hnodup' hdecls'
        have hroom : c.declarations.size - visiting.length = c.declarations.size -
            (c.declarations.canonical target :: visiting).length + 1 := by
          rw [List.length_cons] at hlength ⊢
          omega
        rw [hroom, Nat.mul_succ] at hfuel
        have hstart := height_le c.tree initializer
        have hstep := height_pos c.tree slot
        exact ih hnodup' hdecls' (by omega)
    rw [evalFrom]
    split
    · exact ⟨_, rfl⟩
    · exact ⟨_, rfl⟩
    · exact ⟨_, rfl⟩
    · exact exists_run_bind ⟨_, rfl⟩ fun texts => ⟨_, rfl⟩
    · exact hpart ‹_› (List.mem_singleton_self _)
    · split
      · exact exists_run_bind (hpart ‹_› (List.mem_singleton_self _)) fun value => ⟨_, rfl⟩
      · exact ⟨_, rfl⟩
    · refine exists_run_bind (hpart ‹_› (List.mem_cons_self ..)) fun left => ?_
      refine exists_run_bind (hpart ‹_› (List.mem_cons_of_mem _ (List.mem_singleton_self _))) ?_
      exact fun right => ⟨_, rfl⟩
    · rename_i hcontent
      have hreturns := hreference hcontent
      rw [evalFrom, hcontent] at hreturns
      exact hreturns
    · exact ⟨_, rfl⟩

/-! ### Evaluation -/

/-- In a tree whose nodes come after their children, evaluation comes to an end; it finds a value
exactly if the value has a derivation, and none for what leads into a circle of references. -/
theorem evaluate_decides (htree : c.tree.BottomUp) (slot : Slot) :
    (∃ result, evaluate c slot = .ok result) ∧
    (∀ v, evaluate c slot = .ok (some v) ↔ Evaluates c slot v) ∧
    ∀ part, Relation.ReflTransGen (Needs c) slot part → Relation.TransGen (Needs c) part part →
      evaluate c slot = .ok none := by
  have hreturns : ∃ result, evaluate c slot = .ok result := by
    refine exists_run_evalFrom htree .nil (fun d hd => by cases hd) ?_
    rw [depth, Nat.mul_succ, Nat.add_comm]
    exact Nat.add_le_add_left (height_le ..) _
  obtain ⟨result, hresult⟩ := hreturns
  have hcomplete {v : ConstValue} (hv : Evaluates c slot v) : result = some v :=
    evalFrom_of_evaluates hv hresult fun d hd => by cases hd
  refine ⟨⟨result, hresult⟩, fun v => ⟨evaluates_of_evalFrom, fun hv => ?_⟩,
    fun part hpart hcircle => ?_⟩
  · rw [hresult, hcomplete hv]
  · cases result with
    | none => exact hresult
    | some v => exact absurd hcircle ((evaluates_of_evalFrom hresult).not_needs_circle hpart)

/-- The constant `a = 1` with the sum `a + a`, and the constants `b = c` and `c = b`. -/
def doubledConstant : Context where
  tree := ⟨#[⟨.numericLiteral ⟨false, 1, 0⟩, some ⟨1⟩⟩,
    ⟨.variableDecl (some ⟨1⟩) none (some ⟨0⟩) false, none⟩,
    ⟨.identifier .none (some ⟨1⟩), some ⟨4⟩⟩, ⟨.identifier .none (some ⟨1⟩), some ⟨4⟩⟩,
    ⟨.binary .add (some ⟨2⟩) (some ⟨3⟩), none⟩,
    ⟨.identifier .none (some ⟨3⟩), some ⟨6⟩⟩,
    ⟨.variableDecl (some ⟨2⟩) none (some ⟨5⟩) false, none⟩,
    ⟨.identifier .none (some ⟨2⟩), some ⟨8⟩⟩,
    ⟨.variableDecl (some ⟨3⟩) none (some ⟨7⟩) false, none⟩]⟩
  declarations := ⟨#[{ kind := .var, name := .none, flags := [.const], node := some ⟨1⟩ },
    { kind := .var, name := .none, flags := [.const], node := some ⟨6⟩ },
    { kind := .var, name := .none, flags := [.const], node := some ⟨8⟩ }]⟩
  symbols := .initial

/-- The constant that is used twice has its value twice, and the constants that refer to each other
have none. -/
theorem evaluate_decides_doubledConstant : doubledConstant.tree.BottomUp ∧
    evaluate doubledConstant (some ⟨4⟩) = .ok (some (.number ⟨false, 2, 0⟩)) ∧
    evaluate doubledConstant (some ⟨5⟩) = .ok none := by
  have htree : doubledConstant.tree.BottomUp := by decide
  have ha : Initializes doubledConstant ⟨1⟩ (some ⟨0⟩) := initializer?_eq_some_iff.mp rfl
  have hb : Initializes doubledConstant ⟨2⟩ (some ⟨5⟩) := initializer?_eq_some_iff.mp rfl
  have hc : Initializes doubledConstant ⟨3⟩ (some ⟨7⟩) := initializer?_eq_some_iff.mp rfl
  obtain ⟨-, hsum, -⟩ := evaluate_decides htree (some ⟨4⟩)
  obtain ⟨-, -, hcircle⟩ := evaluate_decides htree (some ⟨5⟩)
  have hone {n : NodeId} (hn : doubledConstant.tree.content? n =
      some (.identifier .none (some ⟨1⟩))) :
      Evaluates doubledConstant (some n) (.number ⟨false, 1, 0⟩) :=
    .reference hn ha (.number rfl)
  have hsteps : Needs doubledConstant (some ⟨5⟩) (some ⟨7⟩) := .reference rfl hc
  have hback : Needs doubledConstant (some ⟨7⟩) (some ⟨5⟩) := .reference rfl hb
  exact ⟨htree, (hsum _).mpr (.add rfl (hone rfl) (hone rfl) (by decide)),
    hcircle _ .refl (.tail (.single hsteps) hback)⟩

end ScriptTyping.Constant
