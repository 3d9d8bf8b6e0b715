import ScriptTyping.Proofs.Judgment.GuardIndependence
import ScriptTyping.Proofs.Judgment.Inquiry
import ScriptTyping.Proofs.Lattice.Indexing
import ScriptTyping.Proofs.Subtyping.Check

/-!
# Inference does not go wrong

Statements and patterns have no type, and asking for one is a fault.  If the children that are read
as expressions, the nodes of elements and the types tested by the flow have rules, as far as they
exist, then no inference meets that fault.  Nothing else has to be in order: references may dangle,
declarations may be missing and anything may lead back to itself.

The two services that keep books are in order for every input.  A pair that a subtype query entered
is still being visited when it is left, and the guard is empty in the end; and the join of type
arguments reads columns within their rows.

## Main definitions

* `Program.holdsTypable` — an empty or dangling slot, or one with a node that has a rule.
* `Program.ReadsTypable` — all that is read as an expression has a rule.
* `Correspondence.safe` — inferences fail at most by not coming to an end.
* `Subtyping.LeavesMatched`, `Join.ReadsInRange` — the two services are in order.

## Main results

* `Program.infer_safe` — inference does not go wrong.
-/

namespace ScriptTyping

/-- The children of a node whose types are read. -/
def Content.expressions : Content → List Slot
  | arrayLiteral elements => elements
  | returnStatement expression => [expression]
  | variableBinding _ initializer => [initializer]
  | c => c.initializer? :: c.receiver? :: c.operands

namespace Program

variable (p : Program)

/-- The slot is empty or dangling, or its node has a rule. -/
def holdsTypable (slot : Slot) : Bool := (p.contentAt? slot).all Content.isTypable

/-- All that is read as an expression has a rule, as far as it exists. -/
structure ReadsTypable : Prop where
  expressions : ∀ n c, p.content? n = some c → ∀ slot ∈ c.expressions, p.holdsTypable slot = true
  elements : ∀ d info, p.decl? d = some info → info.kind.isTypedElement = true →
    p.holdsTypable info.node = true
  tests : ∀ entry ∈ p.flow.entries, ∀ n ∈ entry.2.typeRefs, p.holdsTypable (some n) = true

/-- What may be asked for: every declaration, and the nodes that have a rule. -/
def isTypable : Typable → Bool
  | .node n => p.holdsTypable (some n)
  | .decl _ => true

variable {p}

/-- It is enough to look through the stored nodes and declarations. -/
theorem readsTypable_of_entries
    (hnodes : ∀ node ∈ p.tree.nodes.toList, ∀ slot ∈ node.content.expressions,
      p.holdsTypable slot = true)
    (hentries : ∀ info ∈ p.world.declarations.entries.toList, info.kind.isTypedElement = true →
      p.holdsTypable info.node = true)
    (htests : ∀ entry ∈ p.flow.entries, ∀ n ∈ entry.2.typeRefs, p.holdsTypable (some n) = true) :
    p.ReadsTypable where
  expressions _ _ hc := Tree.forall_content?
    (P := fun c => ∀ slot ∈ c.expressions, p.holdsTypable slot = true) hnodes hc
  elements _ _ hd := Declarations.forall_get?
    (P := fun info => info.kind.isTypedElement = true → p.holdsTypable info.node = true) hentries hd
  tests := htests

theorem holdsTypable_of_content {n : NodeId} {c : Content} (hc : p.content? n = some c) :
    p.holdsTypable (some n) = c.isTypable := by
  rw [holdsTypable, contentAt?, Tree.contentAt?, Option.bind_some, ← content?, hc, Option.all_some]

/-- The rules lead from nodes that have a rule to such nodes. -/
theorem ReadsTypable.asksOnly (h : p.ReadsTypable) :
    p.AsksOnly (fun n => p.holdsTypable (some n) = true)
      fun n => p.holdsTypable (some n) = true where
  operands {n c slot} _ hc hslot m hm := by
    subst hm
    refine h.expressions n c hc _ ?_
    cases c with
    | arrayLiteral | returnStatement | variableBinding => cases hslot
    | _ => exact List.mem_cons_of_mem _ (List.mem_cons_of_mem _ hslot)
  receiver? {n c} hc m hm := by
    refine h.expressions n c hc _ ?_
    rw [← hm]
    cases c with
    | arrayLiteral | returnStatement | variableBinding => cases hm
    | _ => exact List.mem_cons_of_mem _ (List.mem_cons_self ..)
  initializer? {n c} hc m hm := by
    refine h.expressions n c hc _ ?_
    rw [← hm]
    cases c with
    | arrayLiteral | returnStatement | variableBinding => cases hm
    | _ => exact List.mem_cons_self ..
  elements {n _ m _} hc hslot _ _ := h.expressions n _ hc (some m) hslot
  properties hc := holdsTypable_of_content hc
  calls hc := holdsTypable_of_content hc
  yields hc := holdsTypable_of_content hc
  bindings {n _ _} hc m hm := h.expressions n _ hc (some m) (hm ▸ List.mem_singleton_self _)
  returns {n _} hc m hm := h.expressions n _ hc (some m) (hm ▸ List.mem_singleton_self _)
  tested {reference guard} hguard n hn := by
    obtain ⟨entry, hentry, rfl⟩ := List.mem_map.mp hguard
    exact h.tests entry (List.mem_of_mem_filter hentry) n hn
  declared {d info n} hinfo hkind hn := hn ▸ h.elements d info hinfo hkind

end Program

namespace Correspondence

/-- The first inference fails at most by not coming to an end; the second one only names related
results. -/
def safe : Correspondence .transparent where
  rel x _ V := ∀ s, (∀ a s', x s = .ok a s' → ∃ b, V a b) ∧
    ∀ fault s', x s = .error fault s' → fault = .outOfFuel
  return' := by
    intro α β V a b hab s
    refine ⟨fun a' s' h => ?_, fun _ _ h => by cases h⟩
    obtain ⟨rfl, rfl⟩ := InferM.pure_eq_ok.mp h
    exact ⟨b, hab⟩
  bind := by
    intro α β γ δ V W x y f g hx hf s
    have hrun : (x >>= f) s = EStateM.bind x f s := rfl
    obtain ⟨hok, herror⟩ := hx s
    rw [hrun, EStateM.bind]
    cases hcase : x s with
    | ok a s₁ =>
      obtain ⟨b, hab⟩ := hok a s₁ hcase
      exact hf a b hab s₁
    | error fault s₁ =>
      refine ⟨(fun _ _ h => by cases h), fun fault' s' h => ?_⟩
      cases h
      exact herror fault s₁ hcase
  lift := by
    intro α β V z z' hz s
    refine ⟨fun a s' h => ?_, fun fault s' h => ?_⟩
    · obtain ⟨T', hT', rfl⟩ := InferM.liftM_eq_ok.mp h
      obtain ⟨-, -, b, -, hab⟩ := hz s.types s.types.hides_transparent a T' hT'
      exact ⟨b, hab⟩
    · change InferM.ofTypes z s = _ at h
      rw [InferM.ofTypes] at h
      cases hz : z s.types with
      | ok a T' =>
        rw [hz] at h
        cases h
      | error _ T' =>
        rw [hz] at h
        cases h
        rfl
  noteFallback s := ⟨fun _ _ _ => ⟨(), rfl⟩, fun _ _ h => by cases h⟩
  fallbackCount s := ⟨fun a _ _ => ⟨a, rfl⟩, fun _ _ h => by cases h⟩
  memoized? d s := ⟨fun a _ _ => ⟨a, rfl⟩, fun _ _ h => by cases h⟩
  writable _ := True
  memoize d t _ s := ⟨fun _ _ _ => ⟨(), rfl⟩, fun _ _ h => by cases h⟩

end Correspondence

/-! ### Bookkeeping -/

/-- In the subtype queries of a world, every pair that was entered can be left when its rules have
returned, which restores the open entries; and no entry is open in the end. -/
structure Subtyping.LeavesMatched (w : World) : Prop where
  leave : ∀ {room source target guard entered left T T' answer},
    RecursionGuard.enter guard (source, target) = (.entered, entered) →
    rules w (check w room) source target entered T = .ok (answer, left) T' →
    ∃ after, left.leave (source, target) = .ok after ∧ after.visiting = guard.visiting ∧
      after.depth = guard.depth
  finish : ∀ {source target T T' answer guard},
    run w source target T = .ok (answer, guard) T' → guard.finish = .ok ()

theorem Subtyping.leavesMatched (w : World) : LeavesMatched w where
  leave {room source target guard entered left T T' answer} henter hrules := by
    obtain ⟨g, hg, hopens⟩ | ⟨g, hg, -⟩ | ⟨r, g, hg, hr, -⟩ := enter_cases guard (source, target)
    · cases henter.symm.trans hg
      have hframe : Frame entered left :=
        steady_rules (check_frame room) source target _ _ _ _ _ hrules
      have hvisiting : left.visiting = (source, target) :: guard.visiting :=
        hframe.visiting.trans hopens.visiting
      have hin : left.isVisiting (source, target) = true := by
        simp [RecursionGuard.isVisiting, hvisiting]
      refine ⟨_, if_pos hin, ?_, ?_⟩
      · simp only [hvisiting, List.erase_cons_head]
      · simp only [hframe.depth, hopens.depth, Nat.add_sub_cancel]
    · cases henter.symm.trans hg
    · rcases hr with rfl | rfl <;> cases henter.symm.trans hg
  finish {source target T T' answer guard} hrun := by
    have hframe := check_frame _ source target _ _ _ _ _ hrun
    rw [RecursionGuard.finish, hframe.visiting]
    rfl

/-- The shared super types of any arguments are found without reading outside of a list, whatever
room the nested joins have. -/
def Join.ReadsInRange (w : World) : Prop :=
  ∀ env room args reports T,
    (commonAt w.isSubtype w env (joinFrom w.isSubtype w env room) args).run reports T =
      (some <$> common w.isSubtype w env (joinFrom w.isSubtype w env room) args) reports T

theorem Join.readsInRange (w : World) : ReadsInRange w := by
  intro env room args reports T
  have hrel : TypeRelation.Agrees .transparent w.isSubtype w.isSubtype :=
    World.agrees_isSubtype (.refl w)
  exact (unfaulted_common hrel (agrees_joinFrom (.refl w) hrel env room) T args reports T
    (le_refl T)).1

/-! ### Inference -/

namespace Program

variable {p : Program}

/-- Inference of anything that may be asked for, under every environment and from every memory,
either returns or does not come to an end: no statement or pattern is asked for its type.  Its
subtype queries leave no pair that they have not entered, and its joins read within their lists. -/
theorem infer_safe (hp : p.ReadsTypable) (env : Environment) {target : Typable}
    (htarget : p.isTypable target = true) (s : Memory) :
    (∀ fault s', p.infer env target s = .error fault s' → fault = .outOfFuel) ∧
      Subtyping.LeavesMatched p.world ∧ Join.ReadsInRange p.world := by
  have hmirror := hp.asksOnly.self (C := .safe) fun _ _ => trivial
  have hasks := Correspondence.asks_judge hmirror (fun {n c} hn hc huntypable => by
    rw [holdsTypable_of_content hc, huntypable] at hn
    cases hn) p.options.maxInferenceDepth
  refine ⟨?_, Subtyping.leavesMatched p.world, Join.readsInRange p.world⟩
  cases target with
  | node n => exact (hasks.node env n htarget s).2
  | decl d => exact (hasks.decl env d id s).2

/-- A variable whose initializer refers to a missing declaration, a variable that is its own
initializer, and a body that returns a missing node. -/
def strayReferences : Program where
  world.declarations := ⟨#[{ kind := .var, name := .none, node := some ⟨1⟩ },
    { kind := .var, name := .none, node := some ⟨2⟩ }]⟩
  world.builtins := default
  world.fuel := 0
  tree := ⟨#[⟨.identifier .none (some ⟨7⟩), some ⟨1⟩⟩,
    ⟨.variableDecl (some ⟨1⟩) none (some ⟨0⟩) false, none⟩,
    ⟨.variableDecl (some ⟨2⟩) none (some ⟨2⟩) false, none⟩,
    ⟨.returnStatement (some ⟨9⟩), none⟩, ⟨.block [some ⟨3⟩, none], none⟩]⟩
  flow := .empty
  options := {}

/-- Stray references are no reason to fail. -/
theorem infer_safe_strayReferences : strayReferences.isTypable (.node ⟨2⟩) = true ∧
    (∀ fault s', strayReferences.infer .empty (.node ⟨2⟩) ⟨.initial, .empty, 0⟩ =
      .error fault s' → fault = .outOfFuel) ∧
    Subtyping.LeavesMatched strayReferences.world ∧
    Join.ReadsInRange strayReferences.world := by
  have hreads : strayReferences.ReadsTypable :=
    readsTypable_of_entries (by decide) (by decide) (by decide)
  have htarget : strayReferences.isTypable (.node ⟨2⟩) = true := by decide
  exact ⟨htarget, infer_safe hreads .empty htarget ⟨.initial, .empty, 0⟩⟩

end Program

end ScriptTyping
