import ScriptTyping.Proofs.Judgment.Awaiting
import ScriptTyping.Proofs.Judgment.Parentheses
import ScriptTyping.Proofs.Tree.Promisification

/-!
# Awaiting a call and awaiting its promise form

An `await` of a call and an `await` of the promise form of this call have the same type, in two
programs that differ in nothing else.  In both, the callee and the arguments are inferred first.  As
long as this does not come back to the call, whose own type is another one where it is not awaited,
the two programs do the same.  What they make of the signature is compared on the first program.

## Main definitions

* `Program.promisify` — the program with the promise form of a call in its place.
* `Program.avoiding` — the judgment that fails where a call is asked for.
* `Program.HasPromiseForm` — the promise form of a call is inferred without coming back to it.
* `Correspondence.extending` — the second inference does what the first one does, if that returns.

## Main results

* `Program.Awaits.mirror` — the two programs read the same.
* `Program.infer_promisify` — an `await` of the promise form gives what an `await` of the call does.
-/

namespace ScriptTyping

/-- If the first inference returns, then the second one returns something related and leaves the
same memory. -/
def Correspondence.extending : Correspondence .transparent where
  rel x y V := ∀ s a s', x s = .ok a s' → ∃ b, y s = .ok b s' ∧ V a b
  return' := by
    intro α β V a b hab s a' s' hx
    obtain ⟨rfl, rfl⟩ := InferM.pure_eq_ok.mp hx
    exact ⟨b, rfl, hab⟩
  bind := by
    intro α β γ δ V W x y f g hx hf s c s' hc
    obtain ⟨a, s₁, ha, hc⟩ := InferM.bind_eq_ok.mp hc
    obtain ⟨b, hb, hab⟩ := hx s a s₁ ha
    rw [InferM.bind_of_ok hb]
    exact hf a b hab s₁ c s' hc
  lift := by
    intro α β V z z' hz s a s' ha
    obtain ⟨T, hT, rfl⟩ := InferM.liftM_eq_ok.mp ha
    obtain ⟨-, -, b, hb, hab⟩ := hz s.types s.types.hides_transparent a T hT
    exact ⟨b, InferM.liftM_of_ok hb, hab⟩
  noteFallback s a s' ha := ⟨a, ha, rfl⟩
  fallbackCount s a s' ha := ⟨a, ha, rfl⟩
  memoized? d s a s' ha := ⟨a, ha, rfl⟩
  writable _ := True
  memoize d t _ s a s' ha := ⟨a, ha, rfl⟩

/-- Two walks that may not end. -/
theorem Correspondence.extending_ofOption {α β : Type} {V : α → β → Prop} {found : Option α}
    {found' : Option β} (h : ∀ a, found = some a → ∃ b, found' = some b ∧ V a b) :
    extending.rel (liftM (TypeM.ofOption found)) (liftM (TypeM.ofOption found')) V := by
  intro s a s' ha
  obtain ⟨T, hT, rfl⟩ := InferM.liftM_eq_ok.mp ha
  obtain ⟨hfound, rfl⟩ := TypeM.ofOption_eq_ok.mp hT
  obtain ⟨b, hb, hab⟩ := h a hfound
  exact ⟨b, InferM.liftM_of_ok (TypeM.ofOption_eq_ok.mpr ⟨hb, rfl⟩), hab⟩

namespace Program

open Correspondence (extending)

/-- The program with the promise form of a call in its place under an `await`. -/
def promisify (p : Program) (await call : NodeId) : Program :=
  { p with tree := p.tree.promisify await call }

/-- The judgment that fails where a call is asked for. -/
def avoiding (p : Program) (call : NodeId) : Nat → Judge
  | 0 =>
    { node := fun env n => if n = call then throw .outOfFuel else (p.judge 0).node env n
      decl := fun _ _ => exhausted }
  | room + 1 =>
    { node := fun env n =>
        if n = call then throw .outOfFuel
        else
          match p.tree.get? n with
          | some node => p.nodeType (avoiding p call room) env n node.content
          | none => pure .unknown
      decl := fun env d => p.declarationType (avoiding p call room) env d }

/-- An `await` of the program holds a call, which no other node holds, and no declaration or type
test refers to the next handle. -/
structure Awaits (p : Program) (await call : NodeId) : Prop where
  tree : p.tree.Awaits await call
  declared : ∀ {d info}, p.decl? d = some info → info.node ≠ some p.tree.next
  tested : ∀ {reference guard}, guard ∈ p.flow.guardsAt reference →
    p.tree.next ∉ guard.typeRefs

variable {p : Program} {await call : NodeId}

namespace Awaits

variable (h : p.Awaits await call)

include h

/-- The handle of the promise form is not asked for. -/
theorem asksOnly : p.AsksOnly (· ≠ p.tree.next) (· ≠ p.tree.next) :=
  asksOnly_ne_next h.tree.slot_ne_next h.declared h.tested

/-- The nodes whose rule is the same in both programs. -/
def Keeps (p : Program) (await call n : NodeId) : Prop :=
  n ≠ await ∧ n ≠ call ∧ n ≠ p.tree.next

omit h in
theorem content? {n : NodeId} (hn : Keeps p await call n) :
    (p.promisify await call).content? n = p.content? n :=
  Tree.content?_promisify hn.2.2 hn.1

/-- Another node than the two that an `await` holds in turn is the same in both trees, or an
`await`. -/
private theorem contentAt? {slot : Slot} (hslot : slot ≠ some p.tree.next) :
    (p.promisify await call).contentAt? slot = p.contentAt? slot ∨
      p.contentAt? slot = some (.awaitExpr (some call)) ∧
        (p.promisify await call).contentAt? slot = some (.awaitExpr (some p.tree.next)) := by
  cases slot with
  | none => exact .inl rfl
  | some n =>
    by_cases hn : n = await
    · subst hn
      exact .inr ⟨h.tree.holds, h.tree.content?_await⟩
    · exact .inl (Tree.content?_promisify (fun hnext => hslot (congrArg some hnext)) hn)

private theorem content?_cases (n : NodeId) :
    (p.promisify await call).content? n = p.content? n ∨
    (p.content? n = none ∧
      (p.promisify await call).content? n = some (.promisify (some call))) ∨
    (p.content? n = some (.awaitExpr (some call)) ∧
      (p.promisify await call).content? n = some (.awaitExpr (some p.tree.next))) :=
  h.tree.content?_cases n

private theorem contentAt?_cases (slot : Slot) :
    (p.promisify await call).contentAt? slot = p.contentAt? slot ∨
    (p.contentAt? slot = none ∧
      (p.promisify await call).contentAt? slot = some (.promisify (some call))) ∨
    (p.contentAt? slot = some (.awaitExpr (some call)) ∧
      (p.promisify await call).contentAt? slot = some (.awaitExpr (some p.tree.next))) :=
  h.tree.contentAt?_cases slot

/-- The node in a slot of a node. -/
private theorem slot_ne {n : NodeId} {c : Content} {slot : Slot} (hc : p.content? n = some c)
    (hslot : slot ∈ c.slots) : slot ≠ some p.tree.next := by
  rintro rfl
  exact h.tree.slot_ne_next hc hslot rfl

private theorem parent?_ne {n : NodeId} : p.tree.parent? n ≠ some p.tree.next :=
  fun hm => h.tree.parent_ne_next hm rfl

/-- What stands around a variable. -/
private theorem surrounds {slot : Slot} (hslot : slot ≠ some p.tree.next) :
    Content.Surrounds id (p.contentAt? slot) ((p.promisify await call).contentAt? slot) := by
  rcases h.contentAt? hslot with hsame | ⟨hawait, hawait'⟩
  · left
    rw [hsame, Content.map_relocate_id]
  · exact .inr ⟨_, _, hawait, hawait', rfl, rfl⟩

/-- The member around a node and the node that owns it. -/
private theorem enclosingMember? {α : Type} {read : NodeId → Content → Option α}
    (hread : ∀ member slot slot',
      read member (.awaitExpr slot) = read member (.awaitExpr slot'))
    {n : NodeId} (hn : n ≠ p.tree.next) :
    (((p.promisify await call).tree.enclosingMember? n).bind fun member =>
      ((p.promisify await call).tree.parent? member).bind fun owner =>
        ((p.promisify await call).content? owner).bind (read member)) =
    (p.tree.enclosingMember? n).bind fun member =>
      (p.tree.parent? member).bind fun owner => (p.content? owner).bind (read member) := by
  have hsame : (p.promisify await call).tree.enclosingMember? n = p.tree.enclosingMember? n :=
    h.tree.findAncestor? (fun _ => rfl) (fun _ => rfl) hn
  rw [hsame]
  refine Option.bind_congr fun member hmember => ?_
  obtain ⟨c, hc, hmember⟩ := Tree.content?_of_findAncestor? hmember
  have hkind (target : Slot) (typeArgs : List TypeId) (args : List Slot) :
      c ≠ .call target typeArgs args := by
    rintro rfl
    cases hmember
  have hparent : (p.promisify await call).tree.parent? member = p.tree.parent? member :=
    Tree.parent?_promisify (Tree.ne_next_of_content? hc) (h.tree.ne_call hc hkind)
  rw [hparent]
  refine Option.bind_congr fun owner howner => ?_
  have hslot : some owner ≠ some p.tree.next := howner ▸ h.parent?_ne
  rcases h.contentAt? hslot with hsame | ⟨hawait, hawait'⟩
  · exact congrArg (Option.bind · (read member)) hsame
  · have howner : p.content? owner = _ := hawait
    have howner' : (p.promisify await call).content? owner = _ := hawait'
    rw [howner, howner']
    exact hread member _ _

private theorem superUse {n : NodeId} (hc : p.content? n = some .superExpr) :
    (p.promisify await call).superUse n = p.superUse n := by
  have hparent : (p.promisify await call).tree.parent? n = p.tree.parent? n :=
    Tree.parent?_promisify (Tree.ne_next_of_content? hc) (h.tree.ne_call hc nofun)
  unfold Program.superUse
  rw [hparent]
  rcases h.contentAt? (h.parent?_ne (n := n)) with hsame | ⟨hawait, hawait'⟩
  · rw [hsame]
  · rw [hawait, hawait']

private theorem isAwaited {n : NodeId} (hn : Keeps p await call n) :
    (p.promisify await call).isAwaited n = p.isAwaited n := by
  obtain ⟨-, hcall, hnext⟩ := hn
  have hparent : (p.promisify await call).tree.parent? n = p.tree.parent? n :=
    Tree.parent?_promisify hnext hcall
  unfold Program.isAwaited
  rw [hparent]
  rcases h.contentAt? (h.parent?_ne (n := n)) with hsame | ⟨hawait, hawait'⟩
  · rw [hsame]
  · rw [hawait, hawait']
    simp [hcall.symm, hnext.symm]

private theorem enclosingFunction? {n : NodeId} (hn : n ≠ p.tree.next) :
    (((p.promisify await call).tree.enclosingFunction? n true).bind
        (p.promisify await call).content?).bind Content.declared? =
      ((p.tree.enclosingFunction? n true).bind p.content?).bind Content.declared? := by
  have hsame : (p.promisify await call).tree.enclosingFunction? n true =
      p.tree.enclosingFunction? n true :=
    h.tree.findAncestor? (fun _ => rfl) (fun _ => rfl) hn
  rw [hsame]
  cases hm : p.tree.enclosingFunction? n true with
  | none => rfl
  | some m =>
    obtain ⟨c, hc, hbody⟩ := Tree.content?_of_findAncestor? hm
    have hcontent : (p.promisify await call).content? m = some c :=
      h.tree.content?_eq hc (by rintro slot rfl; cases hbody)
    have hc : p.content? m = some c := hc
    rw [Option.bind_some, Option.bind_some, hcontent, hc]

/-- The way from a binding to a variable, and what the binding stands in. -/
private theorem patternPath? {n : NodeId} {decl : Option DeclId} {declared : Option TypeId}
    {initializer : Slot} {isImmutable : Bool}
    (hc : p.content? n = some (.variableDecl decl declared initializer isImmutable)) :
    (p.promisify await call).tree.patternPath? n = (p.tree.patternPath? n).map (fun path =>
      { path with initializer := path.initializer.map id }) ∧
    ∀ path, p.tree.patternPath? n = some path →
      path.initializer.Satisfies (· ≠ p.tree.next) ∧
      Content.Surrounds id (p.contentAt? (p.tree.parent? path.binding))
        ((p.promisify await call).contentAt?
          ((p.promisify await call).tree.parent? path.binding)) := by
  have hsame : (p.promisify await call).tree.patternPath? n = p.tree.patternPath? n :=
    h.tree.patternPath? hc nofun
  refine ⟨?_, fun path hpath => ?_⟩
  · rw [hsame]
    simp only [Option.map_id_fun, id, Option.map_id']
  · obtain ⟨element, -, hpath⟩ := Option.bind_eq_some_iff.mp hpath
    refine ⟨h.asksOnly.patternPathFrom hpath, ?_⟩
    obtain ⟨pattern, initializer, hbinding⟩ := Tree.binding_of_patternPathFrom hpath
    have hparent : (p.promisify await call).tree.parent? path.binding =
        p.tree.parent? path.binding :=
      Tree.parent?_promisify (Tree.ne_next_of_content? hbinding) (h.tree.ne_call hbinding nofun)
    rw [hparent]
    exact h.surrounds h.parent?_ne

private theorem isConstructor (n : NodeId) :
    (p.promisify await call).isConstructor n = p.isConstructor n := by
  unfold Program.isConstructor
  rcases h.content?_cases n with hsame | ⟨hc, hc'⟩ | ⟨hc, hc'⟩
  · rw [hsame]
  · rw [hc, hc']
  · rw [hc, hc']

/-! ### Walks that may not end -/

/-- What stands inside parentheses. -/
private theorem stripParens? (slot : Slot) :
    extending.rel (liftM (TypeM.ofOption (p.tree.stripParens? slot)))
      (liftM (TypeM.ofOption ((p.promisify await call).tree.stripParens? slot))) Eq := by
  refine Correspondence.extending_ofOption fun inner hinner => ⟨inner, ?_, rfl⟩
  refine h.tree.stripParensFrom ?_ hinner
  exact (Nat.le_succ _).trans_eq (Tree.size_promisify p.tree await call).symm

private theorem isEmptyArray (slot : Slot) :
    extending.rel (liftM (p.isEmptyArray slot)) (liftM ((p.promisify await call).isEmptyArray slot))
      Eq := by
  unfold Program.isEmptyArray
  rw [InferM.liftM_bind, InferM.liftM_bind]
  refine extending.bindEq (h.stripParens? slot) fun inner => ?_
  rcases h.contentAt?_cases inner with hsame | ⟨hc, hc'⟩ | ⟨hc, hc'⟩
  · rw [hsame]
    cases hc : p.contentAt? inner with
    | none => exact extending.same _
    | some c =>
      cases c with
      | arrayLiteral elements =>
        obtain ⟨m, -, hm⟩ := Option.bind_eq_some_iff.mp hc
        refine extending.return' ?_
        rw [Bool.eq_iff_iff, List.all_eq_true, List.all_eq_true]
        refine forall₂_congr fun element helement => ?_
        rcases h.contentAt? (h.slot_ne hm helement) with hsame | ⟨hawait, hawait'⟩
        · rw [hsame]
        · rw [hawait, hawait']
      | _ => exact extending.same _
  · rw [hc, hc']
    exact extending.same _
  · rw [hc, hc']
    exact extending.same _

private theorem hasThisReceiver (slot : Slot) :
    extending.rel (liftM (p.hasThisReceiver slot))
      (liftM ((p.promisify await call).hasThisReceiver slot)) Eq := by
  unfold Program.hasThisReceiver
  rw [InferM.liftM_bind, InferM.liftM_bind]
  refine extending.bindEq (h.stripParens? slot) fun inner => ?_
  have htarget (target : Slot) : ((p.promisify await call).contentAt? target).any
      Content.isThisOrSuper = (p.contentAt? target).any Content.isThisOrSuper :=
    h.tree.any_contentAt? (fun _ => rfl) (fun _ => rfl) target
  simp only [htarget]
  rcases h.contentAt?_cases inner with hsame | ⟨hc, hc'⟩ | ⟨hc, hc'⟩
  · rw [hsame]
    exact fun _ found _ hfound => ⟨found, hfound, rfl⟩
  · rw [hc, hc']
    exact extending.same _
  · rw [hc, hc']
    exact extending.same _

private theorem constant? (slot : Slot) :
    extending.rel (liftM (p.constant? slot)) (liftM ((p.promisify await call).constant? slot))
      Eq := by
  intro s value s' hrun
  obtain ⟨T, hT, rfl⟩ := InferM.liftM_eq_ok.mp hrun
  obtain ⟨hvalue, rfl⟩ := constant?_eq_ok.mp hT
  have hdepth : Constant.depth ⟨p.tree, p.world.declarations, s.types.symbols⟩ ≤
      Constant.depth ⟨p.tree.promisify await call, p.world.declarations, s.types.symbols⟩ := by
    refine Nat.mul_le_mul_right _ (Nat.succ_le_succ ?_)
    exact (Nat.le_succ _).trans_eq (Tree.size_promisify p.tree await call).symm
  have hvalue' : Constant.evaluate
      ⟨p.tree.promisify await call, p.world.declarations, s.types.symbols⟩ slot = .ok value :=
    h.tree.evalFrom hdepth [] slot value hvalue
  exact ⟨value, InferM.liftM_of_ok (constant?_eq_ok.mpr ⟨hvalue', rfl⟩), rfl⟩

private theorem exits? {d : DeclId} {info : Declaration} {owner : NodeId}
    (hinfo : p.decl? d = some info) (howner : info.node = some owner) :
    extending.rel (liftM (TypeM.ofOption (p.tree.exits? owner)))
      (liftM (TypeM.ofOption ((p.promisify await call).tree.exits? owner)))
      (Exits.Matches p id (Keeps p await call) (· ≠ p.tree.next)) := by
  refine Correspondence.extending_ofOption fun exits hexits => ⟨exits, ?_, ?_⟩
  · exact h.tree.exits? (fun hnext => h.declared hinfo (hnext ▸ howner)) hexits
  have hyields := p.tree.yields_of_exitsFrom hexits fun _ hn => by cases hn
  refine ⟨(List.map_id _).symm, rfl,
    h.asksOnly.returns_of_exitsFrom hexits (fun _ hn => by cases hn), fun n hn => ?_⟩
  obtain ⟨expression, isDelegate, hc⟩ := hyields n hn
  refine ⟨⟨?_, h.tree.ne_call hc nofun, Tree.ne_next_of_content? hc⟩, expression, isDelegate, hc⟩
  rintro rfl
  cases hc.symm.trans h.tree.holds

/-- The program with the promise form reads the same. -/
theorem mirror : Mirror .extending p (p.promisify await call) id (Keeps p await call)
    (· ≠ p.tree.next) (· ≠ p.tree.next) where
  world := .refl p.world
  flow := rfl
  options := rfl
  content {n c} hn hc := by
    rw [content? hn, hc, Content.relocate_id]
  inspected {n c slot} _ hc hslot := by
    rw [Option.map_id, id]
    rcases h.contentAt? (h.slot_ne hc (Content.mem_slots_of_inspected hslot)) with
      hsame | ⟨hawait, hawait'⟩
    · left
      rw [hsame, Content.map_relocate_id]
    · exact .inr ⟨_, _, hawait, hawait', by cases c <;> rfl, by cases c <;> rfl⟩
  operands _ hc hslot := h.asksOnly.operands (Tree.ne_next_of_content? hc) hc hslot
  receiver? := h.asksOnly.receiver?
  initializer? _ hc m hm := ⟨h.asksOnly.initializer? hc m hm, rfl⟩
  elements _ _ _ _ hm _ := Tree.ne_next_of_content? hm
  properties _ _ _ hm _ := ⟨Tree.ne_next_of_content? hm, rfl, fun _ _ => id⟩
  calls {n c slot} hn hc hslot m hm target typeArgs args hcall := by
    refine ⟨?_, ?_, Tree.ne_next_of_content? hcall⟩
    · rintro rfl
      cases hcall.symm.trans h.tree.holds
    · rintro rfl
      have hchild := Content.mem_slots_of_inspected (hm ▸ hslot)
      exact hn.1 (h.tree.adopts.2 n (Tree.mem_children_iff.mpr ⟨c, hc, hchild⟩))
  isWriteAccess hn _ := h.tree.isWriteAccess hn.2.2 hn.2.1
  enclosingClassifier? hn _ := h.enclosingMember? (fun _ _ _ => rfl) hn.2.2
  enclosingClass? hn _ := h.enclosingMember? (fun _ _ _ => rfl) hn.2.2
  isStaticMember n := h.tree.any_content? (fun _ => rfl) (fun _ => rfl) n
  isConstructor := h.isConstructor
  superUse _ hc := h.superUse hc
  isAwaited hn _ := h.isAwaited hn
  enclosingFunction? hn _ := ⟨h.enclosingFunction? hn.2.2, fun _ _ => id⟩
  parent? hn hc := by
    refine ⟨Tree.parent?_promisify hn.2.2 hn.2.1, fun q hq => ?_⟩
    have hslot : some q ≠ some p.tree.next := hq ▸ h.parent?_ne
    exact h.surrounds hslot
  patternPath? _ hc := h.patternPath? hc
  isEmptyArray {_ _ slot} _ _ _ := by
    rw [Option.map_id, id]
    exact h.isEmptyArray slot
  hasThisReceiver {_ _ slot} _ _ _ := by
    rw [Option.map_id, id]
    exact h.hasThisReceiver slot
  constant? {_ _ slot} _ _ _ := by
    rw [Option.map_id, id]
    exact h.constant? slot
  exits? := h.exits?
  tested := h.asksOnly.tested
  declared := h.asksOnly.declared
  writable _ _ := trivial

end Awaits

/-! ### Avoiding a call -/

section Avoiding

variable {env : Environment} {n : NodeId} {c : Content}

theorem avoiding_call (p : Program) (env : Environment) (call : NodeId) (room : Nat) :
    (p.avoiding call room).node env call = throw .outOfFuel := by
  cases room with
  | zero => simp only [avoiding, if_true]
  | succ room => simp only [avoiding, if_true]

theorem avoiding_zero (hn : n ≠ call) :
    (p.avoiding call 0).node env n = (p.judge 0).node env n := by
  simp only [avoiding, if_neg hn]

theorem avoiding_of_none (hn : n ≠ call) (hc : p.content? n = none) (room : Nat) :
    (p.avoiding call room).node env n = pure .unknown := by
  have hget : p.tree.get? n = none := Option.map_eq_none_iff.mp hc
  cases room with
  | zero => rw [avoiding_zero hn, judge_of_none hc]
  | succ room => simp only [avoiding, if_neg hn, hget]

theorem avoiding_succ (hn : n ≠ call) (hc : p.content? n = some c) (room : Nat) :
    (p.avoiding call (room + 1)).node env n = p.nodeType (p.avoiding call room) env n c := by
  obtain ⟨node, hget, rfl⟩ := Option.map_eq_some_iff.mp hc
  simp only [avoiding, if_neg hn, hget]

/-- The judgment that avoids a call, compared with that of a program that reads the same.  Nodes
with another rule in that program are looked at separately. -/
theorem asks_avoiding {p' : Program} {judged asked : NodeId → Prop}
    (M : Mirror .extending p p' id judged asked asked)
    (hmissing : ∀ {n}, asked n → p.content? n = none → p'.content? n = none)
    (hother : ∀ {n c}, asked n → n ≠ call → ¬judged n → p.content? n = some c →
      (∃ c', p'.content? n = some c') ∧ ∀ room env,
        extending.rel (p.nodeType (p.avoiding call room) env n c)
          ((p'.judge (room + 1)).node env n) Eq)
    (room : Nat) : extending.Asks p p' id asked asked (p.avoiding call room) (p'.judge room) := by
  have hfails {z : InferM TypeId} (fault : Fault) : extending.rel (throw fault) z Eq :=
    fun _ _ _ ha => by cases ha
  have hcutOff : extending.rel exhausted exhausted Eq :=
    extending.bindEq extending.noteFallback fun _ => extending.same _
  -- The four clauses follow from the one for other nodes and the one for declarations.
  have hasks {room : Nat} (hnode : ∀ env n c, asked n → n ≠ call → p.content? n = some c →
      extending.rel ((p.avoiding call room).node env n) ((p'.judge room).node env n) Eq)
      (hdecl : ∀ env d, extending.rel ((p.avoiding call room).decl env d)
        ((p'.judge room).decl env d) Eq) :
      extending.Asks p p' id asked asked (p.avoiding call room) (p'.judge room) := by
    have hall (env : Environment) (n : NodeId) (hn : asked n) :
        extending.rel ((p.avoiding call room).node env n) ((p'.judge room).node env n) Eq := by
      by_cases hcall : n = call
      · rw [hcall, avoiding_call]
        exact hfails _
      · cases hc : p.content? n with
        | none =>
          rw [avoiding_of_none hcall hc, judge_of_none (hmissing hn hc)]
          exact extending.same _
        | some c => exact hnode env n c hn hcall hc
    exact
      { node := hall
        direct := hall
        receiver := fun env n hn => extending.mono (hall env n hn) fun t _ ht =>
          ht ▸ .refl M.world t
        decl := fun env d _ => hdecl env d }
  have hcontent {n : NodeId} {c : Content} (hn : asked n) (hcall : n ≠ call)
      (hc : p.content? n = some c) : ∃ c', p'.content? n = some c' := by
    by_cases hjudged : judged n
    · exact ⟨_, M.content hjudged hc⟩
    · exact (hother hn hcall hjudged hc).1
  induction room with
  | zero =>
    refine hasks (fun env n c hn hcall hc => ?_) fun _ _ => hcutOff
    obtain ⟨c', hc'⟩ := hcontent hn hcall hc
    rw [avoiding_zero hcall, judge_zero hc, judge_zero hc']
    exact hcutOff
  | succ room ih =>
    refine hasks (fun env n c hn hcall hc => ?_) fun env d => extending.declarationType M ih env id
    rw [avoiding_succ hcall hc]
    by_cases hjudged : judged n
    · have hrule := extending.nodeType M ih env hjudged hc (fun _ _ => id) fun _ fault =>
        hfails fault
      rw [Content.relocate_id] at hrule
      have hc' := M.content hjudged hc
      rw [Content.relocate_id] at hc'
      rw [judge_succ hc']
      exact hrule
    · exact (hother hn hcall hjudged hc).2 room env

end Avoiding

/-- A program reads the same as itself. -/
theorem mirror_extending (p : Program) :
    Mirror .extending p p id (fun _ => True) (fun _ => True) fun _ => True :=
  p.asksOnly_true.self fun _ _ => trivial

/-- What is inferred without asking for a call is inferred by the plain judgment. -/
theorem asks_plain (p : Program) (call : NodeId) (room : Nat) :
    extending.Asks p p id (fun _ => True) (fun _ => True) (p.avoiding call room) (p.judge room) :=
  asks_avoiding p.mirror_extending (fun _ hc => hc) (fun _ _ hjudged => absurd trivial hjudged) room

/-- What is inferred without asking for the call is inferred with the promise form in its place. -/
theorem Awaits.asks_promisify (h : p.Awaits await call) (room : Nat) :
    extending.Asks p (p.promisify await call) id (· ≠ p.tree.next) (· ≠ p.tree.next)
      (p.avoiding call room) ((p.promisify await call).judge room) := by
  refine asks_avoiding h.mirror (fun {n} hn hc => ?_) (fun {n c} hn hcall hjudged hc => ?_) room
  · refine (Tree.content?_promisify hn ?_).trans hc
    rintro rfl
    cases hc.symm.trans h.tree.holds
  · -- The one node with another rule is the `await`, which asks for the call at once.
    obtain rfl : n = await := by
      by_contra hawait
      exact hjudged ⟨hawait, hcall, hn⟩
    obtain rfl := Option.some.inj (hc.symm.trans h.tree.holds)
    refine ⟨⟨_, h.tree.content?_await⟩, fun room env s t s' hrun => ?_⟩
    obtain ⟨u, s₁, hfirst, -⟩ := InferM.bind_eq_ok.mp hrun
    have hfirst : (p.avoiding call room).node env call s = .ok u s₁ := hfirst
    rw [avoiding_call] at hfirst
    cases hfirst

/-- The promise form of a call is inferred without coming back to the call, and the declaration of
its signature has a promise form.  Without a callback, neither the callee nor the arguments may
write a memo cell, since both are looked at again. -/
structure HasPromiseForm (p : Program) (room : Nat) (env : Environment) (call : NodeId)
    (signature : Signature) (s : Memory) (promise : TypeId) (s' : Memory) : Prop where
  isPromisifiable : p.isPromisifiable signature = true
  callee : ∃ target typeArgs args s₀, p.content? call = some (.call target typeArgs args) ∧
    p.calleeSignature? (p.avoiding call room) env target s = .ok (some signature) s₀ ∧
    (promise = .unknown → s₀.memo = s.memo ∧ s'.memo = s.memo)
  returns : p.promisifiedType (p.avoiding call room) env (some call) s = .ok promise s'

variable {room : Nat} {env : Environment} {signature : Signature} {s s' s₁ : Memory}
  {promise t : TypeId}

/-- The plain judgment infers the promise form as well. -/
theorem HasPromiseForm.plain
    (h : p.HasPromiseForm room env call signature s promise s₁) :
    ∃ target typeArgs args s₀, p.content? call = some (.call target typeArgs args) ∧
      p.calleeSignature? (p.judge room) env target s = .ok (some signature) s₀ ∧
      (promise = .unknown → s₀.memo = s.memo ∧ s₁.memo = s.memo) ∧
      p.promisifiedType (p.judge room) env (some call) s = .ok promise s₁ := by
  obtain ⟨target, typeArgs, args, s₀, hc, hcallee, hlook⟩ := h.callee
  have hcontent : p.contentAt? (some call) = some (.call target typeArgs args) := hc
  have hcontent' : p.contentAt? (some call) =
      some (Content.relocate id (.call target typeArgs args)) := by
    rw [Content.relocate_id]
    exact hc
  have htarget : Slot.Satisfies (fun _ => True) target := fun _ _ => trivial
  have hsignature := extending.calleeSignature? p.mirror_extending (p.asks_plain call room) env
    htarget
  have hform := extending.promisifiedType_of_call p.mirror_extending (p.asks_plain call room) env
    hcontent hcontent' htarget fun _ _ _ _ => trivial
  obtain ⟨_, hcallee, rfl, -⟩ := hsignature s _ s₀ hcallee
  obtain ⟨_, hform, rfl⟩ := hform s promise s₁ h.returns
  rw [Option.map_id, id] at hcallee
  exact ⟨target, typeArgs, args, s₀, hc, hcallee, hlook, hform⟩

/-- An `await` of a call that notes no fallback is not cut off before it looks at the callee. -/
theorem Awaits.exists_room (h : p.Awaits await call) {room : Nat}
    (hrun : (p.judge room).node env await s = .ok t s') (hnone : s'.fallbacks = s.fallbacks) :
    ∃ rest, room = rest + 2 := by
  match room with
  | 0 =>
    rw [judge_zero h.tree.holds] at hrun
    cases hrun
    exact absurd hnone (Nat.succ_ne_self _)
  | 1 =>
    obtain ⟨target, typeArgs, args, hc⟩ := h.tree.isCall
    rw [judge_succ h.tree.holds] at hrun
    obtain ⟨u, s₁, hfirst, -, hle⟩ := awaitType_eq_ok hrun
    have hfirst : (p.judge 0).node env call s = .ok u s₁ := hfirst
    rw [judge_zero hc] at hfirst
    cases hfirst
    have hle : s.fallbacks + 1 ≤ s'.fallbacks := hle
    omega
  | room + 2 => exact ⟨room, rfl⟩

/-- The promise form of the call is the same once it stands in the place of the call. -/
theorem Awaits.promisifiedType (h : p.Awaits await call)
    (hform : p.promisifiedType (p.avoiding call room) env (some call) s = .ok promise s') :
    (p.promisify await call).promisifiedType ((p.promisify await call).judge room) env (some call) s
      = .ok promise s' := by
  obtain ⟨target, typeArgs, args, hc⟩ := h.tree.isCall
  have hcontent : p.contentAt? (some call) = some (.call target typeArgs args) := hc
  have hcontent' : (p.promisify await call).contentAt? (some call) =
      some (Content.relocate id (.call target typeArgs args)) := by
    rw [Content.relocate_id]
    exact h.tree.content?_eq hc nofun
  have hslot {m : NodeId} (hm : some m ∈ Content.slots (.call target typeArgs args)) :
      m ≠ p.tree.next := h.tree.slot_ne_next hc hm
  have hrel := extending.promisifiedType_of_call h.mirror (h.asks_promisify room) env
    hcontent hcontent' (fun m hm => hslot (hm ▸ List.mem_cons_self ..))
    (fun arg harg m hm => hslot (hm ▸ List.mem_cons_of_mem _ harg))
  obtain ⟨_, hpromised, rfl⟩ := hrel s promise s' hform
  exact hpromised

/-- Awaiting the promise form takes it apart. -/
theorem Awaits.awaitType (h : p.Awaits await call) {value : Option TypeId} {T : TypeTable}
    (hform : p.promisifiedType (p.avoiding call room) env (some call) s = .ok promise s')
    (hvalue : p.promiseValue? promise s'.types = .ok value T) :
    ((p.promisify await call).judge (room + 2)).node env await s =
      .ok (value.getD promise) { s' with types := T } := by
  have hnext : (p.promisify await call).content? p.tree.next = some (.promisify (some call)) :=
    Tree.content?_promisify_next p.tree await call
  have hfirst : ((p.promisify await call).judge (room + 1)).slot env (some p.tree.next) s =
      .ok promise s' := by
    change ((p.promisify await call).judge (room + 1)).node env p.tree.next s = _
    rw [judge_succ hnext]
    exact h.promisifiedType hform
  have hawait : (p.promisify await call).content? await = some (.awaitExpr (some p.tree.next)) :=
    h.tree.content?_await
  rw [judge_succ hawait]
  change (p.promisify await call).awaitType _ env (some p.tree.next) s = _
  have hvalue' : (p.promisify await call).promiseValue? promise s'.types = .ok value T := hvalue
  rw [Program.awaitType, InferM.bind_of_ok hfirst, InferM.bind_of_ok (InferM.liftM_of_ok hvalue')]
  cases value with
  | some value => rfl
  | none =>
    have hcontent : (p.promisify await call).contentAt? (some p.tree.next) =
        some (.promisify (some call)) := hnext
    have hother : (p.promisify await call).isPromisifiableCall
        ((p.promisify await call).judge (room + 1)) env (some p.tree.next) = pure false := by
      rw [isPromisifiableCall, hcontent]
    rw [hother]
    rfl

/-- An `await` of a call of a function with a promise form, inferred without a fallback, has the
same type as an `await` of the promise form in its place, and both leave the same memory. -/
theorem infer_promisify (h : p.Awaits await call) (hsetting : p.Setting env s.types)
    (hinitial : .initial ≤ s.types) (hmemo : s.memo.Within s.types)
    (hguard : env.guardState ⟨.callExpression, call⟩ ≠ .active)
    (hform : p.HasPromiseForm (p.options.maxInferenceDepth - 2) env call signature s promise s₁)
    (hrun : p.infer env (.node await) s = .ok t s') (hnone : s'.fallbacks = s.fallbacks) :
    (p.promisify await call).infer env (.node await) s = .ok t s' := by
  have hawaited : p.isAwaited call = true := by
    have hparent : p.contentAt? (p.tree.parent? call) = some (.awaitExpr (some call)) := by
      rw [h.tree.parent?_call]
      exact h.tree.holds
    rw [isAwaited, hparent]
    exact beq_self_eq_true _
  have hrun : (p.judge p.options.maxInferenceDepth).node env await s = .ok t s' := hrun
  obtain ⟨room, hroom⟩ := h.exists_room hrun hnone
  rw [hroom] at hrun hform
  obtain ⟨target, typeArgs, args, s₀, hc, hcallee, hlook, hplain⟩ := hform.plain
  rw [judge_succ h.tree.holds] at hrun
  have hrun : p.awaitType (p.judge (room + 1)) env (some call) s = .ok t s' := hrun
  obtain ⟨u, s₂, hfirst, hle, hle'⟩ := awaitType_eq_ok hrun
  have hcall : p.callType (p.judge room) env call target typeArgs args s = .ok u s₂ := by
    have hfirst : (p.judge (room + 1)).node env call s = .ok u s₂ := hfirst
    rw [judge_succ hc] at hfirst
    exact hfirst
  obtain ⟨hpromised, -⟩ := promisifiedType_of_callType hsetting hinitial hmemo hguard hc hawaited
    hcallee hform.isPromisifiable hcall (by omega)
  cases hplain.symm.trans hpromised
  obtain ⟨-, value, T, hvalue, rfl, rfl⟩ := awaitType_of_callType hsetting hinitial hmemo hguard hc
    hawaited hcallee hform.isPromisifiable hcall hlook hrun hnone
  change ((p.promisify await call).judge p.options.maxInferenceDepth).node env await s = _
  rw [hroom]
  exact h.awaitType hform.returns hvalue

/-- A function that calls back with a string, and a call of it that is awaited. -/
def callbackFunction : Program where
  world.declarations := ⟨#[
    { kind := .function, name := .none, flags := [.promisifiable], declaredType := some ⟨17⟩ },
    { kind := .interfaceType, name := .none }]⟩
  world.builtins := { (default : Builtins) with promise := ⟨2⟩, errorType := .boolean }
  world.fuel := 1
  tree := Tree.ofContents [.identifier .none (some ⟨1⟩), .call (some ⟨0⟩) [] [],
    .awaitExpr (some ⟨1⟩)]
  flow := .empty
  options := {}

/-- The signature of the function. -/
def callbackSignature : Signature :=
  { Signature.plain [⟨.none, ⟨16⟩, false, false⟩] .void with decl := some ⟨1⟩ }

/-- The callback, the function and the promise that its calls can be read as. -/
def callbackTable : TypeTable :=
  ((TypeTable.initial.store (.function (.plain [⟨.none, .string, false, false⟩] .void))).store
    (.function callbackSignature)).store (.nominal ⟨2⟩ [.string, .undefined])

theorem callbackFunction_awaits : callbackFunction.Awaits ⟨2⟩ ⟨1⟩ where
  tree :=
    { built := Tree.built_ofContents _
      bottomUp := by decide
      holds := rfl
      isCall := ⟨_, _, _, rfl⟩
      adopts := by decide }
  declared hinfo := by
    refine Declarations.forall_get? (P := fun info => info.node ≠ some callbackFunction.tree.next)
      ?_ hinfo
    decide
  tested hguard := by cases hguard

private theorem growsTo_callbackTable : TypeTable.initial.GrowsTo callbackTable := by
  rw [callbackTable]
  iterate 3 refine TypeTable.GrowsTo.store ?_ (by decide) (by decide)
  exact .refl TypeTable.wellFormed_initial

/-- The program mentions no types but that of the function. -/
private theorem within_callbackTable : callbackFunction.Within callbackTable := by
  have hcontent {n : NodeId} {content : Content} (hn : callbackFunction.content? n = some content) :
      content.types = [] ∧ ∀ s ∈ content.texts, s = .none := by
    refine Tree.forall_content?
      (P := fun content => content.types = [] ∧ ∀ s ∈ content.texts, s = .none) ?_ hn
    decide
  refine ⟨World.within_of_entries (by decide) (by decide), fun n content hn => ?_,
    fun n content hn s hs => ?_⟩
  · rw [(hcontent hn).1]
    exact TypeTable.hasAll_nil
  · rw [(hcontent hn).2 s hs]
    exact Nat.zero_lt_one

/-- The promise that the callback describes is stored already. -/
private theorem promiseOfCallback?_callbackFunction (env : Environment)
    (herror : callbackFunction.isErrorType env .string callbackTable = .ok false callbackTable) :
    callbackFunction.promiseOfCallback? env callbackSignature callbackTable =
      .ok (some ⟨18⟩) callbackTable := by
  have hhandle : callbackTable.handles[TypeData.nominal callbackFunction.world.builtins.promise
    [.string, .undefined]]? = some ⟨18⟩ := TypeTable.handles_store _ _
  have hpromise : callbackFunction.world.builtins.promiseOf .string .undefined callbackTable =
      .ok ⟨18⟩ callbackTable := by
    change EStateM.Result.ok (callbackTable.intern _).1 (callbackTable.intern _).2 = _
    rw [TypeTable.intern_of_handle hhandle]
  have hbound : TypeM.upperBound ⟨16⟩ callbackTable = .ok ⟨16⟩ callbackTable := rfl
  have hcallback : signature? ⟨16⟩ callbackTable =
      .ok (some (.plain [⟨.none, .string, false, false⟩] .void)) callbackTable := rfl
  refine (TypeM.bind_of_ok hbound).trans ((TypeM.bind_of_ok hcallback).trans ?_)
  have hvalue : callbackFunction.promisedValue env [.string] callbackTable =
      .ok .string callbackTable := rfl
  refine (TypeM.bind_of_ok herror).trans ((TypeM.bind_of_ok hvalue).trans ?_)
  exact TypeM.bind_of_ok hpromise

/-- The awaited call is a string, and so is its awaited promise form. -/
theorem infer_promisify_callbackFunction :
    callbackFunction.infer .empty (.node ⟨2⟩) ⟨callbackTable, .empty, 0⟩ =
      .ok .string ⟨callbackTable, .empty, 0⟩ ∧
    (callbackFunction.promisify ⟨2⟩ ⟨1⟩).infer .empty (.node ⟨2⟩) ⟨callbackTable, .empty, 0⟩ =
      .ok .string ⟨callbackTable, .empty, 0⟩ := by
  let s : Memory := ⟨callbackTable, .empty, 0⟩
  have hT := growsTo_callbackTable.wellFormed
  obtain ⟨room, hroom⟩ : ∃ room, callbackFunction.options.maxInferenceDepth = room + 4 := ⟨_, rfl⟩
  have hcall : callbackFunction.content? ⟨1⟩ = some (.call (some ⟨0⟩) [] []) := rfl
  have hform : callbackFunction.HasPromiseForm (callbackFunction.options.maxInferenceDepth - 2)
      .empty ⟨1⟩ callbackSignature s ⟨18⟩ s := by
    have hcallee : callbackFunction.calleeSignature? (callbackFunction.avoiding ⟨1⟩ (room + 2))
        .empty (some ⟨0⟩) s = .ok (some callbackSignature) s := rfl
    have hscope : callbackFunction.addCallArguments (callbackFunction.avoiding ⟨1⟩ (room + 2))
        Environment.empty.wrap callbackSignature [] [] s = .ok Environment.empty.wrap s := rfl
    rw [hroom]
    exact
      { isPromisifiable := rfl
        callee := ⟨_, _, _, s, hcall, hcallee, fun h => by cases h⟩
        returns := promisifiedType_of_calleeSignature? hcall hcallee hscope
          (promiseOfCallback?_callbackFunction _ rfl) rfl }
  have hcalled : (callbackFunction.judge (room + 3)).slot .empty (some ⟨1⟩) s = .ok ⟨18⟩ s := by
    have hnode : (callbackFunction.judge (room + 3)).node .empty ⟨1⟩ = callbackFunction.callType
        (callbackFunction.judge (room + 2)) .empty ⟨1⟩ (some ⟨0⟩) [] [] := rfl
    change (callbackFunction.judge (room + 3)).node .empty ⟨1⟩ s = _
    have hcallee : callbackFunction.calleeSignature? (callbackFunction.judge (room + 2)) .empty
        (some ⟨0⟩) s = .ok (some callbackSignature) s := rfl
    have hpromise := InferM.liftM_of_ok (s := s) (promiseOfCallback?_callbackFunction
      (Environment.empty.withProvisional ⟨.callExpression, ⟨1⟩⟩ .void) rfl)
    rw [hnode, callType_of_calleeSignature? hcallee]
    refine InferM.bind_eq_ok.mpr ⟨_, s, rfl, ?_⟩
    exact InferM.bind_eq_ok.mpr ⟨_, s, hpromise, rfl⟩
  have hrun : callbackFunction.infer .empty (.node ⟨2⟩) s = .ok .string s := by
    change (callbackFunction.judge callbackFunction.options.maxInferenceDepth).node .empty ⟨2⟩ s = _
    rw [hroom]
    exact InferM.bind_of_ok hcalled
  exact ⟨hrun, infer_promisify callbackFunction_awaits (setting_empty hT within_callbackTable)
    growsTo_callbackTable.le (Memo.within_empty _) (by decide) hform hrun rfl⟩

end Program

end ScriptTyping
