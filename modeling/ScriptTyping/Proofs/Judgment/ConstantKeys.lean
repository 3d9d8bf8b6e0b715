import ScriptTyping.Proofs.Judgment.Frame
import ScriptTyping.Proofs.Judgment.Repetition
import ScriptTyping.Proofs.Termination.Resolution

/-!
# Constant keys read like names

An index access whose key is a text looks the text up as a member, and so does a property access
with that name.  The two prepare the lookup differently.  Indexing reads the upper bound of the
receiver with aliases expanded, and binds `this` to it; a property access binds `this` to the
receiver as it is, and for `this` it adds the type arguments that the class around passes on.
Indexing takes the member of a shape as it is; a property access prefers the declaration behind the
member, and applies the environment to its type.  Where none of this makes a difference, both have
the same type.

## Main definitions

* `World.ReadsPlainly` — receivers whose members are read the same way by both.
* `Program.ReadSameMember` — an index access and a property access with the same receiver and name.
* `Program.keyedMember?` — the member that an index access reads by its key.

## Main results

* `Program.inferFrom_of_keyedMember?` — the property access has the type of the member that is read
  by its key.
-/

namespace ScriptTyping

/-- A member of a shape that no reader changes: no declaration stands behind it, and its type is no
wildcard and mentions nothing that an environment replaces. -/
structure Property.IsPlain (m : Property) (T : TypeTable) : Prop where
  decl : m.decl = none
  unbounded : (T.lookup m.type).isWildcard = false
  closed : ∀ d, ¬T.Mentions m.type d
  thisFree : ¬T.MentionsThis m.type

/-- A receiver that stands for itself: it is neither a wildcard nor a `this` with a receiver nor a
reference to an alias, and if it is a shape, then no reader changes the member. -/
structure World.ReadsPlainly (w : World) (T : TypeTable) (t : TypeId) (name : Symbol) : Prop where
  unbounded : (T.lookup t).isWildcard = false ∧ (T.lookup t).isBoundThis = false
  noAlias : ¬w.IsAliasReference T t
  shape : ∀ members m, T.lookup t = .structural members → findProperty? members name = some m →
    m.IsPlain T

namespace Program

/-- A property access that reads from a receiver with its own type arguments only: nothing is
written, and the receiver is neither `super` nor the `this` of a class that extends another one. -/
structure ReadsDirectly (p : Program) (n : NodeId) (target : Slot) : Prop where
  read : p.tree.isWriteAccess n = false
  noSuper : p.contentAt? target ≠ some .superExpr
  noPassing : p.contentAt? target = some .thisExpr →
    ((p.enclosingClassifier? n).bind fun found => p.decl? found.2).bind (·.superType) = none

/-- An index access with a text as its key, and a property access with that text as its name. -/
structure ReadSameMember (p : Program) (T : TypeTable) (i n : NodeId) (target : Slot) (key : NodeId)
    (name : Symbol) : Prop where
  index : p.content? i = some (.indexedAccess target (some key))
  literal : p.content? key = some (.stringLiteral name)
  property : p.content? n = some (.propertyAccess target name none [])
  symbol : T.internSymbol (T.text name) = (name, T)
  notConstructor : T.text name ≠ "constructor"

/-- The member that an index access reads by its key.  Nothing if the key selects an element, is no
constant, or names no member. -/
def keyedMember? (p : Program) (judge : Judge) (env : Environment) (target index : Slot) :
    InferM (Option TypeId) := do
  if target.isNone || index.isNone || p.contentAt? target = some .superExpr then return none
  let receiver ← judge.slot env target
  let receiver ← p.world.resolveAlias (← TypeM.upperBound receiver)
  let indexType ← judge.slot env index
  match ← p.numericElement? env receiver indexType with
  | some _ => return none
  | none =>
    match ← p.constant? index with
    | some value =>
      let name ← TypeM.internSymbol value.propertyName
      p.memberValue? judge env receiver name
    | none => return none

variable {p : Program} {judge : Judge} {env : Environment} {target index : Slot} {s s' s₁ : Memory}
  {T : TypeTable} {receiver t : TypeId} {name : Symbol}

/-- An index access that reads a member by its key has the type of the member. -/
theorem indexedAccessType_of_keyedMember?
    (h : p.keyedMember? judge env target index s = .ok (some t) s') :
    p.indexedAccessType judge env target index s = .ok t s' := by
  rw [keyedMember?] at h
  rw [indexedAccessType]
  split at h
  · cases h
  rename_i hsome
  rw [if_neg hsome]
  obtain ⟨receiver, s₁, hreceiver, h⟩ := InferM.bind_eq_ok.mp h
  obtain ⟨bound, s₂, hbound, h⟩ := InferM.bind_eq_ok.mp h
  obtain ⟨resolved, s₃, hresolved, h⟩ := InferM.bind_eq_ok.mp h
  obtain ⟨indexType, s₄, hindex, h⟩ := InferM.bind_eq_ok.mp h
  obtain ⟨element, s₅, helement, h⟩ := InferM.bind_eq_ok.mp h
  rw [InferM.bind_of_ok hreceiver, InferM.bind_of_ok hbound, InferM.bind_of_ok hresolved,
    InferM.bind_of_ok hindex, InferM.bind_of_ok helement]
  cases element with
  | some element => cases h
  | none =>
    obtain ⟨value, s₆, hvalue, h⟩ := InferM.bind_eq_ok.mp h
    refine (InferM.bind_of_ok hvalue).trans ?_
    cases value with
    | none => cases h
    | some value =>
      obtain ⟨name, s₇, hname, h⟩ := InferM.bind_eq_ok.mp h
      refine (InferM.bind_of_ok hname).trans ?_
      exact InferM.bind_of_ok h

/-! ### Receivers that stand for themselves -/

theorem upperBound_of_readsPlainly (h : p.world.ReadsPlainly T receiver name) :
    TypeM.upperBound receiver T = .ok receiver T :=
  TypeM.upperBound_of_unbounded h.unbounded.1 h.unbounded.2

theorem resolveAlias_of_readsPlainly (h : p.world.ReadsPlainly T receiver name) :
    p.world.resolveAlias receiver T = .ok receiver T :=
  Subtyping.resolveAlias_of_not_alias h.noAlias

/-! ### What is read by a key -/

/-- A text is the value of its literal. -/
theorem constant?_of_literal {key : NodeId} (h : p.content? key = some (.stringLiteral name)) :
    p.constant? (some key) T = .ok (some (.string (T.text name))) T := by
  have hvalue : Constant.evaluate ⟨p.tree, p.world.declarations, T.symbols⟩ (some key) =
      .ok (some (.string (T.text name))) := by
    obtain ⟨fuel, hfuel⟩ : ∃ fuel,
        Constant.depth ⟨p.tree, p.world.declarations, T.symbols⟩ = fuel + 1 :=
      ⟨_, (Nat.succ_pred_eq_of_pos (Nat.mul_pos (Nat.succ_pos _) (Nat.succ_pos _))).symm⟩
    have hcontent : p.tree.contentAt? (some key) = some (.stringLiteral name) := h
    rw [Constant.evaluate, hfuel, Constant.evalFrom, hcontent]
    rfl
  have hget : (get : TypeM TypeTable) T = .ok T T := rfl
  rw [constant?, TypeM.bind_of_ok hget, hvalue]
  rfl

/-- Judging a literal stores its type at most. -/
theorem slot_of_literal {key : NodeId} (h : p.content? key = some (.stringLiteral name))
    {room : Nat} {u : TypeId} (hT : s.types.WellFormed)
    (hrun : (p.judge room).slot env (some key) s = .ok u s') :
    s.types.GrowsTo s'.types ∧ s'.types.Has u ∧ s'.memo = s.memo ∧ s.fallbacks ≤ s'.fallbacks := by
  obtain ⟨node, hnode, hcontent⟩ := Option.map_eq_some_iff.mp h
  change (p.judge room).node env key s = _ at hrun
  cases room with
  | zero =>
    simp only [judge, hnode] at hrun
    cases hrun
    exact ⟨.refl hT, hT.has_reserved (by decide), rfl, Nat.le_succ _⟩
  | succ room =>
    simp only [judge, hnode, hcontent] at hrun
    obtain ⟨T', hliteral, rfl⟩ := InferM.liftM_eq_ok.mp hrun
    obtain ⟨hg, hu, -⟩ := TypeM.stable_literal hT (.string name) u T' hliteral
    exact ⟨hg, hu, rfl, Nat.le_refl _⟩

/-- A member that is read by its key from a receiver that stands for itself is looked up in the
memory that the receiver leaves, but for more types. -/
theorem memberValue?_of_keyedMember? {i n key : NodeId} {room : Nat} {sr : Memory}
    (hread : p.ReadSameMember s.types i n target key name) (hsetting : p.Setting env s.types)
    (hmemo : s.memo.Within s.types) (hreceiver : (p.judge room).slot env target s = .ok receiver sr)
    (hplain : p.world.ReadsPlainly sr.types receiver name)
    (h : p.keyedMember? (p.judge room) env target (some key) s = .ok (some t) s₁)
    (hnone : s₁.fallbacks = s.fallbacks) :
    sr.fallbacks = s.fallbacks ∧ ∃ T', sr.types.GrowsTo T' ∧
      p.memberValue? (p.judge room) env receiver name ⟨T', sr.memo, sr.fallbacks⟩ =
        .ok (some t) s₁ := by
  have hasks := Comparison.asks_repeating p room
  have hscope : Comparison.repeating.Scope p s.types env env := ⟨.refl env, fun _ => hsetting⟩
  obtain ⟨hle, hg, hmemor, ⟨_, rfl, hhas⟩, -⟩ :=
    Comparison.repeating.slot hasks hscope target s receiver sr rfl hmemo hreceiver
  rw [keyedMember?] at h
  split at h
  · cases h
  rw [InferM.bind_of_ok hreceiver,
    InferM.bind_of_ok (InferM.liftM_of_ok (upperBound_of_readsPlainly hplain)),
    InferM.bind_of_ok (InferM.liftM_of_ok (resolveAlias_of_readsPlainly hplain))] at h
  obtain ⟨indexType, s₂, hindex, h⟩ := InferM.bind_eq_ok.mp h
  obtain ⟨hg₂, hhas₂, hmemo₂, hle₂⟩ := slot_of_literal hread.literal hg.wellFormed hindex
  obtain ⟨element, s₃, hlift, h⟩ := InferM.bind_eq_ok.mp h
  obtain ⟨T₃, helement, rfl⟩ := InferM.liftM_eq_ok.mp hlift
  obtain ⟨hg₃, -, -⟩ := stable_numericElement? (hsetting.grow (hg.trans hg₂))
    ((hhas trivial).of_le hg₂.le) hhas₂ element T₃ helement
  cases element with
  | some element => cases h
  | none =>
    have hlater := (hg.trans hg₂).trans hg₃
    have htext : T₃.text name = s.types.text name := TypeTable.resolve_of_le hlater.le
      (hsetting.program.texts _ _ hread.literal name (List.mem_singleton_self _))
    have hsymbol : TypeM.internSymbol (s.types.text name) T₃ = .ok name T₃ := by
      have hle : (s.types.internSymbol (s.types.text name)).2 ≤ T₃ := hread.symbol ▸ hlater.le
      change EStateM.Result.ok (T₃.internSymbol _).1 (T₃.internSymbol _).2 = _
      rw [TypeTable.internSymbol_of_le hle, hread.symbol]
    have hvalue := constant?_of_literal (T := T₃) hread.literal
    rw [htext] at hvalue
    obtain ⟨value, s₄, hlift, h⟩ := InferM.bind_eq_ok.mp h
    cases (InferM.liftM_of_ok (s := ⟨T₃, s₂.memo, s₂.fallbacks⟩) hvalue).symm.trans hlift
    obtain ⟨found, s₅, hlift, h⟩ := InferM.bind_eq_ok.mp h
    cases (InferM.liftM_of_ok (s := ⟨T₃, s₂.memo, s₂.fallbacks⟩) hsymbol).symm.trans hlift
    obtain ⟨hframed, -⟩ := (Correspondence.framed p).memberValue? p.mirror_framed
      (p.asks_framed room) env receiver name _ _ _ h
    have hle₃ : s₂.fallbacks ≤ s₁.fallbacks := hframed.fallbacks
    obtain ⟨hcount, hcount₂⟩ : sr.fallbacks = s.fallbacks ∧ s₂.fallbacks = sr.fallbacks := by omega
    exact ⟨hcount, T₃, hg₂.trans hg₃, hmemo₂ ▸ hcount₂ ▸ h⟩

/-! ### What is read by a name -/

/-- A member is read with the type arguments of the receiver and with `this` bound to it. -/
theorem ReadsDirectly.accessScope {n : NodeId} {scope : Environment} {T' : TypeTable}
    (h : p.ReadsDirectly n target)
    (hscope : p.world.addSubstitutions env receiver T = .ok scope T') :
    p.accessScope env n (p.contentAt? target) receiver T = .ok (scope.setThis receiver) T' := by
  rw [Program.accessScope, TypeM.bind_of_ok hscope]
  have hnothing : (receiver.isUnknown || true) = true := Bool.or_true _
  cases hcontent : p.contentAt? target with
  | none => exact congrFun (if_pos hnothing) T'
  | some content =>
    cases content with
    | superExpr => exact absurd hcontent h.noSuper
    | thisExpr =>
      rw [h.noPassing hcontent]
      split <;> rfl
    | _ => exact congrFun (if_pos hnothing) T'

/-- A property access runs through its parts. -/
theorem readProperty_eq_ok {n : NodeId} {s₂ s₃ s₄ : Memory} {scope : Environment}
    {U V V' : TypeTable} {u u' : TypeId} (hdirect : p.ReadsDirectly n target)
    (hslot : judge.slot env target s₂ = .ok receiver s₃)
    (hscope : p.world.addSubstitutions env receiver s₃.types = .ok scope U)
    (hupper : TypeM.upperBound receiver U = .ok receiver U)
    (haccess : p.accessedType judge (scope.setThis receiver) receiver name none []
      ⟨U, s₃.memo, s₃.fallbacks⟩ = .ok (u, scope.setThis receiver) s₄)
    (hsubstitute : (scope.setThis receiver).substitute u s₄.types = .ok u' V)
    (hcapture : capture u' V = .ok t V') :
    p.readProperty judge env n target name none [] s₂ = .ok t { s₄ with types := V' } := by
  rw [readProperty, InferM.bind_of_ok hslot]
  dsimp only
  rw [InferM.bind_of_ok (InferM.liftM_of_ok (hdirect.accessScope hscope)),
    InferM.bind_of_ok (InferM.liftM_of_ok hupper), InferM.bind_of_ok haccess]
  dsimp only
  rw [InferM.bind_of_ok (InferM.liftM_of_ok hsubstitute), hdirect.read, if_neg (by decide),
    InferM.bind_of_ok (InferM.liftM_of_ok hcapture), if_neg hdirect.noSuper]
  rfl

theorem shapeMember?_of_shape (name : Symbol) {members : List Property}
    (hshape : T.lookup receiver = .structural members) :
    shapeMember? receiver name T = .ok ((findProperty? members name).map (·.type)) T := by
  rw [shapeMember?, TypeM.bind_of_ok (TypeM.lookup_run _ T), hshape]
  rfl

/-- By any name but `constructor`, the declaration of the member decides, and then the shape. -/
theorem accessedType_of_name (hname : s.types.text name ≠ "constructor")
    (hdynamic : receiver ≠ .dynamicAny) :
    p.accessedType judge env receiver name none [] s = (do
      match ← p.memberOf? receiver name with
      | some member => return (← judge.decl env member, env)
      | none => return ((← shapeMember? receiver name).getD .unknown, env) :
        InferM (TypeId × Environment)) s := by
  have hconstructor : p.isConstructorProperty name none s.types = .ok false s.types := by
    change EStateM.Result.ok (s.types.text name == "constructor") s.types = _
    rw [beq_false_of_ne hname]
  rw [accessedType, InferM.bind_of_ok (InferM.liftM_of_ok hconstructor), if_neg (by decide),
    beq_false_of_ne hdynamic, Bool.and_false, if_neg (by decide)]
  rfl

/-- A member that is found has the type of its declaration. -/
theorem accessedType_of_member {member : DeclId} (hname : s.types.text name ≠ "constructor")
    (hdynamic : receiver ≠ .dynamicAny)
    (hmember : p.memberOf? receiver name s.types = .ok (some member) s.types)
    (hdecl : judge.decl env member s = .ok t s') :
    p.accessedType judge env receiver name none [] s = .ok (t, env) s' := by
  have hlookup : (liftM (p.memberOf? receiver name) : InferM _) s = .ok (some member) s :=
    InferM.liftM_of_ok hmember
  rw [accessedType_of_name hname hdynamic, InferM.bind_of_ok hlookup]
  exact InferM.bind_of_ok hdecl

/-- A member of a shape without a declaration has the type in the shape. -/
theorem accessedType_of_shape {members : List Property} {m : Property} (hfuel : 0 < p.world.fuel)
    (hinit : .initial ≤ s.types) (hname : s.types.text name ≠ "constructor")
    (hshape : s.types.lookup receiver = .structural members)
    (hm : findProperty? members name = some m) (hdecl : m.decl = none) :
    p.accessedType judge env receiver name none [] s = .ok (m.type, env) s := by
  have hdynamic : receiver ≠ .dynamicAny := by
    rintro rfl
    have hlookup : s.types.lookup .dynamicAny = .dynamicAny :=
      TypeTable.lookup_of_le hinit (by decide)
    cases hshape.symm.trans hlookup
  have hmember : p.memberOf? receiver name s.types = .ok none s.types := by
    rw [memberOf?, TypeM.bind_of_ok (TypeM.lookup_run _ _),
      World.resolveMember?_of_shape hfuel hshape, hm, Option.bind_some, hdecl]
  have hlookup : (liftM (p.memberOf? receiver name) : InferM _) s = .ok none s :=
    InferM.liftM_of_ok hmember
  have hfound := shapeMember?_of_shape name hshape
  rw [hm] at hfound
  rw [accessedType_of_name hname hdynamic, InferM.bind_of_ok hlookup]
  exact InferM.bind_of_ok (InferM.liftM_of_ok hfound)

/-! ### The same type -/

variable {n : NodeId} {room : Nat} {T₀ : TypeTable} {sm s₂ : Memory}

/-- Unless there is a fallback, the guard of a property access does not show. -/
theorem readProperty_endsAlike (hfree : env.guardState ⟨.propertyAccess, n⟩ = .absent)
    (preliminary : TypeId) (s : Memory) :
    (p.readProperty (p.judge room) (env.withProvisional ⟨.propertyAccess, n⟩ preliminary) n target
      name none []).EndsAlike (p.readProperty (p.judge room) env n target name none [])
        (Comparison.sameEnd.Same TypeTable.Has) s :=
  Comparison.sameEnd.readProperty p (Comparison.asks_sameEnd p room)
    ⟨Environment.relaxes_of_withProvisional hfree preliminary, False.elim⟩ n target False.elim none
    False.elim s rfl 0

/-- A member of a shape that no reader changes has its own type. -/
theorem readProperty_of_shape {members : List Property} {m : Property} (hfuel : 0 < p.world.fuel)
    (hinit : .initial ≤ T) (hT : T.WellFormed) (hw : p.world.Within T) (hhas : T.Has receiver)
    (hnamed : T.Names name) (hname : T.text name ≠ "constructor")
    (hdirect : p.ReadsDirectly n target)
    (hshape : T.lookup receiver = .structural members)
    (hm : findProperty? members name = some m) (hplain : m.IsPlain T)
    (hlater : T.GrowsTo s₂.types) (hslot : judge.slot env target s₂ = .ok receiver s')
    (hsame : s'.types = s₂.types) :
    ∃ U, s₂.types.GrowsTo U ∧
      p.readProperty judge env n target name none [] s₂ = .ok m.type { s' with types := U } := by
  obtain ⟨scope, U, hscope⟩ := p.world.total_addSubstitutions env receiver s'.types
  have hg : s'.types.GrowsTo U := by
    have hstable := World.stable_receiverBindings (hsame ▸ hlater.wellFormed)
      (hw.of_le (hsame ▸ hlater.le)) (hhas.of_le (hsame ▸ hlater.le))
    rw [World.addSubstitutions_eq] at hscope
    exact ((hstable.map (W := fun _ _ => True) fun _ _ _ _ => trivial) scope U hscope).1
  have hle : T ≤ U := le_trans (hsame ▸ hlater.le) hg.le
  have hmhas : T.Has m.type :=
    hT.hasAll_of_lookup hshape _ (List.mem_map_of_mem (List.mem_of_find?_eq_some hm))
  have hshape' : U.lookup receiver = .structural members := by
    rw [TypeTable.lookup_of_le hle hhas, hshape]
  have hupper : TypeM.upperBound receiver U = .ok receiver U :=
    TypeM.upperBound_of_unbounded (hshape' ▸ rfl) (hshape' ▸ rfl)
  have hname' : U.text name ≠ "constructor" := by
    have htext : U.text name = T.text name := TypeTable.resolve_of_le hle hnamed
    rw [htext]
    exact hname
  have haccess : p.accessedType judge (scope.setThis receiver) receiver name none []
      ⟨U, s'.memo, s'.fallbacks⟩ =
        .ok (m.type, scope.setThis receiver) ⟨U, s'.memo, s'.fallbacks⟩ :=
    accessedType_of_shape hfuel (le_trans hinit hle) hname' hshape' hm hplain.decl
  have hsubstitute : (scope.setThis receiver).substitute m.type U = .ok m.type U :=
    (Environment.substitute_eq_run _ hT hmhas hle).trans <|
      Traversal.recalls_apply hT _ hmhas (fun d hd => absurd hd (hplain.closed d))
        (.inr hplain.thisFree) U hle
  have hcapture : capture m.type U = .ok m.type U := by
    rw [capture, TypeM.bind_of_ok (TypeM.lookup_run _ U), TypeTable.lookup_of_le hle hmhas,
      hplain.unbounded]
    rfl
  have hrun := readProperty_eq_ok hdirect hslot hscope hupper haccess hsubstitute hcapture
  exact ⟨U, hsame ▸ hg, hrun⟩

/-- Where the receiver is no shape with the member, the member is declared.  It is judged with the
receiver in scope, and then its type is substituted and captured. -/
theorem memberValue?_eq_some (hshape : shapeMember? receiver name s.types = .ok none s.types)
    (h : p.memberValue? judge env receiver name s = .ok (some t) s') :
    ∃ member T₁ scope T₂ u s₃ u' T₄ T₅,
      p.memberOf? receiver name s.types = .ok (some member) T₁ ∧
      p.world.receiverScope env receiver T₁ = .ok scope T₂ ∧
      judge.decl scope member ⟨T₂, s.memo, s.fallbacks⟩ = .ok u s₃ ∧
      scope.substitute u s₃.types = .ok u' T₄ ∧ capture u' T₄ = .ok t T₅ ∧
      s' = ⟨T₅, s₃.memo, s₃.fallbacks⟩ := by
  rw [memberValue?, InferM.bind_of_ok (InferM.liftM_of_ok hshape)] at h
  obtain ⟨found, _, hlift, h⟩ := InferM.bind_eq_ok.mp h
  obtain ⟨T₁, hmember, rfl⟩ := InferM.liftM_eq_ok.mp hlift
  cases found with
  | none => cases h
  | some member =>
    obtain ⟨scope, _, hlift, h⟩ := InferM.bind_eq_ok.mp h
    obtain ⟨T₂, hscope, rfl⟩ := InferM.liftM_eq_ok.mp hlift
    obtain ⟨u, s₃, hdecl, h⟩ := InferM.bind_eq_ok.mp h
    obtain ⟨u', _, hlift, h⟩ := InferM.bind_eq_ok.mp h
    obtain ⟨T₄, hsubstitute, rfl⟩ := InferM.liftM_eq_ok.mp hlift
    obtain ⟨captured, _, hlift, h⟩ := InferM.bind_eq_ok.mp h
    obtain ⟨T₅, hcapture, rfl⟩ := InferM.liftM_eq_ok.mp hlift
    cases h
    exact ⟨member, T₁, scope, T₂, u, s₃, u', T₄, T₅, hmember, hscope, hdecl, hsubstitute, hcapture,
      rfl⟩

/-- A declared member has the type that reading it by its key gives. -/
theorem readProperty_of_member (hfuel : 0 < p.world.fuel) (hinit : .initial ≤ sm.types)
    (hsetting : p.Setting env sm.types) (hmemo : sm.memo.Within sm.types)
    (hhas : sm.types.Has receiver) (hwildcard : (sm.types.lookup receiver).isWildcard = false)
    (hthis : (sm.types.lookup receiver).isBoundThis = false) (hnamed : sm.types.Names name)
    (hname : sm.types.text name ≠ "constructor") (hdirect : p.ReadsDirectly n target)
    (hshape : shapeMember? receiver name sm.types = .ok none sm.types)
    (h : p.memberValue? (p.judge room) env receiver name sm = .ok (some t) s₁)
    (hnone : s₁.fallbacks = sm.fallbacks) (hlater : s₁.types ≤ s₂.types)
    (hslot : (p.judge room).slot env target s₂ = .ok receiver { s₂ with memo := sm.memo }) :
    p.readProperty (p.judge room) env n target name none [] s₂ =
      .ok t { s₂ with memo := s₁.memo } := by
  obtain ⟨member, T₁, scope, T₂, value, s₃, substituted, T₄, T₅, hmember, hscope, hdecl,
    hsubstitute, hcapture, rfl⟩ := memberValue?_eq_some hshape h
  obtain ⟨hg₁, -, hmember⟩ :=
    stable_memberOf? hsetting.table hsetting.program.world hhas name _ T₁ hmember
  rw [World.receiverScope_eq, map_eq_pure_bind] at hscope
  obtain ⟨bindings, _, hbindings, hscope⟩ := TypeM.bind_eq_ok.mp hscope
  cases hscope
  obtain ⟨hg₂, hbinds, hbindings⟩ := World.stable_receiverBindings hg₁.wellFormed
    (hsetting.program.world.of_le hg₁.le) (hhas.of_le hg₁.le) bindings T₂ hbindings
  -- The two environments are written from the same pairs, so they have the same entries.
  have hg := hg₁.trans hg₂
  have hscope : Comparison.repeating.Scope p T₂
      ((env.wrap.extend bindings).setThis receiver) ((env.extend bindings).setThis receiver) :=
    ⟨(env.relaxes_unwrap.extend bindings).setThis receiver, fun _ =>
      ((hsetting.grow hg).wrap.extend hbinds).setThis (hhas.of_le hg.le)⟩
  obtain ⟨-, hg₃, -, ⟨_, rfl, hvalue⟩, hdecl⟩ := (Comparison.asks_repeating p room).decl hscope
    member ⟨T₂, sm.memo, sm.fallbacks⟩ value s₃ rfl (hmemo.of_le hg.le) hdecl
  obtain ⟨hg₄, hsubstituted, hsubstitute⟩ := Environment.stable_substitute hg₃.wellFormed
    ((hscope.setting trivial).grow hg₃).environment (hvalue trivial) substituted T₄ hsubstitute
  obtain ⟨hg₅, -, hcapture⟩ := stable_capture hg₄.wellFormed hsubstituted t T₅ hcapture
  -- From the later table on, everything returns what it returned before.
  have hle₄ : T₄ ≤ s₂.types := le_trans hg₅.le hlater
  have hle₃ : s₃.types ≤ s₂.types := le_trans hg₄.le hle₄
  have hle₂ : T₂ ≤ s₂.types := le_trans hg₃.le hle₃
  have hle : sm.types ≤ s₂.types := le_trans hg.le hle₂
  have hwrites : p.world.addSubstitutions env receiver s₂.types =
      .ok (env.extend bindings) s₂.types := by
    rw [World.addSubstitutions_eq, map_eq_pure_bind, TypeM.bind_of_ok (hbindings _ hle₂)]
    rfl
  have hrow := TypeTable.lookup_of_le hle hhas
  have hupper : TypeM.upperBound receiver s₂.types = .ok receiver s₂.types :=
    TypeM.upperBound_of_unbounded (hrow ▸ hwildcard) (hrow ▸ hthis)
  have htext : s₂.types.text name = sm.types.text name := TypeTable.resolve_of_le hle hnamed
  have hfound := hmember s₂.types (le_trans hg₂.le hle₂)
  have hdynamic : receiver ≠ .dynamicAny := by
    rintro rfl
    rw [memberOf?, TypeM.bind_of_ok (TypeM.lookup_run _ _)] at hfound
    cases (World.resolveMember?_of_memberless hfuel (le_trans hinit hle) (.inr rfl) _).symm.trans
      hfound
  obtain ⟨_, ⟨rfl, -⟩, hagain⟩ := hdecl hnone 0 s₂.types s₂.fallbacks hle₃
  have haccess : p.accessedType (p.judge room) ((env.extend bindings).setThis receiver) receiver
      name none [] { s₂ with memo := sm.memo } =
        .ok (value, (env.extend bindings).setThis receiver) { s₂ with memo := s₃.memo } :=
    accessedType_of_member (htext ▸ hname) hdynamic hfound hagain
  rw [← hscope.relaxes.substitute] at hsubstitute
  exact readProperty_eq_ok hdirect hslot hwrites hupper haccess (hsubstitute _ hle₄)
    (hcapture _ hlater)

/-- A member that is read by its key from a receiver that stands for itself is read by its name. -/
theorem readProperty_of_memberValue? (hfuel : 0 < p.world.fuel) (hinit : .initial ≤ T)
    (hsetting : p.Setting env T) (hhas : T.Has receiver)
    (hplain : p.world.ReadsPlainly T receiver name) (hnamed : T.Names name)
    (hname : T.text name ≠ "constructor") (hdirect : p.ReadsDirectly n target)
    (h : p.memberValue? (p.judge room) env receiver name sm = .ok (some t) s₁)
    (hnone : s₁.fallbacks = sm.fallbacks) (hg : T.GrowsTo sm.types)
    (hmemo : sm.memo.Within sm.types) (hlater : s₁.types.GrowsTo s₂.types)
    (hslot : (p.judge room).slot env target s₂ = .ok receiver { s₂ with memo := sm.memo }) :
    ∃ U, s₂.types.GrowsTo U ∧ p.readProperty (p.judge room) env n target name none [] s₂ =
      .ok t ⟨U, s₁.memo, s₂.fallbacks⟩ := by
  have hrow := TypeTable.lookup_of_le hg.le hhas
  have hdeclared (hfound : shapeMember? receiver name sm.types = .ok none sm.types) :
      ∃ U, s₂.types.GrowsTo U ∧ p.readProperty (p.judge room) env n target name none [] s₂ =
        .ok t ⟨U, s₁.memo, s₂.fallbacks⟩ := by
    have htext : sm.types.text name = T.text name := TypeTable.resolve_of_le hg.le hnamed
    exact ⟨s₂.types, .refl hlater.wellFormed, readProperty_of_member hfuel (le_trans hinit hg.le)
      (hsetting.grow hg) hmemo (hhas.of_le hg.le) (hrow ▸ hplain.unbounded.1)
      (hrow ▸ hplain.unbounded.2) (hnamed.of_le hg.le) (htext ▸ hname) hdirect hfound h hnone
      hlater.le hslot⟩
  cases hdata : T.lookup receiver with
  | structural members =>
    have hfound := shapeMember?_of_shape name (hrow.trans hdata)
    cases hm : findProperty? members name with
    | none => exact hdeclared (by rw [hfound, hm]; rfl)
    | some m =>
      rw [hm] at hfound
      rw [memberValue?, InferM.bind_of_ok (InferM.liftM_of_ok hfound)] at h
      cases h
      have hgrows : T.GrowsTo s₂.types := hg.trans hlater
      exact readProperty_of_shape hfuel hinit hsetting.table hsetting.program.world hhas hnamed
        hname hdirect hdata hm (hplain.shape members m hdata hm) hgrows hslot rfl
  | _ =>
    refine hdeclared ?_
    rw [shapeMember?, TypeM.bind_of_ok (TypeM.lookup_run _ _), hrow, hdata]
    rfl

/-- An index access that is answered by the member with a text as its name, and the property access
with that name, read one after the other in the same position and with the same memo cells, have the
same type, unless one of them is cut short.  The receiver has to stand for itself, and it is neither
`this` nor `super`. -/
theorem inferFrom_of_keyedMember? {depth : Nat} {i key : NodeId} {sr : Memory}
    (hfuel : 0 < p.world.fuel) (hdepth : depth < p.options.maxInferenceDepth)
    (hinit : .initial ≤ s.types) (hsetting : p.Setting env s.types) (hmemo : s.memo.Within s.types)
    (hread : p.ReadSameMember s.types i n target key name) (hdirect : p.ReadsDirectly n target)
    (hfree : env.guardState ⟨.propertyAccess, n⟩ = .absent)
    (hreceiver : (p.judgeAt (depth + 1)).slot env target s = .ok receiver sr)
    (hplain : p.world.ReadsPlainly sr.types receiver name)
    (hmember : p.keyedMember? (p.judgeAt (depth + 1)) env target (some key) s = .ok (some t) s₁)
    (hnone : s₁.fallbacks = s.fallbacks) :
    p.inferFrom depth env (.node i) s = .ok t s₁ ∧
    ∀ s₂ : Memory, s₁.types.GrowsTo s₂.types → s₂.memo = s.memo →
      (p.inferFrom depth env (.node n)).NotesNoFallback s₂ →
      ∃ U, s₂.types.GrowsTo U ∧
        p.inferFrom depth env (.node n) s₂ = .ok t ⟨U, s₁.memo, s₂.fallbacks⟩ := by
  rw [judgeAt_eq] at hreceiver hmember
  constructor
  · rw [p.inferFrom_eq_judgment hdepth, judgment, hread.index]
    exact indexedAccessType_of_keyedMember? hmember
  · intro s₂ hlater hcells hnotes
    have hdotted : p.inferFrom depth env (.node n) = p.readProperty (p.judgeAt (depth + 1))
        (env.withProvisional ⟨.propertyAccess, n⟩ .any) n target name none [] := by
      rw [p.inferFrom_eq_judgment hdepth, judgment, hread.property]
      refine (p.propertyAccessType_eq _ env n target name none []).trans ?_
      rw [hfree]
    have hscope : Comparison.repeating.Scope p s.types env env := ⟨.refl env, fun _ => hsetting⟩
    obtain ⟨-, hg, hmemor, ⟨_, rfl, hhas⟩, hslot⟩ := Comparison.repeating.slot
      (Comparison.asks_repeating p _) hscope target s receiver sr rfl hmemo hreceiver
    obtain ⟨hcount, T', hg', hvalue⟩ :=
      memberValue?_of_keyedMember? hread hsetting hmemo hreceiver hplain hmember hnone
    obtain ⟨hframed, -⟩ := (Correspondence.framed p).memberValue? p.mirror_framed
      (p.asks_framed _) env receiver name _ _ _ hvalue
    have hle : T' ≤ s₁.types := hframed.types
    -- The receiver is inferred again, and then the member is looked up by its name.
    obtain ⟨_, ⟨rfl, -⟩, hslot⟩ := hslot hcount 0 s₂.types s₂.fallbacks
      (le_trans hg'.le (le_trans hle hlater.le))
    rw [← hcells] at hslot
    have hnamed : s.types.Names name :=
      hsetting.program.texts _ _ hread.literal name (List.mem_singleton_self _)
    have htext : sr.types.text name = s.types.text name := TypeTable.resolve_of_le hg.le hnamed
    obtain ⟨U, hgU, hrun⟩ := readProperty_of_memberValue? hfuel (le_trans hinit hg.le)
      (hsetting.grow hg) (hhas trivial) hplain (hnamed.of_le hg.le) (htext ▸ hread.notConstructor)
      hdirect hvalue (hnone.trans hcount.symm) hg' (hmemor.of_le hg'.le) hlater
      hslot
    -- Without a fallback the guard of the property access itself does not show.
    rw [hdotted] at hnotes ⊢
    obtain ⟨_, hdone, rfl, -⟩ := (readProperty_endsAlike hfree .any s₂).of_ok hnotes hrun
    exact ⟨U, hgU, hdone⟩

/-- A class with a field, and a variable of that class with two accesses to the field. -/
def annotatedField : Program where
  world.declarations := ⟨#[{ kind := .classType, name := .none, members := [⟨2⟩] },
    { kind := .field, name := .none, declaredType := some .number },
    { kind := .var, name := .none, declaredType := some ⟨16⟩ }]⟩
  world.builtins := default
  world.fuel := 1
  tree := ⟨#[⟨.identifier .none (some ⟨3⟩), none⟩, ⟨.stringLiteral .none, none⟩,
    ⟨.indexedAccess (some ⟨0⟩) (some ⟨1⟩), none⟩,
    ⟨.propertyAccess (some ⟨0⟩) .none none [], none⟩]⟩
  flow := .empty
  options := {}

/-- The class and the text of the key. -/
def fieldTable : TypeTable :=
  (TypeTable.initial.store (.nominal ⟨1⟩ [])).store (.literal (.string .none))

private theorem growsTo_fieldTable : TypeTable.initial.GrowsTo fieldTable := by
  rw [fieldTable]
  iterate 2 refine TypeTable.GrowsTo.store ?_ (by decide) (by decide)
  exact .refl TypeTable.wellFormed_initial

/-- The program mentions the class and the name of the field. -/
private theorem within_fieldTable : annotatedField.Within fieldTable := by
  have hcontent {n : NodeId} {content : Content} (hn : annotatedField.content? n = some content) :
      content.types = [] ∧ ∀ s ∈ content.texts, s = .none := by
    refine Tree.forall_content?
      (P := fun content => content.types = [] ∧ ∀ s ∈ content.texts, s = .none) ?_ hn
    decide
  refine ⟨World.within_of_entries (by decide) (by decide), fun n content hn => ?_,
    fun n content hn s hs => ?_⟩
  · rw [(hcontent hn).1]
    exact TypeTable.hasAll_nil
  · rw [(hcontent hn).2 s hs]
    exact Nat.zero_lt_one

/-- The field is read by its key and by its name, and both times it is a number. -/
theorem inferFrom_of_keyedMember?_annotatedField :
    annotatedField.inferFrom 0 .empty (.node ⟨2⟩) ⟨fieldTable, .empty, 0⟩ =
      .ok .number ⟨fieldTable, .empty, 0⟩ ∧
    ∃ U, annotatedField.inferFrom 0 .empty (.node ⟨3⟩) ⟨fieldTable, .empty, 0⟩ =
      .ok .number ⟨U, .empty, 0⟩ := by
  let s : Memory := ⟨fieldTable, .empty, 0⟩
  have hT := growsTo_fieldTable.wellFormed
  have hposition : fieldTable.symbols.positions[""]? = some Symbol.none :=
    Std.HashMap.getElem?_insert_self
  have hsymbol : fieldTable.internSymbol "" = (.none, fieldTable) := by
    simp only [TypeTable.internSymbol, SymbolTable.intern, hposition]
  have hread : annotatedField.ReadSameMember fieldTable ⟨2⟩ ⟨3⟩ (some ⟨0⟩) ⟨1⟩ .none :=
    ⟨rfl, rfl, rfl, hsymbol, by decide⟩
  have hdirect : annotatedField.ReadsDirectly ⟨3⟩ (some ⟨0⟩) :=
    ⟨rfl, by decide, fun h => by cases h⟩
  have hplain : annotatedField.world.ReadsPlainly fieldTable ⟨16⟩ .none := by
    refine ⟨⟨rfl, rfl⟩, ?_, fun members m h => by cases h⟩
    rintro ⟨decl, args, hlookup, hkind⟩
    cases hlookup
    cases hkind
  -- The key is stored already, so that nothing is stored by any step.
  have hliteral : TypeM.stringLiteral .none fieldTable = .ok ⟨17⟩ fieldTable := by
    have hhandle : fieldTable.handles[TypeData.literal (.string .none)]? = some ⟨17⟩ :=
      TypeTable.handles_store _ _
    change EStateM.Result.ok (fieldTable.intern _).1 (fieldTable.intern _).2 = _
    rw [TypeTable.intern_of_handle hhandle]
  have hreceiver : (annotatedField.judgeAt 1).slot .empty (some ⟨0⟩) s = .ok ⟨16⟩ s := rfl
  have hmember : annotatedField.keyedMember? (annotatedField.judgeAt 1) .empty (some ⟨0⟩)
      (some ⟨1⟩) s = .ok (some .number) s := by
    have hindex : (annotatedField.judgeAt 1).slot .empty (some ⟨1⟩) s = .ok ⟨17⟩ s :=
      InferM.liftM_of_ok hliteral
    have hvalue := constant?_of_literal (p := annotatedField) (T := fieldTable) hread.literal
    have hname : TypeM.internSymbol "" fieldTable = .ok .none fieldTable := by
      change EStateM.Result.ok (fieldTable.internSymbol _).1 (fieldTable.internSymbol _).2 = _
      rw [hsymbol]
    have hbound : (liftM (TypeM.upperBound ⟨16⟩) : InferM TypeId) s = .ok ⟨16⟩ s := rfl
    have hresolved : (liftM (annotatedField.world.resolveAlias ⟨16⟩) : InferM TypeId) s =
        .ok ⟨16⟩ s := rfl
    have helement : (liftM (annotatedField.numericElement? .empty ⟨16⟩ ⟨17⟩) :
        InferM (Option TypeId)) s = .ok none s := rfl
    rw [keyedMember?, if_neg (by decide), InferM.bind_of_ok hreceiver, InferM.bind_of_ok hbound,
      InferM.bind_of_ok hresolved, InferM.bind_of_ok hindex, InferM.bind_of_ok helement]
    refine (InferM.bind_of_ok (InferM.liftM_of_ok hvalue)).trans ?_
    refine (InferM.bind_of_ok (InferM.liftM_of_ok hname)).trans ?_
    rfl
  obtain ⟨hindexed, hdotted⟩ := inferFrom_of_keyedMember? (by decide) (by decide)
    growsTo_fieldTable.le (setting_empty hT within_fieldTable) (Memo.within_empty _) hread
    hdirect rfl hreceiver hplain hmember rfl
  obtain ⟨U, -, hrun⟩ := hdotted s (.refl hT) rfl rfl
  exact ⟨hindexed, U, hrun⟩

end Program

end ScriptTyping
