import Mathlib.Order.WellFoundedSet
import ScriptTyping.Proofs.Hierarchy.Closure
import ScriptTyping.Proofs.Stability.Members
import ScriptTyping.Proofs.Substitution.Layer
import ScriptTyping.Proofs.Termination.Subtyping

/-!
# Members are inherited along subtyping

Where clauses name classes and interfaces and lead nowhere in a circle, the classifiers above a
reference can be read off the declarations, whatever the type arguments are: a step up from a
reference leads to references to the declarations directly above its own.  So the closure of a
reference holds references to exactly the declarations that can be reached, and `Object` is among
them.  Both subtyping and member lookup read that closure, and a member of the upper type is found
on the lower one.

A type that stands for several alternatives has the members that all of them agree on, which may be
fewer than their common super type has.  Object shapes are left open.  One is below `Object`, as a
function type is, but of the two only the function type is looked up in the classifiers above it, so
the shape lacks the members of `Object`; nothing here depends on whether it should have them.

## Main definitions

* `World.Ascends` — one step up from a declaration, with any type arguments.
* `World.Hierarchical` — clauses name classes and interfaces, and no circle.
* `World.HasAncestry` — types whose members are looked up among classifiers.

## Main results

* `World.Hierarchical.stable_directSupertypes` — one step up from a reference.
* `World.Hierarchical.reaches_object` — `Object` stands above all classes and interfaces.
* `World.resolveMember?_of_isSubtype` — members are inherited.
* `World.resolveMember?_not_inherited` — they are not by alternatives that override them.
-/

namespace ScriptTyping

theorem TypeTable.lookup_nominal_of_le {T T' : TypeTable} {t : TypeId} {d : DeclId}
    {args : List TypeId} (hle : T ≤ T') (ht : T.lookup t = .nominal d args) :
    T.Has t ∧ T'.lookup t = .nominal d args := by
  have hHas : T.Has t := has_of_lookup_ne (by rw [ht]; exact nofun)
  exact ⟨hHas, (lookup_of_le hle hHas).trans ht⟩

/-- Instantiating a reference gives a reference to the same declaration. -/
theorem Substitution.lookup_instantiate {T T' : TypeTable} {s : Substitution} {t u : TypeId}
    {d : DeclId} {args : List TypeId} (hT : T.WellFormed) (hs : s.Within T)
    (ht : T.lookup t = .nominal d args) (h : s.instantiate t T = .ok u T') :
    ∃ args', T'.lookup u = .nominal d args' := by
  have hHas := (TypeTable.lookup_nominal_of_le le_rfl ht).1
  rw [instantiate_eq_run s hT hHas le_rfl] at h
  exact Traversal.lookup_apply_nominal hT hs.traversal hHas ht h

/-- The list holds references to exactly the declarations with a property. -/
structure TypeTable.RefersTo (T : TypeTable) (ts : List TypeId) (E : DeclId → Prop) : Prop where
  sound : ∀ t ∈ ts, ∃ d args, E d ∧ T.lookup t = .nominal d args
  complete : ∀ d, E d → ∃ t ∈ ts, ∃ args, T.lookup t = .nominal d args

namespace World

variable {w : World} {T₀ T T' : TypeTable} {s t : TypeId} {d e : DeclId} {args : List TypeId}
  {info : Declaration} {all : List TypeId}

/-! ### The graph of declarations -/

/-- The declaration is that of a class or interface. -/
def HasClauses (w : World) (d : DeclId) : Prop :=
  ∃ info, w.decl? d = some info ∧ info.kind.hasClauses = true

/-- A clause of the first declaration refers to the second. -/
def Names (w : World) (T : TypeTable) (d e : DeclId) : Prop :=
  ∃ info t args, w.decl? d = some info ∧ info.kind.hasClauses = true ∧ t ∈ info.clauses ∧
    T.lookup t = .nominal e args

/-- The second declaration stands directly above the first: a clause refers to it, it is `Object`
above a class or interface without super type, or it is the base of an enum. -/
inductive Ascends (w : World) (T : TypeTable) (d : DeclId) : DeclId → Prop
  | clause {e : DeclId} (h : w.Names T d e) : Ascends w T d e
  | root {info : Declaration} (hd : w.decl? d = some info) (hkind : info.kind.hasClauses = true)
      (hsuper : info.superType = none) (hne : d ≠ w.builtins.object) :
      Ascends w T d w.builtins.object
  | enumBase {info : Declaration} {kind : EnumKind} (hd : w.decl? d = some info)
      (hkind : info.kind = .enumType kind) : Ascends w T d (w.builtins.enumBaseOf kind)

/-- Clauses are references to classes and interfaces, and none leads back in a circle.  `Object`,
the class of functions and the bases of enums are classes or interfaces. -/
structure Hierarchical (w : World) (T : TypeTable) : Prop where
  clauses : ∀ d info, w.decl? d = some info → info.kind.hasClauses = true → ∀ t ∈ info.clauses,
    ∃ e args, T.lookup t = .nominal e args ∧ w.HasClauses e
  acyclic : ∀ d, ¬Relation.TransGen (w.Names T) d d
  object : w.HasClauses w.builtins.object
  objectType : T.lookup w.objectType = .nominal w.builtins.object []
  functionType : ∃ e args, T.lookup w.builtins.functionType = .nominal e args ∧ w.HasClauses e
  enumBase : ∀ kind, w.HasClauses (w.builtins.enumBaseOf kind)

theorem Hierarchical.hasClauses_of_ascends (h : w.Hierarchical T) (hstep : w.Ascends T d e) :
    w.HasClauses e := by
  cases hstep with
  | clause hnames =>
    obtain ⟨info, t, args, hd, hkind, ht, hlookup⟩ := hnames
    obtain ⟨e', args', hlookup', he⟩ := h.clauses d info hd hkind t ht
    cases hlookup.symm.trans hlookup'
    exact he
  | root => exact h.object
  | enumBase => exact h.enumBase _

/-- `Object` stands above every class and interface: clauses end in one without super type. -/
theorem Hierarchical.reaches_object (h : w.Hierarchical T) (hd : w.HasClauses d) :
    Relation.ReflTransGen (w.Ascends T) d w.builtins.object := by
  have hfinite : {d | w.HasClauses d}.Finite := by
    refine ((Set.finite_Iic w.declarations.entries.size).image DeclId.mk).subset ?_
    rintro ⟨index⟩ ⟨info, hinfo, -⟩
    refine ⟨index, ?_, rfl⟩
    cases index with
    | zero => exact Nat.zero_le _
    | succ i => exact (Array.getElem?_eq_some_iff.mp hinfo).choose
  let above (e d : DeclId) : Prop := Relation.TransGen (w.Names T) d e
  have : IsStrictOrder DeclId above :=
    { irrefl := h.acyclic, trans := fun _ _ _ hef hde => hde.trans hef }
  have hwf : {d | w.HasClauses d}.WellFoundedOn above := hfinite.wellFoundedOn
  -- The induction goes up: what the clause names comes before what has the clause.
  refine hwf.induction hd (P := fun d => Relation.ReflTransGen (w.Ascends T) d w.builtins.object)
    fun d hd ih => ?_
  obtain ⟨info, hinfo, hkind⟩ := hd
  cases hsuper : info.superType with
  | none =>
    by_cases hobject : d = w.builtins.object
    · rw [hobject]
    · exact .single (.root hinfo hkind hsuper hobject)
  | some t =>
    have ht : t ∈ info.clauses := List.mem_append_left _ (by simp [hsuper])
    obtain ⟨e, args, hlookup, he⟩ := h.clauses d info hinfo hkind t ht
    have hnames : w.Names T d e := ⟨info, t, args, hinfo, hkind, ht, hlookup⟩
    exact .head (.clause hnames) (ih e he (.single hnames))

/-! ### One step up -/

/-- Instantiating references of an earlier table one after the other. -/
private theorem stable_instantiate_references {σ : Substitution} (hle : T₀ ≤ T)
    (hT : T.WellFormed) (hs : σ.Within T) (ts : List TypeId)
    (hts : ∀ t ∈ ts, ∃ e args, T₀.lookup t = .nominal e args) :
    TypeM.Stable (ts.mapM σ.instantiate) T fun T' us => List.Forall₂ (fun t u =>
      ∃ e args args', T₀.lookup t = .nominal e args ∧ T'.lookup u = .nominal e args') ts us := by
  have hHas : ∀ t ∈ ts, T.Has t := fun t ht => by
    obtain ⟨e, args, hlookup⟩ := hts t ht
    exact (TypeTable.lookup_nominal_of_le hle hlookup).1.of_le hle
  refine (TypeM.Stable.mapM_recalls ts hT fun t ht T₁ hg => ?_).mono fun T' us hg h => ?_
  · exact (Substitution.stable_instantiate hg.wellFormed (hs.of_le hg.le)
      ((hHas t ht).of_le hg.le)).mono fun _ _ _ _ => trivial
  · refine ((List.forall₂_and_left _ _).mpr ⟨hts, h⟩).imp fun t u htu => ?_
    obtain ⟨⟨e, args, hlookup⟩, hrecalls⟩ := htu
    obtain ⟨args', hlookup'⟩ := Substitution.lookup_instantiate hg.wellFormed (hs.of_le hg.le)
      (TypeTable.lookup_nominal_of_le (le_trans hle hg.le) hlookup).2 hrecalls.run
    exact ⟨e, args, args', hlookup, hlookup'⟩

/-- One step up from a reference to a class or interface. -/
private theorem Hierarchical.stable_clauseSupertypes (h : w.Hierarchical T₀) (hg : T₀.GrowsTo T)
    (hargs : T.HasAll args) (hd : w.decl? d = some info) (hkind : info.kind.hasClauses = true) :
    TypeM.Stable (w.clauseSupertypes d info args) T
      fun T' above => T'.RefersTo above (w.Ascends T₀ d) := by
  have hs := Substitution.within_ofArgs info.typeParams hargs
  have hreference : ∀ c ∈ info.clauses, ∃ e args, T₀.lookup c = .nominal e args := fun c hc => by
    obtain ⟨e, args, hlookup, -⟩ := h.clauses d info hd hkind c hc
    exact ⟨e, args, hlookup⟩
  rw [clauseSupertypes]
  refine (stable_instantiate_references hg.le hg.wellFormed hs info.superType.toList fun c hc =>
    hreference c (List.mem_append_left _ hc)).bind fun above T₁ hg₁ habove => ?_
  refine (stable_instantiate_references (hg.trans hg₁).le hg₁.wellFormed (hs.of_le hg₁.le)
    info.interfaces fun c hc => hreference c (List.mem_append_right _ hc)).bind
      fun implemented T₂ hg₂ himplemented => .pure hg₂.wellFormed ?_
  have hnamed : List.Forall₂ (fun c u => ∃ e args args', T₀.lookup c = .nominal e args ∧
      T₂.lookup u = .nominal e args') info.clauses (above ++ implemented) :=
    List.rel_append (habove.imp fun c u hcu => by
      obtain ⟨e, args, args', hlookup, hlookup'⟩ := hcu
      exact ⟨e, args, args', hlookup, (TypeTable.lookup_nominal_of_le hg₂.le hlookup').2⟩)
      himplemented
  have hroot : info.superType.isNone && d != w.builtins.object ↔
      info.superType = none ∧ d ≠ w.builtins.object := by simp
  have hobject : T₂.lookup w.objectType = .nominal w.builtins.object [] :=
    (TypeTable.lookup_nominal_of_le ((hg.trans hg₁).trans hg₂).le h.objectType).2
  constructor
  · intro u hu
    rcases List.mem_append.mp hu with hu | hu
    · obtain ⟨c, hc, e, args, args', hlookup, hlookup'⟩ :=
        TypeM.exists_of_mem_of_forall₂ hnamed.flip hu
      exact ⟨e, args', .clause ⟨info, c, args, hd, hkind, hc, hlookup⟩, hlookup'⟩
    · split at hu
      · rename_i hcond
        obtain ⟨hsuper, hne⟩ := hroot.mp hcond
        rw [List.mem_singleton.mp hu]
        exact ⟨_, [], .root hd hkind hsuper hne, hobject⟩
      · cases hu
  · intro e he
    cases he with
    | clause hnames =>
      obtain ⟨info', c, args, hd', -, hc, hlookup⟩ := hnames
      cases hd.symm.trans hd'
      obtain ⟨u, hu, e', args₁, args', hlookup₁, hlookup'⟩ :=
        TypeM.exists_of_mem_of_forall₂ hnamed hc
      cases hlookup.symm.trans hlookup₁
      exact ⟨u, List.mem_append_left _ hu, args', hlookup'⟩
    | root hd' _ hsuper hne =>
      cases hd.symm.trans hd'
      rw [if_pos (hroot.mpr ⟨hsuper, hne⟩)]
      exact ⟨_, List.mem_append_right _ (List.mem_singleton_self _), [], hobject⟩
    | enumBase hd' henum =>
      cases hd.symm.trans hd'
      rw [henum] at hkind
      cases hkind

/-- One step up from a reference to a classifier leads to references to the declarations directly
above the classifier. -/
theorem Hierarchical.stable_directSupertypes (h : w.Hierarchical T₀) (hg : T₀.GrowsTo T)
    (ht : T.lookup t = .nominal d args) (hd : w.decl? d = some info)
    (hclassifier : info.kind.isClassifier = true) :
    TypeM.Stable (w.directSupertypes t) T fun T' above => T'.RefersTo above (w.Ascends T₀ d) := by
  have hT := hg.wellFormed
  have hargs : T.HasAll args := by simpa [ht, TypeData.parts] using hT.hasAll_parts t
  rw [directSupertypes]
  refine .lookup (TypeTable.lookup_nominal_of_le le_rfl ht).1 ?_
  rw [ht]
  dsimp only
  rw [hd]
  dsimp only
  cases hkind : info.kind with
  | classType => exact h.stable_clauseSupertypes hg hargs hd (by rw [hkind]; rfl)
  | interfaceType => exact h.stable_clauseSupertypes hg hargs hd (by rw [hkind]; rfl)
  | enumType kind =>
    have hparts : T.HasAll (TypeData.nominal (w.builtins.enumBaseOf kind) []).parts :=
      TypeTable.hasAll_nil
    refine (TypeM.stable_intern hT hparts).bind fun base T₁ hg₁ hbase => .pure hg₁.wellFormed
      ⟨fun u hu => ?_, fun e he => ⟨base, List.mem_singleton_self _, [], ?_⟩⟩
    · rw [List.mem_singleton.mp hu]
      exact ⟨_, [], .enumBase hd hkind, hbase.2⟩
    · cases he with
      | clause hnames =>
        obtain ⟨info', -, -, hd', hclause, -⟩ := hnames
        cases hd.symm.trans hd'
        rw [hkind] at hclause
        cases hclause
      | root hd' hclause =>
        cases hd.symm.trans hd'
        rw [hkind] at hclause
        cases hclause
      | enumBase hd' henum =>
        cases hd.symm.trans hd'
        cases hkind.symm.trans henum
        exact hbase.2
  | _ =>
    rw [hkind] at hclassifier
    cases hclassifier

/-! ### The closure of a reference -/

/-- The declaration is that of a class, interface or enum. -/
def IsClassifier (w : World) (d : DeclId) : Prop :=
  ∃ info, w.decl? d = some info ∧ info.kind.isClassifier = true

theorem HasClauses.isClassifier (h : w.HasClauses d) : w.IsClassifier d := by
  obtain ⟨info, hinfo, hkind⟩ := h
  refine ⟨info, hinfo, ?_⟩
  cases hk : info.kind <;> rw [hk] at hkind <;> first | rfl | cases hkind

theorem Hierarchical.isClassifier_of_reaches (h : w.Hierarchical T) (hd : w.IsClassifier d)
    (he : Relation.ReflTransGen (w.Ascends T) d e) : w.IsClassifier e := by
  cases he with
  | refl => exact hd
  | tail _ hstep => exact (h.hasClauses_of_ascends hstep).isClassifier

theorem Hierarchical.classifier_reaches_object (h : w.Hierarchical T) (hd : w.IsClassifier d) :
    Relation.ReflTransGen (w.Ascends T) d w.builtins.object := by
  obtain ⟨info, hinfo, hkind⟩ := hd
  cases hk : info.kind with
  | classType | interfaceType => exact h.reaches_object ⟨info, hinfo, by rw [hk]; rfl⟩
  | enumType kind => exact .head (.enumBase hinfo hk) (h.reaches_object (h.enumBase kind))
  | _ =>
    rw [hk] at hkind
    cases hkind

/-- The closure of a reference to a classifier holds references to what can be reached only. -/
theorem Hierarchical.refers_of_mem (h : w.Hierarchical T₀) (hg : T₀.GrowsTo T)
    (ht : T.lookup t = .nominal d args) (hd : w.IsClassifier d) (hclosure : w.IsClosure T t all)
    (hs : s ∈ all) :
    ∃ e args, Relation.ReflTransGen (w.Ascends T₀) d e ∧ T.lookup s = .nominal e args := by
  have hreach := hclosure.sound s hs
  clear hs
  induction hreach with
  | refl => exact ⟨d, args, .refl, ht⟩
  | tail _ hstep ih =>
    obtain ⟨e, args, he, hlookup⟩ := ih
    obtain ⟨info, hinfo, hkind⟩ := h.isClassifier_of_reaches hd he
    obtain ⟨above, hrecalls, hmem⟩ := hstep
    obtain ⟨-, hrefers, -⟩ :=
      h.stable_directSupertypes hg hlookup hinfo hkind above T hrecalls.run
    obtain ⟨e', args', hstep, hlookup'⟩ := hrefers.sound _ hmem
    exact ⟨e', args', he.tail hstep, hlookup'⟩

/-- A closure that was not cut off holds, with a reference to a classifier, references to all
declarations that can be reached. -/
theorem Hierarchical.exists_mem (h : w.Hierarchical T₀) (hg : T₀.GrowsTo T)
    (hclosure : w.IsClosure T t all) (hlimit : all.length < supertypeLimit) (hs : s ∈ all)
    (hlookup : T.lookup s = .nominal d args) (hd : w.IsClassifier d)
    (he : Relation.ReflTransGen (w.Ascends T₀) d e) :
    ∃ u ∈ all, ∃ args, T.lookup u = .nominal e args := by
  induction he with
  | refl => exact ⟨s, hs, args, hlookup⟩
  | tail he hstep ih =>
    obtain ⟨u, hu, args', hlookup'⟩ := ih
    obtain ⟨info, hinfo, hkind⟩ := h.isClassifier_of_reaches hd he
    obtain ⟨above, hrecalls, hall⟩ := hclosure.closed hlimit u hu
    obtain ⟨-, hrefers, -⟩ :=
      h.stable_directSupertypes hg hlookup' hinfo hkind above T hrecalls.run
    obtain ⟨v, hv, args₁, hlookup₁⟩ := hrefers.complete _ hstep
    exact ⟨v, hall v hv, args₁, hlookup₁⟩

/-! ### Member lookup -/

/-- The type is a reference to a class, interface, enum or module import, or a function type. -/
def HasAncestry (w : World) (T : TypeTable) (t : TypeId) : Prop :=
  (∃ d args info, T.lookup t = .nominal d args ∧ w.decl? d = some info ∧
    (info.kind.isClassifier = true ∨ info.kind = .moduleImport)) ∨
  ∃ signature, T.lookup t = .function signature

/-- `Object` is in the closure of a type with ancestry. -/
theorem Hierarchical.exists_object_mem (h : w.Hierarchical T₀) (hg : T₀.GrowsTo T)
    (ht : w.HasAncestry T t) (hclosure : w.IsClosure T t all)
    (hlimit : all.length < supertypeLimit) :
    ∃ u ∈ all, ∃ args, T.lookup u = .nominal w.builtins.object args := by
  obtain ⟨above, hrecalls, hall⟩ := hclosure.closed hlimit t hclosure.mem
  have hstep {x : TypeId} (hx : (w.directSupertypes t) T = .ok [x] T) : x ∈ all := by
    cases hrecalls.run.symm.trans hx
    exact hall x (List.mem_singleton_self x)
  have hread : TypeM.lookup t T = .ok (T.lookup t) T := rfl
  rcases ht with ⟨d, args, info, hlookup, hd, hclassifier | himport⟩ | ⟨signature, hlookup⟩
  · exact h.exists_mem hg hclosure hlimit hclosure.mem hlookup ⟨info, hd, hclassifier⟩
      (h.classifier_reaches_object ⟨info, hd, hclassifier⟩)
  · have hobject : w.objectType ∈ all := hstep (by
      rw [directSupertypes, TypeM.bind_of_ok hread, hlookup]
      dsimp only
      rw [hd]
      dsimp only
      rw [himport]
      rfl)
    exact ⟨_, hobject, [], (TypeTable.lookup_nominal_of_le hg.le h.objectType).2⟩
  · have hfunction : w.builtins.functionType ∈ all := hstep (by
      rw [directSupertypes, TypeM.bind_of_ok hread, hlookup]
      rfl)
    obtain ⟨e, args, hlookup', he⟩ := h.functionType
    exact h.exists_mem hg hclosure hlimit hfunction
      (TypeTable.lookup_nominal_of_le hg.le hlookup').2 he.isClassifier (h.reaches_object he)

/-- What the classifiers in a list of types declare under a name. -/
def declared? (w : World) (T : TypeTable) (name : Symbol) (isStatic : Bool) (all : List TypeId) :
    Option DeclId :=
  (all.filterMap fun s => classifierOf? (T.lookup s)).findSome? fun decl =>
    if (w.declarations.kind? decl).any DeclKind.isClassifier then
      w.declarations.ownedMember? decl name isStatic
    else none

/-- Lookup on a type whose members are looked up among classifiers reads the closure. -/
theorem yields_declaredMember? (hT : T.WellFormed) (hw : w.Within T) (ht : T.Has t) (name : Symbol)
    (isStatic : Bool) :
    TypeM.Yields (w.declaredMember? ⟨name, true, isStatic⟩ t) T fun T' found => ∃ all,
      w.IsClosure T' t all ∧ TypeM.Recalls (w.supertypes t) T' all ∧
      found = w.declared? T' name isStatic all := by
  rw [declaredMember?, classifierChain]
  refine ((yields_supertypes_isClosure hT hw ht).bind (W := fun T' chain => ∃ all,
    w.IsClosure T' t all ∧ TypeM.Recalls (w.supertypes t) T' all ∧
    chain = all.filterMap fun s => classifierOf? (T'.lookup s)) fun all T₁ hg₁ hall =>
      .get (.pure hg₁.wellFormed ⟨all, hall.1, hall.2, rfl⟩)).bind fun chain T₁ hg₁ hchain =>
        .pure hg₁.wellFormed ?_
  obtain ⟨all, hclosure, hrecalls, rfl⟩ := hchain
  exact ⟨all, hclosure, hrecalls, rfl⟩

/-- A member that one of the types declares is found. -/
theorem isSome_declared? {name : Symbol} {isStatic : Bool} {m : DeclId} (hs : s ∈ all)
    (hlookup : T.lookup s = .nominal d args) (hd : w.IsClassifier d)
    (hm : w.declarations.ownedMember? d name isStatic = some m) :
    ∃ m', w.declared? T name isStatic all = some m' := by
  rw [← Option.isSome_iff_exists, declared?, List.isSome_findSome?]
  refine List.any_eq_true.mpr ⟨d, List.mem_filterMap.mpr ⟨s, hs, by rw [hlookup]; rfl⟩, ?_⟩
  obtain ⟨info, hinfo, hkind⟩ := hd
  have hget : w.declarations.get? d = some info := hinfo
  simp [Declarations.kind?, hget, hkind, hm]

theorem exists_of_declared? {name : Symbol} {isStatic : Bool} {m : DeclId}
    (h : w.declared? T name isStatic all = some m) :
    ∃ s ∈ all, ∃ d, classifierOf? (T.lookup s) = some d ∧
      w.declarations.ownedMember? d name isStatic = some m := by
  obtain ⟨d, hd, hfound⟩ := List.exists_of_findSome?_eq_some h
  obtain ⟨s, hs, hlookup⟩ := List.mem_filterMap.mp hd
  refine ⟨s, hs, d, hlookup, ?_⟩
  split at hfound
  · exact hfound
  · cases hfound

/-! ### What subtyping says about the closure -/

/-- Whenever the walk over super types is made from the table on, it is not cut off. -/
def ShortClosure (w : World) (T : TypeTable) (t : TypeId) : Prop :=
  ∀ T₁ all T₂, T.GrowsTo T₁ → w.supertypes t T₁ = .ok all T₂ → all.length < supertypeLimit

theorem IsClassifier.not_alias (h : w.IsClassifier d) :
    w.declarations.kind? d ≠ some .typeAlias := by
  obtain ⟨info, hinfo, hkind⟩ := h
  rw [Declarations.kind?, ← World.decl?, hinfo, Option.map_some]
  intro halias
  rw [Option.some.inj halias] at hkind
  cases hkind

/-- Below a reference to a classifier stand the reference itself, all objects if it is `Object`, and
the types whose closure has a reference to the classifier. -/
theorem closure_of_isSubtype {T₁ : TypeTable} {r : TypeId} (hT : T.WellFormed)
    (hinit : .initial ≤ T) (hw : w.Within T) (hs : T.Has s)
    (hsindex : TypeId.firstDynamic ≤ s.index) (hres : w.resolveAlias s T = .ok r T₁)
    (hr : w.HasAncestry T₁ r) (ht : T.lookup t = .nominal e args) (he : w.IsClassifier e)
    (hsub : w.isSubtype .empty s t T = .ok true T') :
    T₁.GrowsTo T' ∧ ((r = t ∨ e = w.builtins.object) ∨
      ∃ all, TypeM.Recalls (w.supertypes r) T' all ∧
        ∃ u ∈ all, ∃ args', T'.lookup u = .nominal e args') := by
  obtain ⟨hg₁, hHas, -⟩ := stable_resolveAlias hT hw hs r T₁ hres
  obtain ⟨g, hrun⟩ := Subtyping.run_of_isSubtype_empty hsub
  by_cases hne : s = t
  · subst hne
    rw [Subtyping.resolveAlias_eq_self ht he.not_alias] at hres
    cases hres
    exact ⟨(Subtyping.stable_run hT hw hs hs _ _ hrun).1, .inl (.inl rfl)⟩
  obtain ⟨p, T₂, hplan, g₁, g₂, heval⟩ := Subtyping.plan_of_run hne hrun
  have hw₁ := hw.of_le hg₁.le
  obtain ⟨-, ht₁⟩ := TypeTable.lookup_nominal_of_le hg₁.le ht
  have hread (u : TypeId) : TypeM.lookup u T₁ = .ok (T₁.lookup u) T₁ := rfl
  rw [Subtyping.plan_of_reserved_le hsindex (Subtyping.reserved_le_of_nominal hinit ht),
    TypeM.bind_of_ok hres, TypeM.bind_of_ok (Subtyping.resolveAlias_eq_self ht₁ he.not_alias),
    TypeM.bind_of_ok (hread r), TypeM.bind_of_ok (hread t), ht₁] at hplan
  have hnominal : Subtyping.nominalPlan w r e args T₁ = .ok p T₂ := by
    rcases hr with ⟨d, args', -, hr, -⟩ | ⟨signature, hr⟩ <;> rw [hr] at hplan <;> exact hplan
  have hargs := hg₁.wellFormed.hasAll_of_lookup ht₁
  obtain ⟨hg₂, hp, -⟩ :=
    Subtyping.stable_nominalPlan hg₁.wellFormed hw₁ hHas e hargs p T₂ hnominal
  obtain ⟨hg₃, -, -⟩ := Subtyping.stable_eval (Subtyping.stable_check _) hg₂.wellFormed
    (hw₁.of_le hg₂.le) hp g₁ (true, g₂) T' heval
  refine ⟨hg₂.trans hg₃, ?_⟩
  by_cases hobject : e = w.builtins.object ∧ args = []
  · exact .inl (.inr hobject.1)
  refine .inr ?_
  rw [Subtyping.nominalPlan, if_neg hobject] at hnominal
  obtain ⟨found, T₃, hfind, hnominal⟩ := TypeM.bind_eq_ok.mp hnominal
  cases found with
  | none =>
    obtain ⟨rfl, rfl⟩ := TypeM.pure_eq_ok.mp hnominal
    rw [Subtyping.Plan.eval_verdict] at heval
    cases heval
  | some found =>
    obtain rfl : T₃ = T₂ := by
      dsimp only at hnominal
      split at hnominal <;> exact (TypeM.pure_eq_ok.mp hnominal).2
    rw [findInstantiation?] at hfind
    obtain ⟨all, T₄, hall, hfind⟩ := TypeM.bind_eq_ok.mp hfind
    obtain ⟨table, T₅, hget, hfind⟩ := TypeM.bind_eq_ok.mp hfind
    cases hget
    obtain ⟨hfound, rfl⟩ := TypeM.pure_eq_ok.mp hfind
    obtain ⟨-, -, hrecalls⟩ := stable_supertypes hg₁.wellFormed hw₁ hHas all T₄ hall
    obtain ⟨u, hu, hmatch⟩ := List.exists_of_findSome?_eq_some hfound
    refine ⟨all, fun T₅ hle => hrecalls T₅ (le_trans hg₃.le hle), u, hu, ?_⟩
    cases hlookup : T₄.lookup u with
    | nominal d args' =>
      simp only [hlookup] at hmatch
      split at hmatch
      · rename_i heq
        exact ⟨args', heq ▸ (TypeTable.lookup_nominal_of_le hg₃.le hlookup).2⟩
      · cases hmatch
    | _ => simp [hlookup] at hmatch

/-! ### Inheritance -/

/-- Lookup on a type with ancestry reads the closure of its expansion. -/
theorem resolveMember?_eq_declaredMember? {r : TypeId} {query : MemberQuery} (hfuel : 0 < w.fuel)
    (hres : w.resolveAlias s T = .ok r T') (hr : w.HasAncestry T' r) :
    w.resolveMember? query s T = w.declaredMember? query r T' := by
  obtain ⟨fuel, hfuel⟩ : ∃ fuel, w.fuel = fuel + 1 := ⟨w.fuel - 1, by omega⟩
  have hread : TypeM.lookup r T' = .ok (T'.lookup r) T' := rfl
  rw [resolveMember?, hfuel, resolveMemberFrom, TypeM.bind_of_ok hres, TypeM.bind_of_ok hread]
  rcases hr with ⟨d, args, info, hlookup, -⟩ | ⟨signature, hlookup⟩ <;> rw [hlookup]

theorem HasAncestry.of_le (hle : T ≤ T') (h : w.HasAncestry T t) : w.HasAncestry T' t := by
  have hHas : T.Has t := by
    rcases h with ⟨d, args, info, hlookup, -⟩ | ⟨signature, hlookup⟩
    all_goals exact TypeTable.has_of_lookup_ne (by rw [hlookup]; exact nofun)
  rw [HasAncestry, TypeTable.lookup_of_le hle hHas]
  exact h

/-- What expands to a type with ancestry is a type of the table, and not a reserved one. -/
theorem HasAncestry.of_resolveAlias {r : TypeId} (hinit : .initial ≤ T)
    (hres : w.resolveAlias s T = .ok r T') (hr : w.HasAncestry T' r) :
    T.Has s ∧ TypeId.firstDynamic ≤ s.index := by
  have hdata : (∃ d args, T.lookup s = .nominal d args) ∨
      ∃ signature, T.lookup s = .function signature := by
    by_cases halias : w.IsAliasReference T s
    · obtain ⟨d, args, hlookup, -⟩ := halias
      exact .inl ⟨d, args, hlookup⟩
    · rw [Subtyping.resolveAlias_of_not_alias halias] at hres
      cases hres
      exact hr.imp (fun ⟨d, args, _, hlookup, _⟩ => ⟨d, args, hlookup⟩) id
  rcases hdata with ⟨d, args, hlookup⟩ | ⟨signature, hlookup⟩
  · exact ⟨(TypeTable.lookup_nominal_of_le le_rfl hlookup).1,
      Subtyping.reserved_le_of_nominal hinit hlookup⟩
  · refine ⟨TypeTable.has_of_lookup_ne (by rw [hlookup]; exact nofun), ?_⟩
    exact Subtyping.reserved_le_of_view TypeData.signature? (by decide) hinit (by rw [hlookup]; rfl)

/-- Members are inherited along subtyping.  A type that expands to a reference to a class,
interface, enum or module import or to a function type, and that is below a reference to a class,
interface or enum, has a member of every name that the upper type has a member of, static or not. -/
theorem resolveMember?_of_isSubtype {T₁ : TypeTable} {r : TypeId} (hT : T.WellFormed)
    (hinit : .initial ≤ T) (hw : w.Within T) (hfuel : 0 < w.fuel) (h : w.Hierarchical T)
    (hres : w.resolveAlias s T = .ok r T₁) (hr : w.HasAncestry T₁ r) (hshort : w.ShortClosure T₁ r)
    (ht : T.lookup t = .nominal e args) (he : w.IsClassifier e)
    (hsub : w.isSubtype .empty s t T = .ok true T') (name : Symbol) (isStatic : Bool) {m : DeclId}
    {T₂ T₃ : TypeTable} (hg₂ : T'.GrowsTo T₂)
    (hm : w.resolveMember? ⟨name, true, isStatic⟩ t T₂ = .ok (some m) T₃) {T₄ : TypeTable}
    (hg₄ : T'.GrowsTo T₄) :
    ∃ m' T₅, w.resolveMember? ⟨name, true, isStatic⟩ s T₄ = .ok (some m') T₅ := by
  obtain ⟨hs, hsindex⟩ := hr.of_resolveAlias hinit hres
  obtain ⟨hg', hbelow⟩ := closure_of_isSubtype hT hinit hw hs hsindex hres hr ht he hsub
  obtain ⟨hg₁, hHas, hrecalls⟩ := stable_resolveAlias hT hw hs r T₁ hres
  have hg := hg₁.trans hg'
  -- The member is declared by a classifier that the upper declaration reaches.
  obtain ⟨d, hd, hm⟩ : ∃ d, Relation.ReflTransGen (w.Ascends T) e d ∧
      w.declarations.ownedMember? d name isStatic = some m := by
    have hgT₂ := hg.trans hg₂
    obtain ⟨htHas, ht₂⟩ := TypeTable.lookup_nominal_of_le hgT₂.le ht
    obtain ⟨info, hinfo, hkind⟩ := he
    rw [resolveMember?_eq_declaredMember? hfuel
      (Subtyping.resolveAlias_eq_self ht₂ (IsClassifier.not_alias ⟨info, hinfo, hkind⟩))
      (.inl ⟨e, args, info, ht₂, hinfo, .inl hkind⟩)] at hm
    obtain ⟨found, T₃', hrun, hg₃, all, hclosure, -, hfound⟩ :=
      yields_declaredMember? hg₂.wellFormed (hw.of_le hgT₂.le) (htHas.of_le hgT₂.le) name isStatic
    cases hrun.symm.trans hm
    obtain ⟨v, hv, d, hlookup, hm⟩ := exists_of_declared? hfound.symm
    obtain ⟨d', args', hreach, hlookup'⟩ := h.refers_of_mem (hgT₂.trans hg₃)
      (TypeTable.lookup_nominal_of_le hg₃.le ht₂).2 ⟨info, hinfo, hkind⟩ hclosure hv
    rw [hlookup'] at hlookup
    cases hlookup
    exact ⟨_, hreach, hm⟩
  -- The closure of the lower type has a reference to the upper declaration.
  have hg₁₄ := hg'.trans hg₄
  rw [resolveMember?_eq_declaredMember? hfuel (hrecalls T₄ hg₁₄.le) (hr.of_le hg₁₄.le)]
  obtain ⟨found, T₅, hrun, hg₅, all, hclosure, hall, hfound⟩ := yields_declaredMember?
    hg₄.wellFormed (hw.of_le (hg.trans hg₄).le) (hHas.of_le hg₁₄.le) name isStatic
  have hlimit := hshort T₅ all T₅ (hg₁₄.trans hg₅) hall.run
  have hgT₅ := (hg.trans hg₄).trans hg₅
  obtain ⟨u, hu, args', hlookup⟩ : ∃ u ∈ all, ∃ args', T₅.lookup u = .nominal e args' := by
    rcases hbelow with (rfl | hobject) | ⟨all', hall', u, hu, args', hlookup⟩
    · exact ⟨r, hclosure.mem, args, (TypeTable.lookup_nominal_of_le hgT₅.le ht).2⟩
    · rw [hobject]
      exact h.exists_object_mem hgT₅ (hr.of_le (hg₁₄.trans hg₅).le) hclosure hlimit
    · have hrun' := hall' T₅ (hg₄.trans hg₅).le
      cases hall.run.symm.trans hrun'
      exact ⟨u, hu, args', (TypeTable.lookup_nominal_of_le (hg₄.trans hg₅).le hlookup).2⟩
  obtain ⟨v, hv, args'', hlookup'⟩ := h.exists_mem hgT₅ hclosure hlimit hu hlookup he hd
  obtain ⟨m', hm'⟩ := isSome_declared? hv hlookup' (h.isClassifier_of_reaches he hd) hm
  exact ⟨m', T₅, by rw [hrun, hfound, hm']⟩

/-! ### Two classes below one -/

/-- A class with a member, a class below it that overrides the member, a class below it that does
not, an alias of these alternatives, and `Object` with a member of its own. -/
def overridingWorld : World where
  declarations := ⟨#[
    { kind := .classType, name := .none, members := [⟨2⟩] },
    { kind := .method, name := ⟨1⟩, owner := some ⟨1⟩ },
    { kind := .classType, name := .none, superType := some ⟨16⟩, members := [⟨4⟩] },
    { kind := .method, name := ⟨1⟩, owner := some ⟨3⟩ },
    { kind := .classType, name := .none, superType := some ⟨16⟩ },
    { kind := .typeAlias, name := .none, declaredType := some ⟨19⟩ },
    { kind := .classType, name := .none, members := [⟨8⟩] },
    { kind := .method, name := ⟨2⟩, owner := some ⟨7⟩ }]⟩
  builtins := { (default : Builtins) with
    object := ⟨7⟩, enumBase := ⟨7⟩, numberEnumBase := ⟨7⟩, stringEnumBase := ⟨7⟩
    objectType := ⟨21⟩, functionType := ⟨21⟩ }
  fuel := 2

/-- The three classes, the alternatives, the alias, `Object`, an object shape without properties and
a reference to a method. -/
def overridingTable : TypeTable :=
  (((((((TypeTable.initial.store (.nominal ⟨1⟩ [])).store (.nominal ⟨3⟩ [])).store
    (.nominal ⟨5⟩ [])).store (.union [⟨17⟩, ⟨18⟩])).store (.nominal ⟨6⟩ [])).store
    (.nominal ⟨7⟩ [])).store (.structural [])).store (.nominal ⟨2⟩ [])

private theorem growsTo_overridingTable : TypeTable.initial.GrowsTo overridingTable := by
  rw [overridingTable]
  iterate 8 refine TypeTable.GrowsTo.store ?_ (by decide) (by decide)
  exact .refl TypeTable.wellFormed_initial

private theorem hierarchical_overridingWorld : overridingWorld.Hierarchical overridingTable := by
  have hclauses : ∀ info ∈ overridingWorld.declarations.entries.toList, ∀ t ∈ info.clauses,
      t = ⟨16⟩ := by decide
  have hnamed {d : DeclId} {info : Declaration} (hd : overridingWorld.decl? d = some info)
      {t : TypeId} (ht : t ∈ info.clauses) : t = ⟨16⟩ := by
    refine hclauses info ?_ t ht
    obtain ⟨index⟩ := d
    cases index with
    | zero => cases hd
    | succ i => exact Array.mem_toList_iff.mpr (Array.mem_of_getElem? hd)
  have hobject : overridingWorld.HasClauses ⟨7⟩ := ⟨_, rfl, rfl⟩
  refine ⟨fun d info hd _ t ht => ?_, fun d hcircle => ?_, hobject, rfl, ⟨⟨7⟩, [], rfl, hobject⟩,
    fun kind => ?_⟩
  · rw [hnamed hd ht]
    exact ⟨⟨1⟩, [], rfl, _, rfl, rfl⟩
  · -- The only declaration that is named has no clauses.
    have hnames {x y : DeclId} (h : overridingWorld.Names overridingTable x y) :
        y = ⟨1⟩ ∧ x ≠ ⟨1⟩ := by
      obtain ⟨info, t, args, hx, -, ht, hlookup⟩ := h
      obtain rfl := hnamed hx ht
      cases hlookup
      refine ⟨rfl, ?_⟩
      rintro rfl
      cases hx
      cases ht
    obtain ⟨x, hfirst, -⟩ := Relation.TransGen.head'_iff.mp hcircle
    obtain ⟨y, -, hlast⟩ := Relation.TransGen.tail'_iff.mp hcircle
    exact (hnames hfirst).2 (hnames hlast).1
  · cases kind <;> exact hobject

/-- The lower types that are left out.  The alias of the alternatives is below the class that has
the member, and has no such member: the alternatives do not agree on one.  A reference to a method
is an object, but refers to nothing that members are looked up in.  The object shape, for which the
matter is left open, has no member of `Object` either. -/
theorem resolveMember?_not_inherited :
    (overridingTable.lookup ⟨16⟩ = .nominal ⟨1⟩ [] ∧ overridingTable.lookup ⟨20⟩ = .nominal ⟨6⟩ [] ∧
      overridingWorld.isSubtype .empty ⟨20⟩ ⟨16⟩ overridingTable = .ok true overridingTable ∧
      overridingWorld.resolveMember? ⟨⟨1⟩, true, false⟩ ⟨16⟩ overridingTable =
        .ok (some ⟨2⟩) overridingTable ∧
      overridingWorld.resolveMember? ⟨⟨1⟩, true, false⟩ ⟨20⟩ overridingTable =
        .ok none overridingTable) ∧
    overridingTable.lookup ⟨21⟩ = .nominal overridingWorld.builtins.object [] ∧
    overridingWorld.resolveMember? ⟨⟨2⟩, true, false⟩ ⟨21⟩ overridingTable =
      .ok (some ⟨8⟩) overridingTable ∧
    ∀ t ∈ [(⟨22⟩ : TypeId), ⟨23⟩], (overridingTable.lookup t = .structural [] ∨
        overridingTable.lookup t = .nominal ⟨2⟩ []) ∧
      overridingWorld.isSubtype .empty t ⟨21⟩ overridingTable = .ok true overridingTable ∧
      overridingWorld.resolveMember? ⟨⟨2⟩, true, false⟩ t overridingTable =
        .ok none overridingTable := by
  refine ⟨⟨rfl, rfl, rfl, rfl, rfl⟩, rfl, rfl, fun t ht => ?_⟩
  simp only [List.mem_cons, List.not_mem_nil, or_false] at ht
  rcases ht with rfl | rfl
  · exact ⟨.inl rfl, rfl, rfl⟩
  · exact ⟨.inr rfl, rfl, rfl⟩

/-- The class that does not override the member has it all the same. -/
theorem resolveMember?_of_isSubtype_notOverriding :
    overridingWorld.HasAncestry overridingTable ⟨18⟩ ∧
      overridingWorld.ShortClosure overridingTable ⟨18⟩ ∧
      overridingWorld.isSubtype .empty ⟨18⟩ ⟨16⟩ overridingTable = .ok true overridingTable ∧
      ∃ m T, overridingWorld.resolveMember? ⟨⟨1⟩, true, false⟩ ⟨18⟩ overridingTable =
        .ok (some m) T := by
  have hT := growsTo_overridingTable.wellFormed
  have hw : overridingWorld.Within overridingTable := within_of_entries (by decide) (by decide)
  have hancestry : overridingWorld.HasAncestry overridingTable ⟨18⟩ :=
    .inl ⟨⟨5⟩, [], _, rfl, rfl, .inl rfl⟩
  have hclosure : overridingWorld.supertypes ⟨18⟩ overridingTable =
      .ok [⟨18⟩, ⟨16⟩, ⟨21⟩] overridingTable := rfl
  have hshort : overridingWorld.ShortClosure overridingTable ⟨18⟩ := fun T₁ all T₂ hg hall => by
    rw [(stable_supertypes hT hw (by decide) _ _ hclosure).2.2 T₁ hg.le] at hall
    cases hall
    decide
  have hsub : overridingWorld.isSubtype .empty ⟨18⟩ ⟨16⟩ overridingTable =
      .ok true overridingTable := rfl
  exact ⟨hancestry, hshort, hsub, resolveMember?_of_isSubtype hT growsTo_overridingTable.le hw
    (by decide) hierarchical_overridingWorld rfl hancestry hshort rfl ⟨_, rfl, rfl⟩ hsub ⟨1⟩ false
    (.refl hT) rfl (.refl hT)⟩

end World

end ScriptTyping
