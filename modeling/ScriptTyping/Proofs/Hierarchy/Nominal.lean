import Mathlib.Data.List.Nodup
import Mathlib.Data.List.Perm.Subperm
import Mathlib.Data.Option.Basic
import Mathlib.Data.Set.Defs
import Mathlib.Logic.Relation
import ScriptTyping.Proofs.Table.Yields

/-!
# The hierarchy of non-generic classifiers

Among classifiers without type parameters whose clauses name such classifiers, the hierarchy of
types is a graph of declarations: each declaration is referred to by one handle, and walking up from
a type meets the references to exactly the declarations that can be reached from its own.  The graph
may have circles.  The walk is breadth first and stops at `World.supertypeLimit` types, so it is
complete as long as fewer declarations can be reached.

## Main definitions

* `TypeTable.Refers` — the handle of the reference to a declaration.
* `World.Extends`, `World.Reaches` — one step up from a declaration, and any number of steps.
* `World.Classifiers`, `World.NominalFragment` — the declarations that this file is about.
* `World.Walk` — what is known in the middle of the walk.

## Main results

* `World.Classifiers.yields_directSupertypes` — one step up.
* `World.NominalFragment.yields_supertypes` — the walk meets exactly what can be reached.
-/

namespace ScriptTyping

namespace TypeTable

variable {T T' : TypeTable} {s t : TypeId} {d e : DeclId}

/-- The type is the reference to the declaration without type arguments. -/
def Refers (T : TypeTable) (t : TypeId) (d : DeclId) : Prop :=
  T.handles[TypeData.nominal d []]? = some t

theorem Refers.of_le (hle : T ≤ T') (h : T.Refers t d) : T'.Refers t d := hle.handles _ _ h

theorem Refers.lookup? (hT : T.WellFormed) (h : T.Refers t d) :
    T.lookup? t = some (.nominal d []) :=
  hT.handles_sound _ _ h

theorem Refers.lookup (hT : T.WellFormed) (h : T.Refers t d) : T.lookup t = .nominal d [] :=
  lookup_eq (h.lookup? hT)

theorem Refers.has (hT : T.WellFormed) (h : T.Refers t d) : T.Has t :=
  has_iff.mpr ⟨_, h.lookup? hT⟩

/-- A declaration has one reference. -/
theorem Refers.unique (hs : T.Refers s d) (ht : T.Refers t d) : s = t :=
  Option.some.inj (hs.symm.trans ht)

/-- A reference has one declaration. -/
theorem Refers.decl_unique (hT : T.WellFormed) (hd : T.Refers t d) (he : T.Refers t e) : d = e := by
  have heq := (hd.lookup hT).symm.trans (he.lookup hT)
  cases heq
  rfl

theorem Refers.forall_iff (hT : T.WellFormed) (h : T.Refers t d) {P : DeclId → Prop} :
    (∀ e, T.Refers t e → P e) ↔ P d :=
  ⟨fun hall => hall d h, fun hd _ he => h.decl_unique hT he ▸ hd⟩

theorem Refers.exists_iff (hT : T.WellFormed) (h : T.Refers t d) {P : DeclId → Prop} :
    (∃ e, T.Refers t e ∧ P e) ↔ P d :=
  ⟨fun ⟨_, he, hP⟩ => he.decl_unique hT h ▸ hP, fun hd => ⟨d, h, hd⟩⟩

/-- The list holds the references to exactly the declarations with a property. -/
structure Lists (T : TypeTable) (ts : List TypeId) (E : DeclId → Prop) : Prop where
  sound : ∀ t ∈ ts, ∃ e, E e ∧ T.Refers t e
  complete : ∀ e, E e → ∃ t ∈ ts, T.Refers t e

theorem Lists.of_le {ts : List TypeId} {E : DeclId → Prop} (hle : T ≤ T') (h : T.Lists ts E) :
    T'.Lists ts E where
  sound t ht := by
    obtain ⟨e, he, hrefers⟩ := h.sound t ht
    exact ⟨e, he, hrefers.of_le hle⟩
  complete e he := by
    obtain ⟨t, ht, hrefers⟩ := h.complete e he
    exact ⟨t, ht, hrefers.of_le hle⟩

theorem Lists.of_mem_iff {ts us : List TypeId} {E : DeclId → Prop} (h : T.Lists ts E)
    (hmem : ∀ t, t ∈ us ↔ t ∈ ts) : T.Lists us E where
  sound t ht := h.sound t ((hmem t).mp ht)
  complete e he := by
    obtain ⟨t, ht, hrefers⟩ := h.complete e he
    exact ⟨t, (hmem t).mpr ht, hrefers⟩

section Lists

variable {ts : List TypeId} {E P : DeclId → Prop} (hT : T.WellFormed) (h : T.Lists ts E)

include hT h

theorem Lists.mem_iff (ht : T.Refers t d) : t ∈ ts ↔ E d := by
  constructor
  · intro hmem
    obtain ⟨e, he, hrefers⟩ := h.sound t hmem
    exact hrefers.decl_unique hT ht ▸ he
  · intro hd
    obtain ⟨s, hs, hrefers⟩ := h.complete d hd
    exact hrefers.unique ht ▸ hs

theorem Lists.forall_iff : (∀ t ∈ ts, ∀ e, T.Refers t e → P e) ↔ ∀ e, E e → P e := by
  constructor
  · intro hall e he
    obtain ⟨t, ht, hrefers⟩ := h.complete e he
    exact hall t ht e hrefers
  · intro hall t ht e hrefers
    exact hall e ((h.mem_iff hT hrefers).mp ht)

theorem Lists.exists_iff : (∃ t ∈ ts, ∃ e, T.Refers t e ∧ P e) ↔ ∃ e, E e ∧ P e := by
  constructor
  · rintro ⟨t, ht, e, hrefers, hP⟩
    exact ⟨e, (h.mem_iff hT hrefers).mp ht, hP⟩
  · rintro ⟨e, he, hP⟩
    obtain ⟨t, ht, hrefers⟩ := h.complete e he
    exact ⟨t, ht, e, hrefers, hP⟩

end Lists

end TypeTable

theorem TypeM.yields_simple {T : TypeTable} (hT : T.WellFormed) (d : DeclId) :
    TypeM.Yields (TypeM.simple d) T fun T' t => T'.Refers t d :=
  TypeM.yields_intern _ hT TypeTable.hasAll_nil

/-- Whether declarations of this kind have clauses that name super types. -/
def DeclKind.hasClauses : DeclKind → Bool
  | classType | interfaceType => true
  | _ => false

/-- The types that the clauses of a declaration name. -/
def Declaration.clauses (info : Declaration) : List TypeId :=
  info.superType.toList ++ info.interfaces

namespace World

variable {w : World} {T₀ T T' : TypeTable} {D : Set DeclId} {s t : TypeId} {d e : DeclId}
  {info : Declaration}

/-! ### The graph of declarations -/

/-- The second declaration stands directly above the first: it is named by a clause, it is `Object`
above a class or interface without super type, or it is the base of an enum. -/
inductive Extends (w : World) (T : TypeTable) (d : DeclId) : DeclId → Prop
  | clause {info : Declaration} {t : TypeId} {e : DeclId} (hd : w.decl? d = some info)
      (hkind : info.kind.hasClauses = true) (ht : t ∈ info.clauses) (he : T.Refers t e) :
      Extends w T d e
  | root {info : Declaration} (hd : w.decl? d = some info) (hkind : info.kind.hasClauses = true)
      (hsuper : info.superType = none) (hne : d ≠ w.builtins.object) :
      Extends w T d w.builtins.object
  | enumBase {info : Declaration} {kind : EnumKind} (hd : w.decl? d = some info)
      (hkind : info.kind = .enumType kind) : Extends w T d (w.builtins.enumBaseOf kind)

/-- The second declaration stands above the first, or is the same. -/
def Reaches (w : World) (T : TypeTable) : DeclId → DeclId → Prop :=
  Relation.ReflTransGen (w.Extends T)

/-- Non-generic classes, interfaces and enums, `Object` among them, whose clauses are references to
declarations of the set. -/
structure Classifiers (w : World) (T : TypeTable) (D : Set DeclId) : Prop where
  wellFormed : T.WellFormed
  initial : .initial ≤ T
  classifier : ∀ d ∈ D, ∃ info, w.decl? d = some info ∧ info.kind.isClassifier = true ∧
    info.isGeneric = false
  clauses : ∀ d ∈ D, ∀ info, w.decl? d = some info → info.kind.hasClauses = true →
    ∀ t ∈ info.clauses, ∃ e ∈ D, T.Refers t e
  enumBases : ∀ d ∈ D, ∀ info kind, w.decl? d = some info → info.kind = .enumType kind →
    w.builtins.enumBaseOf kind ∈ D
  object : w.builtins.object ∈ D
  objectType : T.Refers w.objectType w.builtins.object

theorem Classifiers.mem_of_extends (h : w.Classifiers T D) (hd : d ∈ D) (he : w.Extends T d e) :
    e ∈ D := by
  cases he with
  | clause hinfo hkind ht hrefers =>
    obtain ⟨e', he', hrefers'⟩ := h.clauses d hd _ hinfo hkind _ ht
    exact hrefers.decl_unique h.wellFormed hrefers' ▸ he'
  | root => exact h.object
  | enumBase hinfo hkind => exact h.enumBases d hd _ _ hinfo hkind

theorem Classifiers.mem_of_reaches (h : w.Classifiers T D) (hd : d ∈ D) (he : w.Reaches T d e) :
    e ∈ D := by
  induction he with
  | refl => exact hd
  | tail _ hstep ih => exact h.mem_of_extends ih hstep

/-- Such classifiers with nothing above `Object`, and with fewer above each of them than the walk
over super types is cut off at.  Telling objects from other values takes one step of fuel. -/
structure NominalFragment (w : World) (T : TypeTable) (D : Set DeclId) : Prop
    extends w.Classifiers T D where
  fuel : 0 < w.fuel
  object_top : ∀ e, ¬w.Extends T w.builtins.object e
  bounded : ∀ d ∈ D, ∃ above : List DeclId, above.length < supertypeLimit ∧
    ∀ e, w.Reaches T d e → e ∈ above

/-! ### One step up -/

/-- A reference without type arguments names its super types as they are. -/
theorem clauseSupertypes_of_not_generic (hgeneric : info.isGeneric = false) :
    w.clauseSupertypes d info [] = pure (info.clauses ++
      if info.superType.isNone && d != w.builtins.object then [w.objectType] else []) := by
  have hparams : info.typeParams = [] := by
    simpa [Declaration.isGeneric] using hgeneric
  have hpure : (Substitution.ofArgs info.typeParams []).instantiate = fun t => pure t := by
    rw [hparams]
    rfl
  rw [clauseSupertypes, hpure, List.mapM_pure, List.mapM_pure, pure_bind, pure_bind,
    List.map_id', List.map_id']
  rfl

/-- One step up from a class or interface. -/
theorem Classifiers.lists_clauses (h : w.Classifiers T₀ D) (hd : d ∈ D)
    (hinfo : w.decl? d = some info) (hkind : info.kind.hasClauses = true) :
    T₀.Lists (info.clauses ++
      if info.superType.isNone && d != w.builtins.object then [w.objectType] else [])
      (w.Extends T₀ d) := by
  have hroot : info.superType.isNone && d != w.builtins.object ↔
      info.superType = none ∧ d ≠ w.builtins.object := by simp
  constructor
  · intro t ht
    rcases List.mem_append.mp ht with ht | ht
    · obtain ⟨e, -, hrefers⟩ := h.clauses d hd info hinfo hkind t ht
      exact ⟨e, .clause hinfo hkind ht hrefers, hrefers⟩
    · split at ht
      · rename_i hcond
        obtain ⟨hsuper, hne⟩ := hroot.mp hcond
        rw [List.mem_singleton.mp ht]
        exact ⟨_, .root hinfo hkind hsuper hne, h.objectType⟩
      · cases ht
  · intro e he
    cases he with
    | clause hinfo' _ ht hrefers =>
      cases hinfo.symm.trans hinfo'
      exact ⟨_, List.mem_append_left _ ht, hrefers⟩
    | root hinfo' _ hsuper hne =>
      cases hinfo.symm.trans hinfo'
      rw [if_pos (hroot.mpr ⟨hsuper, hne⟩)]
      exact ⟨_, List.mem_append_right _ (List.mem_singleton_self _), h.objectType⟩
    | enumBase hinfo' henum =>
      cases hinfo.symm.trans hinfo'
      rw [henum] at hkind
      cases hkind

/-- The types directly above a reference are the references to the declarations directly above. -/
theorem Classifiers.yields_directSupertypes (h : w.Classifiers T₀ D) (hg : T₀.GrowsTo T)
    (hd : d ∈ D) (ht : T.Refers t d) :
    TypeM.Yields (w.directSupertypes t) T fun T' above => T'.Lists above (w.Extends T₀ d) := by
  obtain ⟨info, hinfo, hclassifier, hgeneric⟩ := h.classifier d hd
  rw [directSupertypes]
  refine .lookup ?_
  rw [ht.lookup hg.wellFormed]
  dsimp only
  rw [hinfo]
  dsimp only
  have hclauses (hkind : info.kind.hasClauses = true) :
      TypeM.Yields (w.clauseSupertypes d info []) T
        fun T' above => T'.Lists above (w.Extends T₀ d) := by
    rw [clauseSupertypes_of_not_generic hgeneric]
    exact .pure hg.wellFormed ((h.lists_clauses hd hinfo hkind).of_le hg.le)
  cases hkind : info.kind with
  | classType => exact hclauses (by rw [hkind]; rfl)
  | interfaceType => exact hclauses (by rw [hkind]; rfl)
  | enumType kind =>
    refine (TypeM.yields_simple hg.wellFormed (w.builtins.enumBaseOf kind)).bind
      fun base T₁ hg₁ hbase => .pure hg₁.wellFormed ⟨fun s hs => ?_, fun e he => ?_⟩
    · rw [List.mem_singleton.mp hs]
      exact ⟨_, .enumBase hinfo hkind, hbase⟩
    · refine ⟨base, List.mem_singleton_self _, ?_⟩
      cases he with
      | clause hinfo' hclause | root hinfo' hclause =>
        cases hinfo.symm.trans hinfo'
        rw [hkind] at hclause
        cases hclause
      | enumBase hinfo' henum =>
        cases hinfo.symm.trans hinfo'
        cases hkind.symm.trans henum
        exact hbase
  | _ =>
    rw [hkind] at hclassifier
    cases hclassifier

/-! ### The walk -/

/-- Adding types to a list appends those that are not in it, each once. -/
theorem foldl_addNew (above : List TypeId) : ∀ seen : List TypeId, ∃ new,
    above.foldl addNew seen = seen ++ new ∧ (seen.Nodup → (seen ++ new).Nodup) ∧
      ∀ t, t ∈ seen ++ new ↔ t ∈ seen ∨ t ∈ above := by
  induction above with
  | nil => exact fun seen => ⟨[], by simp⟩
  | cons t above ih =>
    intro seen
    obtain ⟨new, hfold, hnodup, hmem⟩ := ih (addNew seen t)
    by_cases ht : t ∈ seen
    · have hadd : addNew seen t = seen := by simp [addNew, ht]
      rw [hadd] at hfold hnodup hmem
      refine ⟨new, by rw [List.foldl_cons, hadd, hfold], hnodup, fun s => ?_⟩
      rw [hmem, List.mem_cons]
      grind
    · have hadd : addNew seen t = seen ++ [t] := by simp [addNew, ht]
      rw [hadd] at hfold hnodup hmem
      refine ⟨t :: new, ?_, fun hseen => ?_, fun s => ?_⟩
      · rw [List.foldl_cons, hadd, hfold, List.append_assoc, List.singleton_append]
      · rw [List.append_cons]
        exact hnodup (List.nodup_append.mpr ⟨hseen, List.nodup_singleton t, by grind⟩)
      · rw [List.append_cons, hmem, List.mem_append, List.mem_singleton, List.mem_cons, or_assoc]

/-- What stands in front of the list and is not added makes no difference. -/
theorem foldl_addNew_append {front above : List TypeId} : ∀ {seen : List TypeId},
    (∀ t ∈ above, t ∉ front) →
    above.foldl addNew (front ++ seen) = front ++ above.foldl addNew seen := by
  induction above with
  | nil => exact fun _ => rfl
  | cons t above ih =>
    intro seen h
    obtain ⟨ht, habove⟩ := List.forall_mem_cons.mp h
    have hadd : addNew (front ++ seen) t = front ++ addNew seen t := by
      by_cases hseen : t ∈ seen <;> simp [addNew, ht, hseen]
    rw [List.foldl_cons, List.foldl_cons, hadd, ih habove]

/-- In the middle of the walk from a declaration: all types that were met are references to what can
be reached, the start is one of them, and what stands directly above a visited one was met. -/
structure Walk (w : World) (T₀ : TypeTable) (d : DeclId) (T : TypeTable)
    (visited queue : List TypeId) : Prop where
  nodup : (visited ++ queue).Nodup
  reached : ∀ t ∈ visited ++ queue, ∃ e, w.Reaches T₀ d e ∧ T.Refers t e
  start : ∃ t ∈ visited ++ queue, T.Refers t d
  closed : ∀ t ∈ visited, ∀ e, T.Refers t e → ∀ e', w.Extends T₀ e e' →
    ∃ t' ∈ visited ++ queue, T.Refers t' e'

theorem walk_start (ht : T.Refers t d) : w.Walk T₀ d T [] [t] where
  nodup := List.nodup_singleton t
  reached s hs := ⟨d, .refl, List.mem_singleton.mp hs ▸ ht⟩
  start := ⟨t, List.mem_singleton_self t, ht⟩
  closed _ h := by cases h

/-- Visiting the first type of the queue. -/
theorem Walk.step {visited queue above new : List TypeId}
    (h : w.Walk T₀ d T visited (t :: queue)) (hT : T.WellFormed) (hg : T.GrowsTo T')
    (ht : T.Refers t e) (habove : T'.Lists above (w.Extends T₀ e))
    (hnodup : (visited ++ t :: queue ++ new).Nodup)
    (hmem : ∀ s, s ∈ visited ++ t :: queue ++ new ↔ s ∈ visited ++ t :: queue ∨ s ∈ above) :
    w.Walk T₀ d T' (visited ++ [t]) (queue ++ new) := by
  have hseen : visited ++ [t] ++ (queue ++ new) = visited ++ t :: queue ++ new := by simp
  refine ⟨hseen ▸ hnodup, ?_, ?_, ?_⟩
  · rw [hseen]
    intro s hs
    rcases (hmem s).mp hs with hs | hs
    · obtain ⟨e', he', hrefers⟩ := h.reached s hs
      exact ⟨e', he', hrefers.of_le hg.le⟩
    · obtain ⟨e', he', hrefers⟩ := habove.sound s hs
      obtain ⟨_, hreach, hrefers'⟩ := h.reached t (by simp)
      cases hrefers'.decl_unique hT ht
      exact ⟨e', hreach.tail he', hrefers⟩
  · obtain ⟨s, hs, hrefers⟩ := h.start
    exact ⟨s, hseen ▸ List.mem_append_left _ hs, hrefers.of_le hg.le⟩
  · rw [hseen]
    intro s hs e' hrefers e'' he''
    rcases List.mem_append.mp hs with hs | hs
    · obtain ⟨e₁, -, hrefers₁⟩ := h.reached s (List.mem_append_left _ hs)
      cases (hrefers₁.of_le hg.le).decl_unique hg.wellFormed hrefers
      obtain ⟨s', hs', hrefers'⟩ := h.closed s hs e' hrefers₁ e'' he''
      exact ⟨s', List.mem_append_left _ hs', hrefers'.of_le hg.le⟩
    · rw [List.mem_singleton.mp hs] at hrefers
      cases (ht.of_le hg.le).decl_unique hg.wellFormed hrefers
      obtain ⟨s', hs', hrefers'⟩ := habove.complete e'' he''
      exact ⟨s', (hmem s').mpr (.inr hs'), hrefers'⟩

/-- When nothing waits, everything that can be reached was met. -/
theorem Walk.lists {visited : List TypeId} (h : w.Walk T₀ d T visited []) :
    T.Lists visited (w.Reaches T₀ d) := by
  refine ⟨fun t ht => h.reached t (by simpa using ht), fun e he => ?_⟩
  induction he with
  | refl => simpa using h.start
  | tail _ hstep ih =>
    obtain ⟨t, ht, hrefers⟩ := ih
    simpa using h.closed t ht _ hrefers _ hstep

/-- The first list of declarations bounds the number of references to what can be reached. -/
theorem length_le_of_reaches {above : List DeclId} (habove : ∀ e, w.Reaches T₀ d e → e ∈ above)
    {ts : List TypeId} (hnodup : ts.Nodup)
    (hts : ∀ t ∈ ts, ∃ e, w.Reaches T₀ d e ∧ T.Refers t e) : ts.length ≤ above.length := by
  -- The handles of the declarations above cover the list.
  have hsubset : ts.map some ⊆ above.map fun e => T.handles[TypeData.nominal e []]? := by
    intro o ho
    obtain ⟨t, ht, rfl⟩ := List.mem_map.mp ho
    obtain ⟨e, he, hrefers⟩ := hts t ht
    exact List.mem_map.mpr ⟨e, habove e he, hrefers⟩
  have hle := (List.subperm_of_subset (hnodup.map (Option.some_injective _)) hsubset).length_le
  rwa [List.length_map, List.length_map] at hle

/-- The walk from a declaration, behind types that are no references themselves.  It is complete if
there is room for them and for what can be reached. -/
theorem Classifiers.yields_supertypesFrom (h : w.Classifiers T₀ D) (hd : d ∈ D)
    {front : List TypeId} {above : List DeclId} (habove : ∀ e, w.Reaches T₀ d e → e ∈ above)
    (hroom : front.length + above.length < supertypeLimit) (rounds : Nat) :
    ∀ {T : TypeTable} {visited queue : List TypeId}, T₀.GrowsTo T →
      (∀ s ∈ front, T.Has s ∧ ∀ e, T.lookup s ≠ .nominal e []) →
      rounds + (front.length + visited.length) = supertypeLimit → w.Walk T₀ d T visited queue →
      TypeM.Yields (w.supertypesFrom rounds (front ++ visited) queue) T fun T' ts =>
        ∃ rest, ts = front ++ rest ∧ T'.Lists rest (w.Reaches T₀ d) ∧ rest.Nodup := by
  induction rounds with
  | zero =>
    intro T visited queue _ _ hrounds hwalk
    have hle := length_le_of_reaches habove hwalk.nodup hwalk.reached
    rw [List.length_append] at hle
    omega
  | succ rounds ih =>
    intro T visited queue hg hfront hrounds hwalk
    cases queue with
    | nil => exact .pure hg.wellFormed ⟨visited, rfl, hwalk.lists, by simpa using hwalk.nodup⟩
    | cons t queue =>
      have hle := length_le_of_reaches habove hwalk.nodup hwalk.reached
      rw [List.length_append, List.length_cons] at hle
      rw [supertypesFrom, if_pos (by rw [List.length_append]; omega)]
      obtain ⟨e, hreach, ht⟩ := hwalk.reached t (by simp)
      refine (h.yields_directSupertypes hg (h.mem_of_reaches hd hreach) ht).bind
        fun above' T₁ hg₁ habove' => ?_
      have hfront₁ : ∀ s ∈ front, T₁.Has s ∧ ∀ e, T₁.lookup s ≠ .nominal e [] := by
        intro s hs
        obtain ⟨hhas, hplain⟩ := hfront s hs
        exact ⟨hhas.of_le hg₁.le, by rwa [TypeTable.lookup_of_le hg₁.le hhas]⟩
      -- No reference stands in front, so the walk adds what it would add without the front.
      obtain ⟨new, hfold, hnodup, hmem⟩ := foldl_addNew above' (visited ++ t :: queue)
      have hfold' : above'.foldl addNew (front ++ (visited ++ t :: queue)) =
          front ++ (visited ++ t :: queue ++ new) := by
        rw [← hfold]
        refine foldl_addNew_append fun s hs hs' => ?_
        obtain ⟨e', -, hrefers⟩ := habove'.sound s hs
        exact (hfront₁ s hs').2 e' (hrefers.lookup hg₁.wellFormed)
      have hdrop : (above'.foldl addNew (front ++ visited ++ t :: queue)).drop
          ((front ++ visited).length + 1) = queue ++ new := by
        rw [List.append_assoc, hfold', List.append_cons, List.append_assoc, ← List.append_assoc,
          List.drop_left' (by simp; omega)]
      dsimp only
      rw [hdrop, List.append_assoc]
      refine ih (hg.trans hg₁) hfront₁ (by simp; omega) ?_
      exact hwalk.step hg.wellFormed hg₁ ht habove' (hnodup hwalk.nodup) hmem

namespace NominalFragment

/-- Fewer references to what can be reached than the walk is cut off at. -/
theorem length_lt (h : w.NominalFragment T₀ D) (hd : d ∈ D) {ts : List TypeId} (hnodup : ts.Nodup)
    (hts : ∀ t ∈ ts, ∃ e, w.Reaches T₀ d e ∧ T.Refers t e) : ts.length < supertypeLimit := by
  obtain ⟨above, hlength, habove⟩ := h.bounded d hd
  exact (length_le_of_reaches habove hnodup hts).trans_lt hlength

/-- The walk up from a reference gives the references to exactly the declarations that can be
reached. -/
theorem yields_supertypes (h : w.NominalFragment T₀ D) (hg : T₀.GrowsTo T) (hd : d ∈ D)
    (ht : T.Refers t d) :
    TypeM.Yields (w.supertypes t) T fun T' ts => T'.Lists ts (w.Reaches T₀ d) ∧ ts.Nodup := by
  obtain ⟨above, hlength, habove⟩ := h.bounded d hd
  have hroom : ([] : List TypeId).length + above.length < supertypeLimit := by simpa using hlength
  refine (h.yields_supertypesFrom hd habove hroom _ hg (fun _ hs => by cases hs) (by simp)
    (walk_start ht)).mono fun T' ts _ hts => ?_
  obtain ⟨rest, rfl, hrest⟩ := hts
  exact hrest

end NominalFragment

end World

end ScriptTyping
