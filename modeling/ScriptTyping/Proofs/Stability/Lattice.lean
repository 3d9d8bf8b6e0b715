import ScriptTyping.Lattice.Join
import ScriptTyping.Lattice.Narrowing
import ScriptTyping.Lattice.Widening
import ScriptTyping.Proofs.Subtyping.Check
import ScriptTyping.Proofs.Table.Total

/-!
# Stability of unions, joins, narrowing and widening

The short form of a union or intersection, narrowing and widening are stable and give types of the
table.  The texts in which dropped members are reported are not part of this: what is dropped does
not depend on them.  The short form asks a subtype relation, and all that matters about the relation
is that its answers have the property that is shown; so the short form is treated once for every
such property, of which stability is one.

## Main definitions

* `World.Setting` — a well-formed table with all types that the declarations and an environment
  mention.
* `RelationLogic` — a property of computations that stable ones have and the answers of a subtype
  relation.
* `Composite.dropped` — the members that go, without the texts about them.

## Main results

* `RelationLogic.create`, `RelationLogic.simplify` — the short form, for every such property.
* `stable_createUnion`, `stable_simplify` — the short form.
* `stable_narrow`, `stable_widenLiterals`, `stable_sanitizeDeclared` — narrowing and widening.
-/

namespace ScriptTyping

/-- The table is well-formed, and the types that the declarations and the environment mention belong
to it. -/
structure World.Setting (w : World) (env : Environment) (T : TypeTable) : Prop where
  table : T.WellFormed
  world : w.Within T
  environment : env.Within T

variable {w : World} {env : Environment} {T T' : TypeTable}

theorem World.Setting.grow (h : w.Setting env T) (hg : T.GrowsTo T') : w.Setting env T' :=
  ⟨hg.wellFormed, h.world.of_le hg.le, h.environment.of_le hg.le⟩

theorem World.Setting.stable_isSubtype (h : w.Setting env T) {s t : TypeId} (hs : T.Has s)
    (ht : T.Has t) : TypeM.Stable (w.isSubtype env s t) T fun _ _ => True :=
  World.stable_isSubtype h.table h.world h.environment hs ht

/-! ### Properties that the answers of a relation have -/

/-- A property of computations that sequencing respects, that stable computations have, and that the
answers of a subtype relation about types of the table have. -/
structure RelationLogic (rel : TypeRelation) (w : World) (env : Environment) extends
    TableLogic TypeM where
  stable : ∀ {α : Type} {x : TypeM α} {T : TypeTable} {V : TypeTable → α → Prop},
    TypeM.Stable x T V → holds x T V
  get : ∀ {β : Type} {f : TypeTable → TypeM β} {T : TypeTable} {W : TypeTable → β → Prop},
    (∀ T'', T ≤ T'' → f T'' = f T) → holds (f T) T W → holds (MonadState.get >>= f) T W
  answer : ∀ {T : TypeTable} {s t : TypeId}, w.Setting env T → T.Has s → T.Has t →
    holds (rel env s t) T fun _ _ => True

namespace RelationLogic

variable {rel : TypeRelation} (L : RelationLogic rel w env)

/-- Reading a row of the table. -/
theorem lookup {β : Type} {W : TypeTable → β → Prop} {f : TypeData → TypeM β} {t : TypeId}
    (ht : T.Has t) (h : L.holds (f (T.lookup t)) T W) : L.holds (TypeM.lookup t >>= f) T W := by
  rw [TypeM.lookup, bind_assoc]
  simp only [pure_bind]
  refine L.get (fun T'' hle => ?_) h
  rw [TypeTable.lookup_of_le hle ht]

theorem strict (h : w.Setting env T) {s t : TypeId} (hs : T.Has s) (ht : T.Has t) :
    L.holds (rel.strict env s t) T fun _ _ => True := by
  rw [TypeRelation.strict]
  split
  · exact L.return' h.table trivial
  refine L.bind (L.answer h hs ht) fun below T₁ hg₁ _ => ?_
  split
  · exact L.bind (L.answer (h.grow hg₁) (ht.of_le hg₁.le) (hs.of_le hg₁.le))
      fun _ _ hg _ => L.return' hg.wellFormed trivial
  · exact L.return' hg₁.wellFormed trivial

end RelationLogic

/-- Stability as such a property. -/
def World.stableAnswers (w : World) (env : Environment) : RelationLogic w.isSubtype w env where
  toTableLogic := TypeM.stableLogic
  stable hx := hx
  get := .get
  answer h hs ht := h.stable_isSubtype hs ht

theorem World.Setting.stable_strict (h : w.Setting env T) {s t : TypeId} (hs : T.Has s)
    (ht : T.Has t) : TypeM.Stable (TypeRelation.strict w.isSubtype env s t) T fun _ _ => True :=
  (w.stableAnswers env).strict h hs ht

/-! ### The short form of a composite -/

namespace Composite

variable {kind : Composite}

theorem mapM_eq_some_of_forall {α β : Type} {f g : α → Option β} {P : β → Prop}
    (l : List α) : (∀ a ∈ l, ∀ b, f a = some b → g a = some b ∧ P b) →
    ∀ bs, l.mapM f = some bs → l.mapM g = some bs ∧ ∀ b ∈ bs, P b := by
  induction l with
  | nil =>
    intro _ bs hbs
    obtain rfl : [] = bs := Option.some.inj hbs
    exact ⟨rfl, fun _ h => by cases h⟩
  | cons a l ih =>
    intro hfg bs hbs
    rw [List.mapM_cons] at hbs ⊢
    obtain ⟨b, hb, hbs⟩ := Option.bind_eq_some_iff.mp hbs
    obtain ⟨bs', hbs', hcons⟩ := Option.bind_eq_some_iff.mp hbs
    obtain rfl : b :: bs' = bs := Option.some.inj hcons
    obtain ⟨hg, hP⟩ := hfg a (List.mem_cons_self ..) b hb
    obtain ⟨hgs, hPs⟩ := ih (fun a' ha' => hfg a' (List.mem_cons_of_mem _ ha')) bs' hbs'
    refine ⟨?_, fun b' hb' => ?_⟩
    · rw [hg, hgs]
      rfl
    · rcases List.mem_cons.mp hb' with rfl | hb'
      · exact hP
      · exact hPs b' hb'

theorem hasAll_members {t : TypeId} {nested : List TypeId} (hT : T.WellFormed)
    (h : kind.members? (T.lookup t) = some nested) : T.HasAll nested := by
  have hparts := hT.hasAll_parts t
  cases kind <;> cases hd : T.lookup t <;> rw [hd] at h hparts <;> cases h <;> exact hparts

private theorem hasAll_flatten {lists : List (List TypeId)} (h : ∀ l ∈ lists, T.HasAll l) :
    T.HasAll lists.flatten := fun t ht => by
  obtain ⟨l, hl, htl⟩ := List.mem_flatten.mp ht
  exact h l hl t htl

/-- What one member is expanded to. -/
def expand (kind : Composite) (T : TypeTable) (fuel : Nat) (member : TypeId) :
    Option (List TypeId) :=
  match kind.members? (T.lookup member) with
  | some nested => kind.leavesFrom? T fuel nested
  | none => some [member]

theorem leavesFrom?_succ (fuel : Nat) (members : List TypeId) :
    kind.leavesFrom? T (fuel + 1) members =
      (members.mapM (expand kind T fuel)).bind fun expanded => some expanded.flatten := by
  rw [leavesFrom?]
  rfl

/-- More fuel and later rows do not change the expanded members. -/
theorem leavesFrom?_of_le (hT : T.WellFormed) (hle : T ≤ T') (fuel : Nat) :
    ∀ {fuel' : Nat} {members leaves : List TypeId}, fuel ≤ fuel' → T.HasAll members →
      kind.leavesFrom? T fuel members = some leaves →
      kind.leavesFrom? T' fuel' members = some leaves ∧ T.HasAll leaves := by
  induction fuel with
  | zero =>
    intro fuel' members leaves _ hms h
    rw [leavesFrom?] at h
    split at h
    · cases h
    rename_i hany
    obtain rfl := Option.some.inj h
    refine ⟨?_, hms⟩
    have hplain (t : TypeId) (ht : t ∈ members) : kind.members? (T'.lookup t) = none := by
      rw [TypeTable.lookup_of_le hle (hms t ht)]
      cases hm : kind.members? (T.lookup t) with
      | none => rfl
      | some nested => exact absurd (List.any_eq_true.mpr ⟨t, ht, by rw [hm]; rfl⟩) hany
    cases fuel' with
    | zero =>
      rw [leavesFrom?, if_neg]
      intro hany'
      obtain ⟨t, ht, hsome⟩ := List.any_eq_true.mp hany'
      rw [hplain t ht] at hsome
      cases hsome
    | succ fuel' =>
      -- Members that are no composites are expanded to themselves.
      have hsingle : members.mapM (fun t => some [t]) = some (members.map fun t => [t]) :=
        List.mapM_pure
      have hexpand := (mapM_eq_some_of_forall (P := fun _ => True)
        (g := expand kind T' fuel') members
        (fun t ht b hb => ⟨by rw [expand, hplain t ht]; exact hb, trivial⟩) _ hsingle).1
      rw [leavesFrom?_succ, hexpand, Option.bind_some, ← List.flatMap_def,
        List.flatMap_singleton']
  | succ fuel ih =>
    intro fuel' members leaves hfuel hms h
    obtain ⟨fuel', rfl⟩ : ∃ k, fuel' = k + 1 := ⟨fuel' - 1, by omega⟩
    rw [leavesFrom?_succ] at h
    obtain ⟨expanded, hexpanded, hleaves⟩ := Option.bind_eq_some_iff.mp h
    obtain rfl := Option.some.inj hleaves
    have hmember : ∀ t ∈ members, ∀ b, expand kind T fuel t = some b →
        expand kind T' fuel' t = some b ∧ T.HasAll b := by
      intro t ht b hb
      rw [expand] at hb ⊢
      rw [TypeTable.lookup_of_le hle (hms t ht)]
      cases hm : kind.members? (T.lookup t) with
      | none =>
        rw [hm] at hb
        obtain rfl := Option.some.inj hb
        refine ⟨rfl, fun s hs => ?_⟩
        rw [List.mem_singleton.mp hs]
        exact hms t ht
      | some nested =>
        rw [hm] at hb
        exact ih (by omega) (hasAll_members hT hm) hb
    obtain ⟨hexpanded', hhas⟩ := mapM_eq_some_of_forall members hmember _ hexpanded
    rw [leavesFrom?_succ, hexpanded']
    exact ⟨rfl, hasAll_flatten hhas⟩

theorem stable_leaves (hT : T.WellFormed) {members : List TypeId} (hms : T.HasAll members) :
    TypeM.Stable (do TypeM.ofOption (kind.leaves? (← get) members)) T TypeTable.HasAll := by
  intro leaves T' h
  have h' : TypeM.ofOption (kind.leaves? T members) T = .ok leaves T' := h
  cases hl : kind.leaves? T members with
  | none =>
    rw [hl] at h'
    cases h'
  | some found =>
    rw [hl] at h'
    obtain ⟨rfl, rfl⟩ := TypeM.pure_eq_ok.mp h'
    refine ⟨.refl hT, (leavesFrom?_of_le hT le_rfl _ (Nat.le_refl _) hms hl).2,
      fun T'' hle => ?_⟩
    have hl' := (leavesFrom?_of_le hT hle _ (TypeTable.rows_size_le hle) hms hl).1
    change TypeM.ofOption (kind.leaves? T'' members) T'' = _
    rw [leaves?, hl']
    rfl

/-- The members that go, in order. -/
def dropped (kind : Composite) (rel : TypeRelation) (env : Environment)
    (candidates : List TypeId) : TypeM (List TypeId) := do
  if pairwiseLimit < candidates.length then return []
  let found ← candidates.mapM fun member =>
    return (← kind.witness? rel env candidates member).map fun _ => member
  return found.filterMap id

private theorem map_mapM {α β γ : Type} {f : α → TypeM β} {g : β → γ} (l : List α) :
    List.map g <$> l.mapM f = l.mapM fun a => g <$> f a := by
  induction l with
  | nil => rfl
  | cons a l ih =>
    rw [List.mapM_cons, List.mapM_cons, ← ih]
    simp only [map_bind, map_pure, bind_map_left, List.map_cons]

private theorem map_filterMap_id {α β : Type} (f : α → β) (l : List (Option α)) :
    (l.filterMap id).map f = (l.map (Option.map f)).filterMap id := by
  rw [List.filterMap_map, List.map_filterMap]
  rfl

private theorem map_collect {α β γ : Type} {f : α → TypeM (Option β)} {f' : α → TypeM (Option γ)}
    {g : β → γ} (h : ∀ a, Option.map g <$> f a = f' a) (l : List α) :
    List.map g <$> (do return (← l.mapM f).filterMap id) =
      (do return (← l.mapM f').filterMap id) := by
  rw [map_bind, ← funext h, ← map_mapM, bind_map_left]
  refine bind_congr fun found => ?_
  rw [map_pure, map_filterMap_id]

/-- What is dropped does not depend on the texts about it. -/
theorem map_removed_redundancies (rel : TypeRelation) (candidates : List TypeId) :
    List.map Redundancy.removed <$> kind.redundancies rel w env candidates =
      kind.dropped rel env candidates := by
  rw [redundancies, dropped]
  split
  · rfl
  · refine map_collect (fun member => ?_) candidates
    rw [map_bind]
    refine bind_congr fun found => ?_
    cases found with
    | none => rfl
    | some witness => rfl

/-- The short form without the report. -/
theorem fst_build (rel : TypeRelation) (members : List TypeId) :
    Prod.fst <$> kind.build rel w env members = (do
      let leaves ← (do TypeM.ofOption (kind.leaves? (← get) members))
      match leaves.eraseDups with
      | [] => pure kind.neutral
      | [single] => pure single
      | flat => do
        let gone ← kind.dropped rel env (flat.filter isCandidate)
        kind.assemble (kind.survivors flat gone)) := by
  rw [build]
  simp only [map_bind, bind_assoc]
  refine bind_congr fun table => bind_congr fun leaves => ?_
  obtain _ | ⟨first, _ | ⟨second, rest⟩⟩ := leaves.eraseDups
  · rfl
  · rfl
  · dsimp only
    rw [← map_removed_redundancies (w := w), map_bind, bind_map_left]
    refine bind_congr fun gone => ?_
    rw [map_bind]
    simp only [map_pure, bind_pure]

theorem stable_assemble (hT : T.WellFormed) {members : List TypeId} (hms : T.HasAll members) :
    TypeM.Stable (kind.assemble members) T TypeTable.Has := by
  match members, hms with
  | [], _ => exact .pure hT (hT.has_reserved (by decide))
  | [single], hms => exact .pure hT (hms single (List.mem_singleton_self _))
  | first :: second :: rest, hms =>
    cases kind with
    | union => exact TypeM.stable_intern_has hT hms
    | intersection => exact TypeM.stable_intern_has hT hms

end Composite

namespace RelationLogic

variable {rel : TypeRelation} (L : RelationLogic rel w env) {kind : Composite}
  {members : List TypeId}

theorem dropped (h : w.Setting env T) {candidates : List TypeId}
    (hcandidates : T.HasAll candidates) :
    L.holds (kind.dropped rel env candidates) T fun _ _ => True := by
  rw [Composite.dropped]
  split
  · exact L.return' h.table trivial
  refine L.bind (L.mapM (W := fun _ _ => True) (fun _ _ _ _ _ => trivial) candidates h.table
    fun member hm T₁ hg₁ => ?_) fun _ _ hg _ => L.return' hg.wellFormed trivial
  refine L.bind (L.findM? candidates hg₁.wellFormed fun other ho T₂ hg₂ => ?_)
    fun _ _ hg _ => L.return' hg.wellFormed trivial
  have hg := hg₁.trans hg₂
  have hmember := (hcandidates member hm).of_le hg.le
  have hother := (hcandidates other ho).of_le hg.le
  split
  · exact L.return' hg.wellFormed trivial
  · cases kind with
    | union => exact L.strict (h.grow hg) hmember hother
    | intersection => exact L.strict (h.grow hg) hother hmember

/-- The short form of a composite of types of the table. -/
theorem build (h : w.Setting env T) (hms : T.HasAll members) :
    L.holds (Prod.fst <$> kind.build rel w env members) T TypeTable.Has := by
  rw [Composite.fst_build]
  refine L.bind (L.stable (Composite.stable_leaves h.table hms)) fun leaves T₁ hg₁ hleaves => ?_
  have hflat : T₁.HasAll leaves.eraseDups := fun t ht => hleaves t (List.mem_eraseDups.mp ht)
  generalize leaves.eraseDups = flat at hflat
  match flat, hflat with
  | [], _ =>
    refine L.return' hg₁.wellFormed (hg₁.wellFormed.has_reserved ?_)
    cases kind <;> decide
  | [single], hflat => exact L.return' hg₁.wellFormed (hflat single (List.mem_singleton_self _))
  | first :: second :: rest, hflat =>
    refine L.bind (L.dropped (h.grow hg₁) fun t ht => hflat t (List.mem_filter.mp ht).1)
      fun gone T₂ hg₂ _ => ?_
    refine L.stable (Composite.stable_assemble hg₂.wellFormed fun t ht => (hflat t ?_).of_le hg₂.le)
    exact (List.mem_filter.mp (List.mem_filter.mp ht).1).1

theorem create (h : w.Setting env T) (hms : T.HasAll members) :
    L.holds (kind.create rel w env members) T TypeTable.Has := by
  rw [Composite.create, bind_pure_comp]
  exact L.build h hms

/-- The short form of a type of the table. -/
theorem simplify (h : w.Setting env T) {t : TypeId} (ht : T.Has t) :
    L.holds (Prod.fst <$> ScriptTyping.simplify rel w env t) T TypeTable.Has := by
  rw [ScriptTyping.simplify, map_bind]
  refine L.lookup ht ?_
  have hparts := h.table.hasAll_parts t
  cases hd : T.lookup t with
  | union members =>
    rw [hd] at hparts
    exact L.build h hparts
  | intersection members =>
    rw [hd] at hparts
    exact L.build h hparts
  | _ => exact L.return' h.table ht

end RelationLogic

theorem stable_createUnion (h : w.Setting env T) {members : List TypeId}
    (hms : T.HasAll members) :
    TypeM.Stable (createUnion w.isSubtype w env members) T TypeTable.Has :=
  (w.stableAnswers env).create h hms

theorem stable_createIntersection (h : w.Setting env T) {members : List TypeId}
    (hms : T.HasAll members) :
    TypeM.Stable (createIntersection w.isSubtype w env members) T TypeTable.Has :=
  (w.stableAnswers env).create h hms

theorem stable_simplify (h : w.Setting env T) {t : TypeId} (ht : T.Has t) :
    TypeM.Stable (Prod.fst <$> simplify w.isSubtype w env t) T TypeTable.Has :=
  (w.stableAnswers env).simplify h ht

/-! ### Widening -/

private theorem approx_widenLiteralsFrom (fuel : Nat) : ∀ {fuel'}, fuel ≤ fuel' → ∀ t,
    TypeM.Approx (widenLiteralsFrom w.isSubtype w env fuel t)
      (widenLiteralsFrom w.isSubtype w env fuel' t) := by
  induction fuel with
  | zero => exact fun _ t => TypeM.approx_diverge _
  | succ fuel ih =>
    intro fuel' hfuel t
    obtain ⟨fuel', rfl⟩ : ∃ k, fuel' = k + 1 := ⟨fuel' - 1, by omega⟩
    rw [widenLiteralsFrom, widenLiteralsFrom]
    refine (TypeM.Approx.refl _).bind fun data => ?_
    cases data with
    | union members => exact (TypeM.Approx.mapM (ih (by omega)) members).bind fun _ => .refl _
    | _ => exact .refl _

theorem stable_widenLiteralsFrom (fuel : Nat) : ∀ {T : TypeTable} {t : TypeId},
    w.Setting env T → T.Has t →
    TypeM.Stable (widenLiteralsFrom w.isSubtype w env fuel t) T TypeTable.Has := by
  induction fuel with
  | zero => exact fun _ _ => TypeM.stable_diverge
  | succ fuel ih =>
    intro T t h ht
    rw [widenLiteralsFrom]
    refine .lookup ht ?_
    have hparts := h.table.hasAll_parts t
    cases hd : T.lookup t with
    | literal value => exact World.stable_literalBase h.table value
    | union members =>
      rw [hd] at hparts
      refine (TypeM.Stable.mapM (W := TypeTable.Has) (fun _ _ _ => TypeTable.Has.of_le) members
        h.table fun member hm T₁ hg =>
          ih (h.grow hg) ((hparts member hm).of_le hg.le)).bind fun widened T₁ hg hwidened => ?_
      split
      · exact .pure hg.wellFormed (ht.of_le hg.le)
      · exact stable_createUnion (h.grow hg) hwidened
    | _ => exact .pure h.table ht

theorem stable_widenLiterals (h : w.Setting env T) {t : TypeId} (ht : T.Has t) :
    TypeM.Stable (widenLiterals w.isSubtype w env t) T TypeTable.Has := by
  intro a T' ha
  have ha' : widenLiteralsFrom w.isSubtype w env (T.rows.size + 1) t T = .ok a T' := ha
  obtain ⟨hg, hhas, hlater⟩ := stable_widenLiteralsFrom _ h ht a T' ha'
  refine ⟨hg, hhas, fun T'' hle => ?_⟩
  -- A later table grants more fuel.
  have hsize := TypeTable.rows_size_le (le_trans hg.le hle)
  exact approx_widenLiteralsFrom _ (by omega) t T'' a T'' (hlater T'' hle)

theorem stable_sanitizeDeclared (h : w.Setting env T) {t : TypeId} (ht : T.Has t) (widen : Bool) :
    TypeM.Stable (sanitizeDeclared w.isSubtype w env t widen) T TypeTable.Has := by
  have hrest {T₁ : TypeTable} (hg : T.GrowsTo T₁) {upper : TypeId} (hu : T₁.Has upper) :
      TypeM.Stable (if widen = true then widenLiterals w.isSubtype w env upper else pure upper) T₁
        TypeTable.Has := by
    split
    · exact stable_widenLiterals (h.grow hg) hu
    · exact .pure hg.wellFormed hu
  rw [sanitizeDeclared]
  split
  · exact .pure h.table (h.table.has_reserved (by decide))
  split
  · exact .pure h.table (h.table.has_reserved (by decide))
  refine .lookup ht ?_
  by_cases hwild : (T.lookup t).isWildcard = true
  · rw [if_pos hwild]
    exact (TypeM.stable_upperBound h.table ht).bind fun upper T₁ hg hu => hrest hg hu
  · rw [if_neg hwild]
    exact hrest (.refl h.table) ht

/-! ### Narrowing -/

theorem stable_isExcluded (h : w.Setting env T) {excluded : List TypeId} {t : TypeId}
    (hexcluded : T.HasAll excluded) (ht : T.Has t) :
    TypeM.Stable (isExcluded w.isSubtype env excluded t) T fun _ _ => True :=
  .anyM excluded h.table fun ex hex _ hg =>
    (h.grow hg).stable_isSubtype (ht.of_le hg.le) ((hexcluded ex hex).of_le hg.le)

theorem stable_exclude (h : w.Setting env T) {excluded : List TypeId} {t : TypeId}
    (hexcluded : T.HasAll excluded) (ht : T.Has t) :
    TypeM.Stable (exclude w.isSubtype w env excluded t) T fun T' o => T'.HasAll o.toList := by
  have hwhole : TypeM.Stable (do
      return if ← isExcluded w.isSubtype env excluded t then none else some t) T
      fun T' o => T'.HasAll o.toList := by
    refine (stable_isExcluded h hexcluded ht).bind fun gone T₁ hg _ => .pure hg.wellFormed ?_
    split
    · exact TypeTable.hasAll_nil
    · exact (ht.of_le hg.le).hasAll
  rw [exclude]
  refine .lookup ht ?_
  have hparts := h.table.hasAll_parts t
  cases hd : T.lookup t with
  | union members =>
    rw [hd] at hparts
    refine (TypeM.Stable.filterM members h.table fun member hm T₁ hg =>
      (stable_isExcluded (h.grow hg) (hexcluded.of_le hg.le)
        ((hparts member hm).of_le hg.le)).bind fun _ _ hg' _ =>
          .pure hg'.wellFormed trivial).bind fun kept T₁ hg hkept => ?_
    have hall : T₁.HasAll kept := fun s hs => (hparts s (hkept s hs)).of_le hg.le
    split
    · exact .pure hg.wellFormed TypeTable.hasAll_nil
    split
    · exact .pure hg.wellFormed (ht.of_le hg.le).hasAll
    · exact (stable_createUnion (h.grow hg) hall).bind fun _ _ hg' hu =>
        .pure hg'.wellFormed hu.hasAll
  | _ => exact hwhole

private theorem hasAll_filterMap_id {os : List (Option TypeId)}
    (hos : ∀ o ∈ os, T.HasAll o.toList) : T.HasAll (os.filterMap id) := by
  intro t ht
  obtain ⟨o, ho, hsome⟩ := List.mem_filterMap.mp ht
  exact hos o ho t (Option.mem_toList.mpr hsome)

theorem stable_remaining (h : w.Setting env T) {holding excluded : List TypeId}
    (hholding : T.HasAll holding) (hexcluded : T.HasAll excluded) :
    TypeM.Stable (remaining w.isSubtype w env holding excluded) T TypeTable.HasAll := by
  rw [remaining]
  split
  · exact .pure h.table hholding
  refine (TypeM.Stable.mapM (W := fun T (o : Option TypeId) => T.HasAll o.toList)
    (fun _ _ _ => TypeTable.HasAll.of_le) holding h.table fun t ht T₁ hg =>
      stable_exclude (h.grow hg) (hexcluded.of_le hg.le) ((hholding t ht).of_le hg.le)).bind
    fun left T₁ hg hleft => .pure hg.wellFormed (hasAll_filterMap_id hleft)

/-- Narrowing a type of the table by facts about types of the table. -/
theorem stable_narrow (h : w.Setting env T) {base : Option TypeId} {facts : List TypeFact}
    (hbase : T.HasAll base.toList) (hfacts : ∀ fact ∈ facts, T.Has fact.type) :
    TypeM.Stable (narrow w.isSubtype w env base facts) T fun T' o => T'.HasAll o.toList := by
  have houtcome (outcome : Assertion) :
      T.HasAll ((facts.filter (·.assertion == outcome)).map (·.type)) := by
    intro t ht
    obtain ⟨fact, hfact, rfl⟩ := List.mem_map.mp ht
    exact hfacts fact (List.mem_filter.mp hfact).1
  rw [narrow]
  split
  · exact .pure h.table hbase
  refine (stable_remaining h (hbase.append (houtcome .alwaysHolds)) (houtcome .neverHolds)).bind
    fun types T₁ hg htypes => ?_
  match types, htypes with
  | [], _ => exact .pure hg.wellFormed (hbase.of_le hg.le)
  | [single], htypes => exact .pure hg.wellFormed htypes
  | first :: second :: rest, htypes =>
    exact (stable_createIntersection (h.grow hg) htypes).bind fun _ _ hg' hi =>
      .pure hg'.wellFormed hi.hasAll

end ScriptTyping
