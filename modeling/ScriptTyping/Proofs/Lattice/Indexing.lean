import ScriptTyping.Proofs.Agreement.Lattice
import ScriptTyping.Proofs.Lattice.SharedSupertypes

/-!
# Reading columns of type arguments by position

The join of references to one generic declaration reads the arguments of all references column by
column.  Here the columns are read by position, and a position outside of a list is a fault.  No
fault is ever met: the references that are merged come one from each argument of the join, all of
them refer to the declaration, and they have as many arguments as it has type parameters.

## Main definitions

* `Join.IndexM`, `Join.readAt` — computations in which reading outside of a list is a fault.
* `Join.mergeColumnsAt`, `Join.mergeAt`, `Join.commonAt` — the shared super types, by position.

## Main results

* `Join.commonAt_eq` — the shared super types are found without a fault.
-/

namespace ScriptTyping.Join

/-- Computations in which reading outside of a list is a fault. -/
abbrev IndexM := OptionT ReportM

/-- Reads a list at a position. -/
def readAt {α : Type} (l : List α) (i : Nat) : IndexM α := OptionT.mk (pure l[i]?)

variable (rel : TypeRelation) (w : World) (env : Environment)
  (join : List TypeId → ReportM TypeId)

/-- Merges the columns of arguments from the `i`-th type parameter to the last. -/
def mergeColumnsAt (rows : List (List TypeId)) :
    Nat → List DeclId → IndexM (Option (List TypeId))
  | i, param :: params => do
    let column ← rows.mapM (readAt · i)
    let _ ← readAt column 0
    match ← OptionT.lift (mergeColumn rel env join (w.declarations.variance param) column) with
    | none => return none
    | some arg => return (← mergeColumnsAt rows (i + 1) params).map (arg :: ·)
  | _, [] => return some []

/-- Merges several references to one declaration into one. -/
def mergeAt (decl : DeclId) (references : List TypeId) : IndexM (Option TypeId) := do
  match w.decl? decl with
  | none => return none
  | some info =>
    let table ← OptionT.lift (liftM (get : TypeM TypeTable))
    let rows := references.filterMap fun t => (table.lookup t).application?.map (·.2)
    if rows.any fun args => args.length != info.typeParams.length then
      return some (← OptionT.lift (liftM (TypeM.simple decl)))
    match ← mergeColumnsAt rel w env join rows 0 info.typeParams with
    | some args => return some (← OptionT.lift (liftM (TypeM.nominal decl args)))
    | none => return none

/-- The super types that all arguments share, without `Object`. -/
def commonAt (args : List TypeId) : IndexM (List TypeId) := do
  let closures ← OptionT.lift (args.mapM fun t => (w.supertypes t : ReportM (List TypeId)))
  let table ← OptionT.lift (liftM (get : TypeM TypeTable))
  let shared := (declarationsOf table (closures.head?.getD [])).filterMap fun decl =>
    (firstReferences? table decl closures).map fun references => (decl, references)
  let merged ← shared.mapM fun (decl, references) => do
    let first ← readAt references 0
    if references.all (· == first) then return some first
    mergeAt rel w env join decl references
  let all := merged.filterMap id ++ sharedOthers table closures
  return all.filter (· != w.objectType)

/-! ### Positions in range -/

theorem readAt_of_lt {α : Type} {l : List α} {i : Nat} (h : i < l.length) :
    readAt l i = pure l[i] := by
  rw [readAt, List.getElem?_eq_getElem h]
  rfl

/-- A column of rows that are long enough. -/
theorem mapM_readAt {rows : List (List TypeId)} {i : Nat} (h : ∀ row ∈ rows, i < row.length) :
    rows.mapM (readAt · i) = (pure (rows.filterMap (·[i]?)) : IndexM (List TypeId)) := by
  induction rows with
  | nil => rfl
  | cons row rows ih =>
    have hrow : i < row.length := h row (List.mem_cons_self ..)
    rw [List.mapM_cons, readAt_of_lt hrow, ih fun row hr => h row (List.mem_cons_of_mem _ hr),
      pure_bind, pure_bind, List.filterMap_cons, List.getElem?_eq_getElem hrow]

/-- Lifting respects sequencing. -/
private theorem lift_bind {α β : Type} (x : ReportM α) (f : α → ReportM β) :
    (OptionT.lift (x >>= f) : IndexM β) = OptionT.lift x >>= fun a => OptionT.lift (f a) := by
  apply OptionT.ext
  simp [OptionT.run_bind]

private theorem lift_pure {α : Type} (a : α) :
    (OptionT.lift (pure a : ReportM α) : IndexM α) = pure a := by
  apply OptionT.ext
  simp

variable {rel w env join}

theorem mergeColumnsAt_eq {rows : List (List TypeId)} (hrows : rows ≠ []) (params : List DeclId) :
    ∀ i, (∀ row ∈ rows, row.length = i + params.length) →
      mergeColumnsAt rel w env join rows i params =
        OptionT.lift (mergeColumns rel w env join params (rows.map (List.drop i))) := by
  induction params with
  | nil => exact fun i _ => (lift_pure _).symm
  | cons param params ih =>
    intro i hlength
    have hlt : ∀ row ∈ rows, i < row.length := fun row hrow => by
      rw [hlength row hrow, List.length_cons]
      omega
    have hcolumn : (rows.map (List.drop i)).filterMap List.head? = rows.filterMap (·[i]?) := by
      rw [List.filterMap_map]
      exact List.filterMap_congr fun row _ => List.head?_drop
    have hrest : (rows.map (List.drop i)).map List.tail = rows.map (List.drop (i + 1)) := by
      rw [List.map_map]
      exact List.map_congr_left fun row _ => List.tail_drop
    have hne : 0 < (rows.filterMap (·[i]?)).length := by
      obtain ⟨row, hrow⟩ := List.exists_mem_of_ne_nil rows hrows
      refine List.length_pos_of_mem (a := row.get ⟨i, hlt row hrow⟩) ?_
      exact List.mem_filterMap.mpr ⟨row, hrow, List.getElem?_eq_getElem _⟩
    have hnext := ih (i + 1) fun row hrow => by
      rw [hlength row hrow, List.length_cons]
      omega
    rw [mergeColumnsAt, mergeColumns, mapM_readAt hlt, pure_bind, readAt_of_lt hne, pure_bind,
      hcolumn, hrest, lift_bind]
    refine bind_congr fun merged => ?_
    cases merged with
    | none => exact (lift_pure _).symm
    | some arg => rw [hnext, lift_bind]; simp only [lift_pure]

/-- The references that are merged have rows of arguments, also in a later table. -/
theorem rows_ne_nil {table table' : TypeTable} (hle : table ≤ table') {decl : DeclId}
    {closures : List (List TypeId)} {references : List TypeId}
    (h : firstReferences? table decl closures = some references) (hne : references ≠ []) :
    (references.filterMap fun t => (table'.lookup t).application?.map (·.2)) ≠ [] := by
  cases closures with
  | nil =>
    cases h
    exact absurd rfl hne
  | cons closure closures =>
    rw [firstReferences?_eq, List.mapM_cons] at h
    obtain ⟨t, ht, h⟩ := Option.bind_eq_some_iff.mp h
    obtain ⟨rest, -, h⟩ := Option.bind_eq_some_iff.mp h
    cases h
    have hreference := List.find?_some ht
    unfold isReferenceTo at hreference
    split at hreference
    · rename_i d args hdata
      have hhas : table.Has t := TypeTable.has_of_lookup_ne (by rw [hdata]; exact nofun)
      rw [List.filterMap_cons, TypeTable.lookup_of_le hle hhas, hdata]
      exact List.cons_ne_nil _ _
    · cases hreference

/-- From every table beyond the given one, the second computation does what the first one does, and
meets no fault. -/
def Unfaulted {α : Type} (base : TypeTable) (x : ReportM α) (y : IndexM α) : Prop :=
  ∀ reports T, base ≤ T → y.run reports T = (some <$> x) reports T ∧
    ∀ a reports' T', x reports T = .ok (a, reports') T' → T ≤ T'

namespace Unfaulted

variable {α β : Type} {base : TypeTable}

theorem lift {x : ReportM α} (h : (reportAgreement .transparent).rel x x Eq) :
    Unfaulted base x (OptionT.lift x) := fun reports T _ =>
  ⟨rfl, fun a reports' T' hx => (h reports T T.hides_transparent (a, reports') T' hx).1⟩

theorem pure (a : α) : Unfaulted base (pure a) (pure a) := by
  intro reports T _
  refine ⟨rfl, fun _ _ T' h => ?_⟩
  cases h
  exact le_refl T

theorem bind {x : ReportM α} {y : IndexM α} {f : α → ReportM β} {g : α → IndexM β}
    (hx : Unfaulted base x y) (hf : ∀ a, Unfaulted base (f a) (g a)) :
    Unfaulted base (x >>= f) (y >>= g) := by
  intro reports T hT
  obtain ⟨hrun, hgrows⟩ := hx reports T hT
  have hsecond : (y >>= g).run reports T = EStateM.bind (y.run reports)
      (fun r => (r.1.elim (Pure.pure none) fun a => (g a).run : ReportM (Option β)) r.2) T := by
    rw [OptionT.run_bind]
    rfl
  have hfirst (γ : Type) (k : α → ReportM γ) : (x >>= k) reports T =
      EStateM.bind (x reports) (fun r => k r.1 r.2) T := rfl
  have hmap : (some <$> (x >>= f)) reports T = (x >>= fun a => some <$> f a) reports T := by
    rw [map_bind]
  have hnext : (some <$> x) reports T = (x >>= fun a => Pure.pure (some a)) reports T := by
    rw [map_eq_pure_bind]
  rw [hmap, hsecond, hfirst, hfirst, EStateM.bind, hrun, hnext, hfirst, EStateM.bind, EStateM.bind,
    EStateM.bind]
  cases hcase : x reports T with
  | error e T₁ => exact ⟨rfl, nofun⟩
  | ok r T₁ =>
    obtain ⟨a, reports₁⟩ := r
    have hle := hgrows a reports₁ T₁ hcase
    obtain ⟨hrun₁, hgrows₁⟩ := hf a reports₁ T₁ (le_trans hT hle)
    exact ⟨hrun₁, fun b reports' T' h => le_trans hle (hgrows₁ b reports' T' h)⟩

theorem mapM {f : α → ReportM β} {g : α → IndexM β} (l : List α)
    (h : ∀ a ∈ l, Unfaulted base (f a) (g a)) : Unfaulted base (l.mapM f) (l.mapM g) := by
  induction l with
  | nil => exact .pure []
  | cons a l ih =>
    rw [List.mapM_cons, List.mapM_cons]
    exact (h a (List.mem_cons_self ..)).bind fun b =>
      (ih fun a' ha' => h a' (List.mem_cons_of_mem _ ha')).bind fun bs => .pure (b :: bs)

end Unfaulted

/-- Reading the whole table. -/
private theorem Unfaulted.get {α : Type} {base : TypeTable} {f : TypeTable → ReportM α}
    {g : TypeTable → IndexM α} (h : ∀ table, base ≤ table → Unfaulted table (f table) (g table)) :
    Unfaulted base (liftM (MonadState.get : TypeM TypeTable) >>= f)
      (OptionT.lift (liftM (MonadState.get : TypeM TypeTable)) >>= g) :=
  fun reports T hT => h T hT reports T (le_refl T)

private theorem unfaulted_lift {α : Type} {base : TypeTable} {x : TypeM α}
    (h : TypeM.Agrees .transparent x x Eq) :
    Unfaulted base (liftM x : ReportM α) (OptionT.lift (liftM x)) :=
  .lift ((TypeM.agreement .transparent).stateT_lift h)

theorem unfaulted_merge (hrel : rel.Agrees .transparent rel)
    (hjoin : Nested .transparent join join) {table : TypeTable} {decl : DeclId}
    {closures : List (List TypeId)} {references : List TypeId}
    (hreferences : firstReferences? table decl closures = some references) (hne : references ≠ []) :
    Unfaulted table (merge rel w env join decl references)
      (mergeAt rel w env join decl references) := by
  unfold merge mergeAt
  cases w.decl? decl with
  | none => exact .pure none
  | some info =>
    refine .get fun table' hle => ?_
    dsimp only
    split
    · exact (unfaulted_lift (World.agrees_simple decl)).bind fun _ => .pure _
    rename_i hwidth
    have hlength : ∀ row ∈ references.filterMap fun t =>
        (table'.lookup t).application?.map (·.2), row.length = 0 + info.typeParams.length := by
      intro row hrow
      rw [Nat.zero_add]
      by_contra hdiffers
      exact hwidth (List.any_eq_true.mpr ⟨row, hrow, bne_iff_ne.mpr hdiffers⟩)
    have hall : List.drop 0 = (id : List TypeId → List TypeId) := rfl
    rw [mergeColumnsAt_eq (rows_ne_nil hle hreferences hne) _ 0 hlength, hall, List.map_id]
    refine (Unfaulted.lift (agrees_mergeColumns (.refl w) hrel hjoin env _ _)).bind fun args => ?_
    cases args with
    | none => exact .pure none
    | some args =>
      have hstored := @TypeM.agrees_intern .transparent (.nominal decl args) trivial
      exact (unfaulted_lift hstored).bind fun _ => .pure _

/-- The shared super types are found without reading outside of a list. -/
theorem unfaulted_common (hrel : rel.Agrees .transparent rel)
    (hjoin : Nested .transparent join join) (base : TypeTable) (args : List TypeId) :
    Unfaulted base (common rel w env join args) (commonAt rel w env join args) := by
  refine (Unfaulted.lift ?_).bind fun closures => .get fun table _ => ?_
  · exact (reportAgreement .transparent).mapMEq args fun t _ =>
      (TypeM.agreement .transparent).stateT_lift (World.agrees_supertypes (.refl w) t)
  dsimp only
  refine (Unfaulted.mapM _ fun shared hshared => ?_).bind fun merged => .pure _
  obtain ⟨decl, references⟩ := shared
  obtain ⟨_, hdecl, hfound⟩ := List.mem_filterMap.mp hshared
  obtain ⟨_, hreferences, hpair⟩ := Option.map_eq_some_iff.mp hfound
  cases hpair
  cases references with
  | nil =>
    -- The first list refers to the declaration, so there is a first list and a first reference.
    cases closures with
    | nil => cases hdecl
    | cons closure closures =>
      rw [firstReferences?_eq, List.mapM_cons] at hreferences
      obtain ⟨t, -, hreferences⟩ := Option.bind_eq_some_iff.mp hreferences
      obtain ⟨rest, -, hreferences⟩ := Option.bind_eq_some_iff.mp hreferences
      cases hreferences
  | cons first rest =>
    dsimp only
    rw [readAt_of_lt (Nat.zero_lt_succ _), pure_bind]
    simp only [List.getElem_cons_zero, List.all_cons, beq_self_eq_true, Bool.true_and]
    split
    · exact .pure _
    · exact unfaulted_merge hrel hjoin hreferences (List.cons_ne_nil _ _)

end ScriptTyping.Join
