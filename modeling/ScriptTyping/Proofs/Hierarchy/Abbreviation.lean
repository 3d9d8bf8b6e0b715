import ScriptTyping.Proofs.Agreement.Hierarchy
import ScriptTyping.Proofs.Table.Stable
import ScriptTyping.Signature.Resolution

/-!
# Names for types

A reference to a type alias is a name for the aliased type.  Where aliases are resolved, the name is
taken for the type itself, in every table in which both are stored: by the resolution of aliases,
and by the resolution of callees, which starts with it.

## Main definitions

* `World.Abbreviates` — a type is a name for another one.

## Main results

* `World.abbreviates_of_intrinsic` — every intrinsic type may be named.
* `World.Abbreviates.resolveAlias_name` — the name and the type resolve to the same.
* `World.Abbreviates.alike` — names do not depend on the annotations of elements.
-/

namespace ScriptTyping

theorem TypeM.lookup_run (t : TypeId) (T : TypeTable) : lookup t T = .ok (T.lookup t) T := rfl

/-- A type that is neither a wildcard nor a `this` with a receiver is its own upper bound. -/
theorem TypeM.upperBound_of_unbounded {T : TypeTable} {t : TypeId}
    (hwildcard : (T.lookup t).isWildcard = false) (hthis : (T.lookup t).isBoundThis = false) :
    upperBound t T = .ok t T := by
  have hbound (fuel : Nat) : T.boundFrom? fuel t = some t := by
    cases hrow : T.lookup t with
    | wildcard =>
      rw [hrow] at hwildcard
      cases hwildcard
    | thisType bound =>
      cases bound with
      | none => cases fuel <;> simp only [TypeTable.boundFrom?, hrow]
      | some bound =>
        rw [hrow] at hthis
        cases hthis
    | _ => cases fuel <;> simp only [TypeTable.boundFrom?, hrow]
  change ofOption (T.upperBound? t) T = _
  rw [TypeTable.upperBound?, hbound]
  rfl

namespace World

/-- In all tables from the given one on, the first type is a name for the second one, which nothing
is replaced in and which stands for itself: a reference to an alias of it, with rounds left to
resolve it. -/
structure Abbreviates (w : World) (T : TypeTable) (name type : TypeId) : Prop where
  initial : TypeTable.initial ≤ T
  reference : ∃ decl info, T.lookup? name = some (.nominal decl []) ∧ w.decl? decl = some info ∧
    info.kind = .typeAlias ∧ info.declaredType = some type
  has : T.Has type
  unbounded : (T.lookup type).isWildcard = false ∧ (T.lookup type).isBoundThis = false
  closed : ∀ (r : Traversal) room T', T ≤ T' → r.apply room type T' = .ok type T'
  rounds : ∀ T', T ≤ T' →
    w.resolveAliasFrom (RecursionProfile.hierarchy.maxDepth - 1) type T' = w.resolveAlias type T'

variable {w : World} {T T' : TypeTable} {name type : TypeId}

/-- Every intrinsic type may be named. -/
theorem abbreviates_of_intrinsic (hinitial : TypeTable.initial ≤ T) (htype : type.isIntrinsic)
    (hreference : ∃ decl info, T.lookup? name = some (.nominal decl []) ∧
      w.decl? decl = some info ∧ info.kind = .typeAlias ∧ info.declaredType = some type) :
    w.Abbreviates T name type := by
  have hlt : type.index < TypeId.firstDynamic := of_decide_eq_true htype
  have hinitially : TypeTable.initial.Has type := TypeTable.wellFormed_initial.has_reserved hlt
  have hlater {T' : TypeTable} (hle : T ≤ T') :
      T'.lookup type = TypeTable.initial.lookup type :=
    TypeTable.lookup_of_le (le_trans hinitial hle) hinitially
  have hrows : ∀ i < TypeId.firstDynamic,
      (TypeTable.initial.lookup ⟨i⟩).isWildcard = false ∧
      (TypeTable.initial.lookup ⟨i⟩).isBoundThis = false ∧
      (TypeTable.initial.lookup ⟨i⟩).application? = none := by decide
  obtain ⟨hwildcard, hthis, hplain⟩ := hrows type.index hlt
  have hrounds {T' : TypeTable} (hle : T ≤ T') (rounds : Nat) :
      w.resolveAliasFrom rounds type T' = .ok type T' := by
    have hexpand : w.expandAlias? type T' = .ok none T' := by
      rw [expandAlias?, TypeM.bind_of_ok (TypeM.lookup_run type T'), hlater hle]
      cases hdata : TypeTable.initial.lookup type with
      | nominal => cases hdata ▸ hplain
      | _ => rfl
    cases rounds with
    | zero => rfl
    | succ rounds => exact TypeM.bind_of_ok hexpand
  refine ⟨hinitial, hreference, hinitially.of_le hinitial, ?_, fun r room T' _ => ?_, ?_⟩
  · rw [hlater (le_refl T)]
    exact ⟨hwildcard, hthis⟩
  · cases room with
    | zero => rfl
    | succ room =>
      rw [Traversal.apply, if_pos htype]
      rfl
  · intro T' hle
    rw [hrounds hle, resolveAlias, hrounds hle]

namespace Abbreviates

variable (h : w.Abbreviates T name type) (hle : T ≤ T')

include h hle

theorem lookup_name : ∃ decl info, T'.lookup name = .nominal decl [] ∧ w.decl? decl = some info ∧
    info.kind = .typeAlias ∧ info.declaredType = some type := by
  obtain ⟨decl, info, hname, hinfo⟩ := h.reference
  exact ⟨decl, info, TypeTable.lookup_eq (TypeTable.lookup?_of_le hle hname), hinfo⟩

theorem substitute_type (env : Environment) : env.substitute type T' = .ok type T' := by
  rw [Environment.substitute]
  split
  · rfl
  · exact h.closed _ _ T' hle

/-- A reference without arguments has nothing to replace. -/
theorem substitute_name (env : Environment) : env.substitute name T' = .ok name T' := by
  obtain ⟨decl, -, hname, -⟩ := h.lookup_name hle
  rw [Environment.substitute]
  split
  · rfl
  · rw [Traversal.run, RecursionProfile.maxDepth, Traversal.apply]
    split
    · rfl
    · rw [TypeM.bind_of_ok (TypeM.lookup_run name T'), hname]
      rfl

theorem upperBound_type : TypeM.upperBound type T' = .ok type T' := by
  have hsame := TypeTable.lookup_of_le hle h.has
  exact TypeM.upperBound_of_unbounded (hsame ▸ h.unbounded.1) (hsame ▸ h.unbounded.2)

theorem upperBound_name : TypeM.upperBound name T' = .ok name T' := by
  obtain ⟨decl, -, hname, -⟩ := h.lookup_name hle
  exact TypeM.upperBound_of_unbounded (hname ▸ rfl) (hname ▸ rfl)

/-- The name and the type resolve to the same. -/
theorem resolveAlias_name : w.resolveAlias name T' = w.resolveAlias type T' := by
  obtain ⟨decl, info, hname, hinfo, hkind, htype⟩ := h.lookup_name hle
  have hexpand : w.expandAlias? name T' = .ok (some type) T' := by
    rw [expandAlias?, TypeM.bind_of_ok (TypeM.lookup_run name T'), hname]
    simp only [hinfo, hkind, htype, Substitution.ofArgs, List.zip_nil_right]
    rfl
  rw [← h.rounds T' hle]
  exact TypeM.bind_of_ok hexpand

/-- What is done with a resolved type does not depend on whether the name or the type is given. -/
theorem resolved_name {α : Type} (g : TypeId → TypeM α) :
    (w.resolveAlias name >>= g) T' = (w.resolveAlias type >>= g) T' := by
  change EStateM.bind (w.resolveAlias name) g T' = EStateM.bind (w.resolveAlias type) g T'
  simp only [EStateM.bind, h.resolveAlias_name hle]

theorem substituted_name {α : Type} (env : Environment) (g : TypeId → TypeM α) :
    (env.substitute name >>= fun t => w.resolveAlias t >>= g) T' =
      (env.substitute type >>= fun t => w.resolveAlias t >>= g) T' := by
  rw [TypeM.bind_of_ok (h.substitute_name hle env), TypeM.bind_of_ok (h.substitute_type hle env)]
  exact h.resolved_name hle g

theorem resolveCallable?_name (env : Environment) :
    w.resolveCallable? env name T' = w.resolveCallable? env type T' := by
  unfold resolveCallable?
  cases w.fuel with
  | zero => rfl
  | succ fuel => exact h.substituted_name hle env _

theorem resolveConstructible?_name (env : Environment) :
    w.resolveConstructible? env name T' = w.resolveConstructible? env type T' := by
  unfold resolveConstructible?
  cases w.fuel with
  | zero => rfl
  | succ fuel => exact h.substituted_name hle env _

/-- Dynamic `any` can be called. -/
theorem ne_dynamicAny_of_callable {env : Environment} {T'' : TypeTable}
    (hnone : w.resolveCallable? env type T' = .ok none T'') : type ≠ .dynamicAny := by
  rintro rfl
  have hrow : T'.lookup .dynamicAny = .dynamicAny :=
    TypeTable.lookup_of_le (le_trans h.initial hle) (by decide)
  have hresolve : w.resolveAlias .dynamicAny T' = .ok .dynamicAny T' := by
    refine TypeM.bind_of_ok (a := none) ?_
    rw [expandAlias?, TypeM.bind_of_ok (TypeM.lookup_run _ T'), hrow]
    rfl
  unfold resolveCallable? at hnone
  cases hfuel : w.fuel with
  | zero =>
    rw [hfuel] at hnone
    cases hnone
  | succ fuel =>
    rw [hfuel, resolveCallableFrom, TypeM.bind_of_ok (h.substitute_type hle env),
      TypeM.bind_of_ok hresolve, TypeM.bind_of_ok (TypeM.lookup_run _ T'), hrow] at hnone
    cases hnone

theorem name_ne_dynamicAny : name ≠ .dynamicAny := by
  rintro rfl
  obtain ⟨decl, -, hname, -⟩ := h.lookup_name hle
  have hrow : T'.lookup .dynamicAny = .dynamicAny :=
    TypeTable.lookup_of_le (le_trans h.initial hle) (by decide)
  cases hname.symm.trans hrow

end Abbreviates

/-- Expanding aliases does not see hidden annotations. -/
theorem AlikeBut.expandAlias? {v : Veil} {w' : World} (h : w.AlikeBut v w') (t : TypeId) :
    w'.expandAlias? t = w.expandAlias? t := by
  unfold World.expandAlias?
  refine bind_congr fun data => ?_
  cases data with
  | nominal decl args =>
    dsimp only
    rcases h.decl?_cases decl with he | ⟨info, aliased, he, he', hplain⟩
    · rw [he]
    · rw [he, he']
      rcases kind_of_plain hplain with hkind | hkind
      · simp only [hkind]
      · simp only [hkind]
  | _ => rfl

theorem AlikeBut.resolveAliasFrom {v : Veil} {w' : World} (h : w.AlikeBut v w') (rounds : Nat)
    (t : TypeId) : w'.resolveAliasFrom rounds t = w.resolveAliasFrom rounds t := by
  induction rounds generalizing t with
  | zero => rfl
  | succ rounds ih => simp only [World.resolveAliasFrom, h.expandAlias?, ih]

theorem Abbreviates.alike {v : Veil} {w' : World} (h : w.Abbreviates T name type)
    (hw : w.AlikeBut v w') : w'.Abbreviates T name type where
  initial := h.initial
  reference := by
    obtain ⟨decl, info, hname, hinfo, hkind, htype⟩ := h.reference
    refine ⟨decl, info, hname, ?_, hkind, htype⟩
    rcases hw.decl?_cases decl with he | ⟨info', _, he, -, hplain⟩
    · exact he.trans hinfo
    · cases hinfo.symm.trans he
      rcases kind_of_plain hplain with hplain | hplain
      · cases hkind.symm.trans hplain
      · cases hkind.symm.trans hplain
  has := h.has
  unbounded := h.unbounded
  closed := h.closed
  rounds T' hle := by
    rw [hw.resolveAliasFrom, resolveAlias, hw.resolveAliasFrom]
    exact h.rounds T' hle

end World

theorem TypeM.Agrees.congr_right {v : Veil} {α β : Type} {V : α → β → Prop} {x : TypeM α}
    {y y' : TypeM β} (h : Agrees v x y V) (hy : ∀ T : TypeTable, T.Hides v → y' T = y T) :
    Agrees v x y' V := by
  intro T hT a T' ha
  obtain ⟨hle, hT', b, hb, hab⟩ := h T hT a T' ha
  exact ⟨hle, hT', b, (hy T hT).trans hb, hab⟩

end ScriptTyping
