import ScriptTyping.Proofs.Subtyping.Check
import ScriptTyping.Proofs.Termination.Hierarchy

/-!
# Termination of subtyping

A subtype query is bounded by its recursion guard, and all walks that it starts are bounded too,
except the one that tells object types from others.  That walk is started only for the comparison
with `Object`, on a type whose aliases were expanded.  If the expansion ended in a reference to an
alias, because the aliases run in a circle or for ever, the walk expands again, and nothing but
coming back to the very same reference stops it.  This file shows that there is no other obstacle:
subtype queries end exactly if the walk ends on the references to aliases that expansion leaves.

## Main definitions

* `World.AliasWalksEnd` — the walk ends on references to aliases that expansion leaves.

## Main results

* `Subtyping.settles_check` — the guarded recursion returns.
* `Subtyping.isSubtype_terminates_iff` — the exact condition.
* `Subtyping.isSubtype_diverges_cycle` — a circle of three aliases.
-/

namespace ScriptTyping

/-- Whether a type is an object type is decided on every reference to an alias that the expansion
of aliases leaves, in every table that may arise. -/
def World.AliasWalksEnd (w : World) (T : TypeTable) : Prop :=
  ∀ T₁, T.GrowsTo T₁ → ∀ t t₁ T₂, T₁.Has t → w.resolveAlias t T₁ = .ok t₁ T₂ →
    w.IsAliasReference T₂ t₁ → ∃ n b T', w.isObjectLikeFrom n t₁ T₂ = .ok b T'

namespace Subtyping

variable {w : World} {T T' : TypeTable}

/-! ### Plans -/

/-- A type of which it may be asked whether it is an object type. -/
def IsCandidate : TypeData → Prop
  | .nominal .. | .function _ | .structural _ | .metaType .. => True
  | _ => False

/-- On a candidate that is no reference to an alias the question is answered at once. -/
theorem isObjectLikeFrom_candidate {t : TypeId} (hcandidate : IsCandidate (T.lookup t))
    (halias : ¬w.IsAliasReference T t) :
    ∃ b, ∀ n, w.isObjectLikeFrom (n + 1) t T = .ok b T := by
  cases hd : T.lookup t with
  | nominal decl args =>
    have hkind : w.declarations.kind? decl ≠ some .typeAlias :=
      fun hkind => halias ⟨decl, args, hd, hkind⟩
    refine ⟨(w.declarations.kind? decl).isSome, fun n => ?_⟩
    rw [World.isObjectLikeFrom]
    refine TypeM.bind_eq_ok.mpr ⟨_, T, rfl, ?_⟩
    rw [hd]
    dsimp only
    cases hk : w.declarations.kind? decl with
    | none => rfl
    | some kind =>
      cases kind with
      | typeAlias => exact absurd hk hkind
      | _ => rfl
  | function | structural | metaType =>
    refine ⟨true, fun n => ?_⟩
    rw [World.isObjectLikeFrom]
    refine TypeM.bind_eq_ok.mpr ⟨_, T, rfl, ?_⟩
    rw [hd]
    rfl
  | _ =>
    rw [hd] at hcandidate
    exact hcandidate.elim

theorem settles_isObjectLike (hT : T.WellFormed) (hw : w.Within T) {t : TypeId} (ht : T.Has t)
    (hcandidate : IsCandidate (T.lookup t))
    (hend : w.IsAliasReference T t → ∃ n b T', w.isObjectLikeFrom n t T = .ok b T') :
    TypeM.Settles (fun n => (w.withFuel n).isObjectLike t) T fun _ _ => True := by
  simp only [World.isObjectLike_withFuel]
  by_cases halias : w.IsAliasReference T t
  · obtain ⟨n, b, T', h⟩ := hend halias
    exact TypeM.settles_of_approx (fun n m hnm => w.isObjectLikeFrom_mono hnm t) h
      (World.stable_isObjectLikeFrom n hT hw ht)
  · obtain ⟨b, hb⟩ := isObjectLikeFrom_candidate hcandidate halias
    refine ⟨1, b, T, .refl hT, trivial, fun m hm => ?_⟩
    obtain ⟨k, rfl⟩ : ∃ k, m = k + 1 := ⟨m - 1, by omega⟩
    exact hb k

theorem settles_upperBound (hT : T.WellFormed) (hdesc : T.Descending) {t : TypeId}
    (ht : T.Has t) : TypeM.Settles (fun _ => TypeM.upperBound t) T TypeTable.Has := by
  obtain ⟨b, hb⟩ := TypeTable.exists_upperBound hT hdesc ht
  have h : TypeM.upperBound t T = .ok b T := by
    change TypeM.ofOption (T.upperBound? t) T = _
    rw [hb]
    rfl
  obtain ⟨hg, hv, -⟩ := TypeM.stable_upperBound hT ht b T h
  exact ⟨0, b, T, hg, hv, fun _ _ => h⟩

theorem argumentGoals_withFuel (n : Nat) (params : List DeclId) (sources targets : List TypeId) :
    argumentGoals (w.withFuel n) params sources targets =
      argumentGoals w params sources targets := by
  induction sources generalizing params targets with
  | nil => simp only [argumentGoals]
  | cons s sources ih =>
    cases targets with
    | nil => simp only [argumentGoals]
    | cons t targets =>
      rw [argumentGoals, argumentGoals, ih]
      rfl

/-- Only the comparison with `Object` looks at the fuel. -/
theorem nominalPlan_withFuel (n : Nat) (s : TypeId) {decl : DeclId} {args : List TypeId}
    (h : ¬(decl = w.builtins.object ∧ args = [])) :
    nominalPlan (w.withFuel n) s decl args = nominalPlan w s decl args := by
  have hn : ¬(decl = (w.withFuel n).builtins.object ∧ args = []) := h
  rw [nominalPlan, nominalPlan, if_neg h, if_neg hn]
  simp only [World.findInstantiation?_withFuel, argumentGoals_withFuel]
  rfl

theorem settles_nominalPlan (hT : T.WellFormed) (hw : w.Within T) {s : TypeId} (hs : T.Has s)
    (hobject : TypeM.Settles (fun n => (w.withFuel n).isObjectLike s) T fun _ _ => True)
    (decl : DeclId) (args : List TypeId) :
    TypeM.Settles (fun n => nominalPlan (w.withFuel n) s decl args) T fun _ _ => True := by
  by_cases h : decl = w.builtins.object ∧ args = []
  · have hplan (n : Nat) : nominalPlan (w.withFuel n) s decl args =
        (do return .verdict (← (w.withFuel n).isObjectLike s)) := if_pos h
    simp only [hplan]
    exact hobject.bind fun _ _ hg _ => .pure hg.wellFormed trivial
  · simp only [nominalPlan_withFuel _ _ h]
    simp only [nominalPlan, if_neg h]
    refine ((w.total_findInstantiation? s decl).settles
      (World.stable_findInstantiation? hT hw hs decl)).bind fun o T₁ hg _ => ?_
    cases o with
    | none => exact .pure hg.wellFormed trivial
    | some found =>
      exact .ite (fun _ => .pure hg.wellFormed trivial) fun _ => .pure hg.wellFormed trivial

/-- Only the comparison of a candidate with a reference looks at the fuel. -/
theorem layerPlan_withFuel (n : Nat) (s t : TypeId) {sd td : TypeData}
    (h : ¬(IsCandidate sd ∧ ∃ decl args, td = .nominal decl args)) :
    layerPlan (w.withFuel n) s t sd td = layerPlan w s t sd td := by
  unfold layerPlan
  split
  all_goals first
    | rfl
    | exact absurd ⟨trivial, _, _, rfl⟩ h

theorem layerPlan_candidate (s t : TypeId) {sd : TypeData} (h : IsCandidate sd) (decl : DeclId)
    (args : List TypeId) :
    layerPlan w s t sd (.nominal decl args) = nominalPlan w s decl args := by
  cases sd with
  | nominal | function | structural | metaType => rfl
  | _ => exact h.elim

theorem settles_layerPlan (hT : T.WellFormed) (hdesc : T.Descending) (hw : w.Within T)
    {s t : TypeId} (hs : T.Has s)
    (hend : w.IsAliasReference T s → ∃ n b T', w.isObjectLikeFrom n s T = .ok b T') :
    TypeM.Settles (fun n => layerPlan (w.withFuel n) s t (T.lookup s) (T.lookup t)) T
      fun _ _ => True := by
  by_cases h : IsCandidate (T.lookup s) ∧ ∃ decl args, T.lookup t = .nominal decl args
  · obtain ⟨hcandidate, decl, args, ht⟩ := h
    simp only [ht, layerPlan_candidate s t hcandidate]
    exact settles_nominalPlan hT hw hs (settles_isObjectLike hT hw hs hcandidate hend) decl args
  · simp only [layerPlan_withFuel _ s t h]
    unfold layerPlan
    split
    · exact (settles_upperBound hT hdesc hs).bind fun _ _ hg _ =>
        .ite (fun _ => .pure hg.wellFormed trivial) fun _ => .pure hg.wellFormed trivial
    all_goals first
      | exact .pure hT trivial
      | exact .ite (fun _ => .pure hT trivial) fun _ => .pure hT trivial
      | exact ((World.total_literalBase _).settles (World.stable_literalBase hT _)).bind
          fun _ _ hg _ => .pure hg.wellFormed trivial
      | rename_i hd hd'
        exact absurd ⟨hd ▸ trivial, _, _, hd'⟩ h

theorem expandedPlan_cases (s t : TypeId) (sd td : TypeData) :
    (∃ p, ∀ w, expandedPlan w s t sd td = pure p) ∨
      ∀ w, expandedPlan w s t sd td = layerPlan w s t sd td := by
  cases sd <;> cases td <;> first
    | exact .inl ⟨_, fun _ => rfl⟩
    | exact .inr fun _ => rfl

theorem settles_plan (hT : T.WellFormed) (hdesc : T.Descending) (hw : w.Within T)
    (hend : w.AliasWalksEnd T) {s t : TypeId} (hs : T.Has s) (ht : T.Has t) :
    TypeM.Settles (fun n => plan (w.withFuel n) s t) T Plan.Within := by
  refine TypeM.Settles.of_stable ?_ fun n => stable_plan hT (hw.withFuel n) hs ht
  unfold plan
  simp only [World.resolveAlias_withFuel]
  refine .ite (fun _ => .pure hT trivial) fun _ => ?_
  refine .ite (fun _ => .pure hT trivial) fun _ => ?_
  refine .ite (fun _ => .pure hT trivial) fun _ => ?_
  refine .ite (fun _ => .pure hT trivial) fun _ => ?_
  refine .ite (fun _ => .pure hT trivial) fun _ => ?_
  refine ((w.total_resolveAlias s).settles (World.stable_resolveAlias hT hw hs).replays).bind
    fun s₁ T₁ hg₁ hs₁ => ?_
  obtain ⟨hs₁, hreplay⟩ := hs₁
  refine ((w.total_resolveAlias t).settles (World.stable_resolveAlias hg₁.wellFormed
    (hw.of_le hg₁.le) (ht.of_le hg₁.le))).bind fun t₁ T₂ hg₂ _ => ?_
  have hg := hg₁.trans hg₂
  refine .lookup (.lookup ?_)
  obtain ⟨p, hp⟩ | hlayer := expandedPlan_cases s₁ t₁ (T₂.lookup s₁) (T₂.lookup t₁)
  · simp only [hp]
    exact .pure hg₂.wellFormed trivial
  · simp only [hlayer]
    refine settles_layerPlan hg₂.wellFormed (hdesc.growsTo hg) (hw.of_le hg.le)
      (hs₁.of_le hg₂.le) ?_
    exact hend T₂ hg s s₁ T₂ (hs.of_le hg.le) (hreplay T₂ hg₂.le)


/-! ### The guarded recursion -/

/-- The computation settles under every guard. -/
def Settles {α : Type} (x : Nat → CheckM α) (T : TypeTable) (V : TypeTable → α → Prop) : Prop :=
  ∀ g, TypeM.Settles (fun n => x n g) T fun T' r => V T' r.1

section Settles

variable {α β : Type} {V : TypeTable → α → Prop} {W : TypeTable → β → Prop}

theorem Settles.pure {a : α} (hT : T.WellFormed) (h : V T a) :
    Settles (fun _ => (Pure.pure a : CheckM α)) T V :=
  fun _ => TypeM.Settles.pure hT h

theorem Settles.bind {x : Nat → CheckM α} {f : Nat → α → CheckM β} (hx : Settles x T V)
    (hf : ∀ a T', T.GrowsTo T' → V T' a → Settles (fun n => f n a) T' W) :
    Settles (fun n => x n >>= f n) T W :=
  fun g => (hx g).bind fun r T' hg hv => hf r.1 T' hg hv r.2

theorem Settles.lift {x : Nat → TypeM α} (hx : TypeM.Settles x T V) :
    Settles (fun n => (liftM (x n) : CheckM α)) T V :=
  fun _ => hx.bind fun _ _ hg hv => .pure hg.wellFormed hv

theorem Settles.allM {p : Nat → α → CheckM Bool} (l : List α) :
    ∀ {T}, T.WellFormed →
      (∀ a ∈ l, ∀ T', T.GrowsTo T' → Settles (fun n => p n a) T' fun _ _ => True) →
      Settles (fun n => l.allM (p n)) T fun _ _ => True := by
  induction l with
  | nil => exact fun hT _ => .pure hT trivial
  | cons a l ih =>
    intro T hT hp
    refine (hp a (List.mem_cons_self ..) T (.refl hT)).bind fun b T₁ hg₁ _ => ?_
    cases b with
    | true =>
      exact ih hg₁.wellFormed fun a' ha' T' hg =>
        hp a' (List.mem_cons_of_mem _ ha') T' (hg₁.trans hg)
    | false => exact .pure hg₁.wellFormed trivial

theorem Settles.anyM {p : Nat → α → CheckM Bool} (l : List α) :
    ∀ {T}, T.WellFormed →
      (∀ a ∈ l, ∀ T', T.GrowsTo T' → Settles (fun n => p n a) T' fun _ _ => True) →
      Settles (fun n => l.anyM (p n)) T fun _ _ => True := by
  induction l with
  | nil => exact fun hT _ => .pure hT trivial
  | cons a l ih =>
    intro T hT hp
    refine (hp a (List.mem_cons_self ..) T (.refl hT)).bind fun b T₁ hg₁ _ => ?_
    cases b with
    | true => exact .pure hg₁.wellFormed trivial
    | false =>
      exact ih hg₁.wellFormed fun a' ha' T' hg =>
        hp a' (List.mem_cons_of_mem _ ha') T' (hg₁.trans hg)

end Settles

/-- What the recursion keeps: a well-formed table whose rows descend, declarations within it, and
walks over aliases that end. -/
structure Ready (w : World) (T : TypeTable) : Prop where
  wellFormed : T.WellFormed
  descending : T.Descending
  within : w.Within T
  walksEnd : w.AliasWalksEnd T

theorem Ready.growsTo (h : Ready w T) (hg : T.GrowsTo T') : Ready w T' where
  wellFormed := hg.wellFormed
  descending := h.descending.growsTo hg
  within := h.within.of_le hg.le
  walksEnd T₁ hg₁ := h.walksEnd T₁ (hg.trans hg₁)

private theorem settles_argumentPairs (h : Ready w T) {s t : TypeId} (hs : T.Has s)
    (variance : Variance) :
    TypeM.Settles (fun _ => argumentPairs s t variance) T fun _ _ => True := by
  have hT := h.wellFormed
  unfold argumentPairs
  refine .ite (fun _ => .pure hT trivial) fun _ => .lookup ?_
  split
  · exact .pure hT trivial
  · exact (settles_upperBound hT h.descending hs).bind fun _ _ hg _ => .pure hg.wellFormed trivial
  · refine .lookup ?_
    split <;> exact .pure hT trivial
  · split <;> exact .pure hT trivial

theorem settles_pairs (h : Ready w T) {goal : Goal} (hgoal : goal.Within T) :
    TypeM.Settles (fun _ => goal.pairs) T ReducedWithin := by
  refine TypeM.Settles.of_stable ?_ fun _ => Goal.stable_pairs h.wellFormed hgoal
  cases goal with
  | verdict b => cases b <;> exact .pure h.wellFormed trivial
  | pair => exact .pure h.wellFormed trivial
  | argument s t variance => exact settles_argumentPairs h hgoal.1 variance

section Rules

variable {ask : Nat → Query}
  (hask : ∀ T s t, Ready w T → PairWithin T (s, t) →
    Settles (fun n => ask n s t) T fun _ _ => True)

include hask

theorem settles_goal (h : Ready w T) {goal : Goal} (hgoal : goal.Within T) :
    Settles (fun n => goal.eval (ask n)) T fun _ _ => True := by
  refine (Settles.lift (settles_pairs h hgoal)).bind fun o T₁ hg ho => ?_
  cases o with
  | none => exact .pure hg.wellFormed trivial
  | some pairs =>
    exact .allM pairs hg.wellFormed fun pair hp T₂ hg' =>
      hask T₂ _ _ (h.growsTo (hg.trans hg')) ((ho pairs rfl pair hp).of_le hg'.le)

theorem settles_rules (h : Ready w T) {s t : TypeId} (hst : PairWithin T (s, t)) :
    Settles (fun n => rules (w.withFuel n) (ask n) s t) T fun _ _ => True := by
  simp only [rules_eq]
  refine (Settles.lift (settles_plan h.wellFormed h.descending h.within h.walksEnd hst.1
    hst.2)).bind fun p T₁ hg hp => ?_
  cases p with
  | all goals =>
    exact .allM goals hg.wellFormed fun goal hgoal T₂ hg' =>
      settles_goal hask (h.growsTo (hg.trans hg')) ((hp goal hgoal).of_le hg'.le)
  | any pairs =>
    exact .anyM pairs hg.wellFormed fun pair hpair T₂ hg' =>
      hask T₂ _ _ (h.growsTo (hg.trans hg')) ((hp pair hpair).of_le hg'.le)

end Rules

/-- The guarded recursion returns. -/
theorem settles_check (room : Nat) : ∀ T s t, Ready w T → PairWithin T (s, t) →
    Settles (fun n => check (w.withFuel n) room s t) T fun _ _ => True := by
  induction room with
  | zero => exact fun T s t h _ => .pure h.wellFormed trivial
  | succ room ih =>
    intro T s t h hst g
    simp only [check_succ]
    refine .ite (fun _ => .pure h.wellFormed trivial) fun _ => ?_
    obtain ⟨g₁, he, -⟩ | ⟨g₁, he, -, -⟩ | ⟨r, g₁, he, rfl | rfl, -, -⟩ := enter_cases g (s, t)
    · simp only [he]
      exact (settles_rules ih h hst g₁).bind fun _ _ hg _ => .pure hg.wellFormed trivial
    all_goals
      simp only [he]
      exact .pure h.wellFormed trivial

theorem settles_isSubtype (h : Ready w T) {env : Environment} (he : env.Within T) {s t : TypeId}
    (hs : T.Has s) (ht : T.Has t) :
    TypeM.Settles (fun n => (w.withFuel n).isSubtype env s t) T fun _ _ => True := by
  have hT := h.wellFormed
  refine ((env.total_substitute s).settles (Environment.stable_substitute hT he hs)).bind
    fun s' T₁ hg₁ hs' => ?_
  refine ((env.total_substitute t).settles (Environment.stable_substitute hg₁.wellFormed
    (he.of_le hg₁.le) (ht.of_le hg₁.le))).bind fun t' T₂ hg₂ ht' => ?_
  exact (settles_check _ T₂ s' t' (h.growsTo (hg₁.trans hg₂)) ⟨hs'.of_le hg₂.le, ht'⟩ _).bind
    fun _ _ hg _ => .pure hg.wellFormed trivial

/-! ### The exact condition -/

/-- The type of all objects is the reference to the declaration of `Object`, which is no alias. -/
structure HasObjectRoot (w : World) (T : TypeTable) : Prop where
  lookup : T.lookup w.objectType = .nominal w.builtins.object []
  notAlias : w.declarations.kind? w.builtins.object ≠ some .typeAlias

theorem HasObjectRoot.of_le (h : HasObjectRoot w T) (hobject : T.Has w.objectType) (hle : T ≤ T') :
    HasObjectRoot w T' :=
  ⟨(TypeTable.lookup_of_le hle hobject).trans h.lookup, h.notAlias⟩

/-- A type that is no reference to an alias is its own expansion. -/
theorem resolveAlias_of_not_alias {t : TypeId} (h : ¬w.IsAliasReference T t) :
    w.resolveAlias t T = .ok t T := by
  have hexpand : w.expandAlias? t T = .ok none T := by
    rw [World.expandAlias?]
    refine TypeM.bind_eq_ok.mpr ⟨_, T, rfl, ?_⟩
    cases ht : T.lookup t with
    | nominal decl args =>
      dsimp only
      cases hd : w.decl? decl with
      | none => rfl
      | some info =>
        have hget : w.declarations.kind? decl = some info.kind := by
          rw [Declarations.kind?, ← World.decl?, hd, Option.map_some]
        dsimp only
        cases hk : info.kind with
        | typeAlias => exact absurd ⟨decl, args, ht, hget.trans (congrArg some hk)⟩ h
        | _ => rfl
    | _ => rfl
  have hsucc : w.resolveAlias t = w.resolveAliasFrom (63 + 1) t := rfl
  rw [hsucc, World.resolveAliasFrom]
  exact TypeM.bind_eq_ok.mpr ⟨none, T, hexpand, rfl⟩

theorem resolveAlias_eq_self {t : TypeId} {decl : DeclId} {args : List TypeId}
    (ht : T.lookup t = .nominal decl args) (hkind : w.declarations.kind? decl ≠ some .typeAlias) :
    w.resolveAlias t T = .ok t T := by
  refine resolveAlias_of_not_alias ?_
  rintro ⟨decl', args', ht', hkind'⟩
  cases ht.symm.trans ht'
  exact hkind hkind'

/-- What no reserved row holds is not among the reserved handles. -/
theorem reserved_le_of_view {α : Type} (view : TypeData → Option α)
    (hrows : ∀ i < TypeId.firstDynamic, view (TypeTable.initial.lookup ⟨i⟩) = none)
    (hinit : TypeTable.initial ≤ T) {t : TypeId} {a : α} (ht : view (T.lookup t) = some a) :
    TypeId.firstDynamic ≤ t.index := by
  refine Nat.le_of_not_lt fun hlt => ?_
  have hsame :=
    TypeTable.lookup_of_le hinit (t := t) (TypeTable.wellFormed_initial.has_reserved hlt)
  rw [hsame, hrows t.index hlt] at ht
  cases ht

/-- References are not among the reserved handles. -/
theorem reserved_le_of_nominal {t : TypeId} {decl : DeclId} {args : List TypeId}
    (hinit : TypeTable.initial ≤ T) (ht : T.lookup t = .nominal decl args) :
    TypeId.firstDynamic ≤ t.index :=
  reserved_le_of_view TypeData.application? (by decide) hinit (by rw [ht]; rfl)

/-- The plan for types that are not among the reserved handles. -/
theorem plan_of_reserved_le {s t : TypeId} (hs : TypeId.firstDynamic ≤ s.index)
    (ht : TypeId.firstDynamic ≤ t.index) :
    plan w s t = (do
      let source ← w.resolveAlias s
      let target ← w.resolveAlias t
      let sourceData ← TypeM.lookup source
      let targetData ← TypeM.lookup target
      expandedPlan w source target sourceData targetData) := by
  have hreserved {s : TypeId} (hs : TypeId.firstDynamic ≤ s.index) (r : TypeId)
      (hr : r.index < TypeId.firstDynamic) : s ≠ r := by
    rintro rfl
    exact absurd hr (Nat.not_lt_of_le hs)
  rw [plan, if_neg (by simp [TypeId.isUnknown, hreserved hs .unknown (by decide),
      hreserved ht .unknown (by decide)]),
    if_neg (by simp [TypeId.isAny, hreserved ht .any (by decide),
      hreserved ht .dynamicAny (by decide), hreserved hs .dynamicAny (by decide)]),
    if_neg (hreserved hs .undefined (by decide)), if_neg (hreserved hs .null (by decide)),
    if_neg (hreserved hs .any (by decide))]

/-- The plan for the comparison of a reference with `Object` asks whether the expanded type is an
object type. -/
private theorem isObjectLike_of_plan {t t₁ : TypeId} {p : Plan} (hinit : TypeTable.initial ≤ T)
    (hroot : HasObjectRoot w T) {decl decl₁ : DeclId} {args args₁ : List TypeId}
    (ht : T.lookup t = .nominal decl args) (hres : w.resolveAlias t T = .ok t₁ T)
    (ht₁ : T.lookup t₁ = .nominal decl₁ args₁) (h : plan w t w.objectType T = .ok p T') :
    ∃ b T₁, w.isObjectLike t₁ T = .ok b T₁ := by
  rw [plan_of_reserved_le (reserved_le_of_nominal hinit ht)
    (reserved_le_of_nominal hinit hroot.lookup)] at h
  obtain ⟨s', T₁, hs', h⟩ := TypeM.bind_eq_ok.mp h
  rw [hres] at hs'
  cases hs'
  obtain ⟨o, T₁, ho, h⟩ := TypeM.bind_eq_ok.mp h
  rw [resolveAlias_eq_self hroot.lookup hroot.notAlias] at ho
  cases ho
  obtain ⟨sd, T₁, hsd, h⟩ := TypeM.bind_eq_ok.mp h
  cases hsd
  obtain ⟨td, T₁, htd, h⟩ := TypeM.bind_eq_ok.mp h
  cases htd
  rw [ht₁, hroot.lookup] at h
  have hplan : expandedPlan w t₁ w.objectType (.nominal decl₁ args₁)
      (.nominal w.builtins.object []) = nominalPlan w t₁ w.builtins.object [] := rfl
  rw [hplan, nominalPlan, if_pos ⟨rfl, rfl⟩] at h
  obtain ⟨b, T₁, hb, -⟩ := TypeM.bind_eq_ok.mp h
  exact ⟨b, T₁, hb⟩

/-- Expansion leaves a reference to an alias only if it started from a reference. -/
private theorem lookup_of_resolveAlias {t t₁ : TypeId} (hT : T.WellFormed) (hw : w.Within T)
    (ht : T.Has t) (h : w.resolveAlias t T = .ok t₁ T') (halias : w.IsAliasReference T' t₁) :
    ∃ decl args, T.lookup t = .nominal decl args := by
  have hsucc : w.resolveAlias t = w.resolveAliasFrom (63 + 1) t := rfl
  rw [hsucc, World.resolveAliasFrom] at h
  obtain ⟨o, T₁, hexpand, hrest⟩ := TypeM.bind_eq_ok.mp h
  obtain ⟨hg, -, -⟩ := World.stable_expandAlias? hT hw ht o T₁ hexpand
  cases o with
  | none =>
    obtain ⟨rfl, rfl⟩ := TypeM.pure_eq_ok.mp hrest
    obtain ⟨decl, args, hlookup, -⟩ := halias
    exact ⟨decl, args, (TypeTable.lookup_of_le hg.le ht).symm.trans hlookup⟩
  | some aliased =>
    rw [World.expandAlias?] at hexpand
    obtain ⟨data, T₂, hlookup, hmatch⟩ := TypeM.bind_eq_ok.mp hexpand
    obtain ⟨rfl, rfl⟩ := TypeM.pure_eq_ok.mp hlookup
    cases hd : T.lookup t with
    | nominal decl args => exact ⟨decl, args, rfl⟩
    | _ =>
      rw [hd] at hmatch
      cases hmatch

theorem run_of_isSubtype_empty {s t : TypeId} {b : Bool}
    (h : w.isSubtype .empty s t T = .ok b T') : ∃ g, run w s t T = .ok (b, g) T' := by
  obtain ⟨s', T₁, hs, h⟩ := TypeM.bind_eq_ok.mp h
  obtain ⟨t', T₂, ht, h⟩ := TypeM.bind_eq_ok.mp h
  cases hs
  cases ht
  obtain ⟨⟨b', g⟩, T₃, hrun, h⟩ := TypeM.bind_eq_ok.mp h
  obtain ⟨rfl, rfl⟩ := TypeM.pure_eq_ok.mp h
  exact ⟨g, hrun⟩

/-- A new guard lets the first pair in, so a query about different types carries out their plan. -/
theorem plan_of_run {s t : TypeId} {b : Bool} {g : PairGuard} (hne : s ≠ t)
    (h : run w s t T = .ok (b, g) T') : ∃ p T₁, plan w s t T = .ok p T₁ ∧
      ∃ g₁ g₂, p.eval (check w RecursionProfile.subtypeCheck.maxDepth) g₁ T₁ = .ok (b, g₂) T' := by
  obtain ⟨g₁, henter⟩ : ∃ g₁, (RecursionGuard.ofProfile .subtypeCheck : PairGuard).enter (s, t) =
      (.entered, g₁) := ⟨_, rfl⟩
  rw [run, StateT.run, check_succ, if_neg hne, henter] at h
  obtain ⟨⟨b', g₂⟩, T₁, hrules, hleave⟩ := TypeM.bind_eq_ok.mp h
  obtain ⟨hb, rfl⟩ := TypeM.pure_eq_ok.mp hleave
  obtain ⟨p, T₂, hplan, heval⟩ := rules_eq_ok.mp hrules
  rw [show b' = b from congrArg Prod.fst hb] at heval
  exact ⟨p, T₂, hplan, g₁, g₂, heval⟩

theorem aliasWalksEnd_of_terminates (hinit : TypeTable.initial ≤ T)
    (hw : w.Within T) (hobject : HasObjectRoot w T)
    (h : ∀ T₁, T.GrowsTo T₁ → ∀ env s t, env.Within T₁ → T₁.Has s → T₁.Has t →
      ∃ n b T', (w.withFuel n).isSubtype env s t T₁ = .ok b T') : w.AliasWalksEnd T := by
  intro T₁ hg₁ t t₁ T₂ ht hres halias
  have hw₁ := hw.of_le hg₁.le
  obtain ⟨hg₂, ht₁, hreplay⟩ := World.stable_resolveAlias hg₁.wellFormed hw₁ ht _ _ hres
  have hg := hg₁.trans hg₂
  have hroot := hobject.of_le hw.objectType hg.le
  obtain ⟨n, b, T', hsub⟩ := h T₂ hg .empty t w.objectType Environment.within_empty
    (ht.of_le hg₂.le) (hw.objectType.of_le hg.le)
  obtain ⟨g, hrun⟩ := run_of_isSubtype_empty hsub
  have hres₂ := hreplay T₂ le_rfl
  obtain ⟨decl, args, hlookup⟩ := lookup_of_resolveAlias hg₂.wellFormed (hw.of_le hg.le)
    (ht.of_le hg₂.le) hres₂ halias
  obtain ⟨decl₁, args₁, hlookup₁, hkind₁⟩ := halias
  have hne : t ≠ w.objectType := by
    rintro rfl
    rw [resolveAlias_eq_self hroot.lookup hroot.notAlias] at hres₂
    cases hres₂
    rw [hroot.lookup] at hlookup₁
    cases hlookup₁
    exact hroot.notAlias hkind₁
  obtain ⟨p, T₃, hplan, -⟩ := plan_of_run hne hrun
  obtain ⟨b', T₄, hb⟩ := isObjectLike_of_plan (w := w.withFuel n) (le_trans hinit hg.le)
    ⟨hroot.lookup, hroot.notAlias⟩ hlookup
    ((congrFun (w.resolveAlias_withFuel n t) T₂).trans hres₂) hlookup₁ hplan
  rw [World.isObjectLike_withFuel] at hb
  exact ⟨n, b', T₄, hb⟩

/-! ### Bounds that are never reached -/

/-- Under guards with the same open entries both computations are the same. -/
def Agree {α : Type} (g₀ : PairGuard) (x y : CheckM α) : Prop := ∀ g, Frame g₀ g → x g = y g

section Agree

variable {α β : Type} {g₀ : PairGuard}

theorem Agree.refl (x : CheckM α) : Agree g₀ x x := fun _ _ => rfl

theorem Agree.bind {x y : CheckM α} {f f' : α → CheckM β} (h : Agree g₀ x y) (hx : Steady x)
    (hf : ∀ a, Agree g₀ (f a) (f' a)) : Agree g₀ (x >>= f) (y >>= f') := by
  intro g hg
  have hbind {z : CheckM α} {k : α → CheckM β} : (z >>= k) g = z g >>= fun r => k r.1 r.2 := rfl
  rw [hbind, hbind, ← h g hg]
  funext T
  change EStateM.bind _ _ T = EStateM.bind _ _ T
  rw [EStateM.bind, EStateM.bind]
  cases hr : x g T with
  | error => rfl
  | ok r T' =>
    exact congrFun (hf r.1 r.2 (hg.trans (hx g T r.1 r.2 T' hr))) T'

theorem Agree.allM {p q : α → CheckM Bool} (h : ∀ a, Agree g₀ (p a) (q a))
    (hp : ∀ a, Steady (p a)) (l : List α) : Agree g₀ (l.allM p) (l.allM q) := by
  induction l with
  | nil => exact .refl _
  | cons a l ih =>
    refine (h a).bind (hp a) fun b => ?_
    cases b with
    | true => exact ih
    | false => exact .refl _

theorem Agree.anyM {p q : α → CheckM Bool} (h : ∀ a, Agree g₀ (p a) (q a))
    (hp : ∀ a, Steady (p a)) (l : List α) : Agree g₀ (l.anyM p) (l.anyM q) := by
  induction l with
  | nil => exact .refl _
  | cons a l ih =>
    refine (h a).bind (hp a) fun b => ?_
    cases b with
    | true => exact .refl _
    | false => exact ih

theorem agree_rules {ask ask' : Query} (h : ∀ s t, Agree g₀ (ask s t) (ask' s t))
    (hask : ∀ s t, Steady (ask s t)) (s t : TypeId) :
    Agree g₀ (rules w ask s t) (rules w ask' s t) := by
  have hgoal (goal : Goal) : Agree g₀ (goal.eval ask) (goal.eval ask') := by
    refine (Agree.refl _).bind (.lift _) fun o => ?_
    cases o with
    | none => exact .refl _
    | some pairs => exact .allM (fun pair => h _ _) (fun pair => hask _ _) pairs
  rw [rules_eq, rules_eq]
  refine (Agree.refl _).bind (.lift _) fun p => ?_
  cases p with
  | all goals => exact .allM hgoal (steady_goal hask) goals
  | any pairs => exact .anyM (fun pair => h _ _) (fun pair => hask _ _) pairs

end Agree

/-- The guard denies entry before the room of the recursion runs out. -/
theorem check_of_le {room room' : Nat} {s t : TypeId} {g : PairGuard}
    (hdepth : g.depth ≤ g.maxDepth) (hroom : g.maxDepth < g.depth + room) (hle : room ≤ room') :
    check w room' s t g = check w room s t g := by
  induction room generalizing room' s t g with
  | zero => omega
  | succ room ih =>
    obtain ⟨k, rfl⟩ : ∃ k, room' = k + 1 := ⟨room' - 1, by omega⟩
    rw [check_succ, check_succ]
    by_cases heq : s = t
    · rw [if_pos heq, if_pos heq]
    rw [if_neg heq, if_neg heq]
    obtain ⟨g₁, he, ho⟩ | ⟨g₁, he, -, -⟩ | ⟨r, g₁, he, rfl | rfl, -, -⟩ := enter_cases g (s, t)
    · have hagree : Agree g₁ (rules w (check w k) s t) (rules w (check w room) s t) := by
        refine agree_rules (fun s' t' g hframe => ?_) (check_frame k) s t
        have hopen := ho.room
        have hd := hframe.depth.trans ho.depth
        have hm := hframe.maxDepth.trans ho.maxDepth
        exact ih (by omega) (by omega) (by omega)
      rw [he]
      simp only [hagree g₁ (.refl g₁)]
    all_goals rw [he]

/-- The other recursions of a query end before their bounds do. -/
structure BoundsSuffice (w : World) (T : TypeTable) : Prop where
  supertypes : ∀ rounds, World.supertypeLimit ≤ rounds → ∀ t,
    w.supertypesFrom rounds [] [t] = w.supertypes t
  room : ∀ room, RecursionProfile.subtypeCheck.maxDepth + 1 ≤ room → ∀ s t,
    check w room s t (.ofProfile .subtypeCheck) = run w s t
  upperBound : ∀ t, T.Has t → ∃ b, ∀ fuel, T.rows.size ≤ fuel → T.boundFrom? fuel t = some b

theorem boundsSuffice (w : World) (hT : T.WellFormed) (hdesc : T.Descending) :
    BoundsSuffice w T where
  supertypes rounds h t := w.supertypesFrom_of_le (by simp) h
  room room h s t := check_of_le (by simp [RecursionGuard.ofProfile, RecursionGuard.fresh])
    (by simp [RecursionGuard.ofProfile, RecursionGuard.fresh]) h
  upperBound t ht := by
    obtain ⟨b, hb⟩ := TypeTable.exists_upperBound hT hdesc ht
    exact ⟨b, fun fuel hfuel => (TypeM.boundFrom?_of_le hT le_rfl hfuel ht hb).1⟩

/-! ### The result -/

/-- Subtype queries end on all pairs under all environments, in every table that may arise, exactly
if the question for object types ends on the references to aliases that expansion leaves.  All other
recursions end on their own. -/
theorem isSubtype_terminates_iff (hT : T.WellFormed) (hdesc : T.Descending)
    (hinit : TypeTable.initial ≤ T) (hw : w.Within T) (hobject : HasObjectRoot w T) :
    ((∀ T₁, T.GrowsTo T₁ → ∀ env s t, env.Within T₁ → T₁.Has s → T₁.Has t →
        ∃ n b T', (w.withFuel n).isSubtype env s t T₁ = .ok b T') ↔ w.AliasWalksEnd T) ∧
      BoundsSuffice w T := by
  refine ⟨⟨aliasWalksEnd_of_terminates hinit hw hobject, fun hend T₁ hg env s t he hs ht => ?_⟩,
    boundsSuffice w hT hdesc⟩
  obtain ⟨n, b, T', -, -, h⟩ :=
    settles_isSubtype (Ready.growsTo ⟨hT, hdesc, hw, hend⟩ hg) he hs ht
  exact ⟨n, b, T', h n (Nat.le_refl n)⟩

/-- Three aliases that stand for one another in a circle, and `Object`. -/
def aliasCircle : World where
  declarations := ⟨#[
    { kind := .typeAlias, name := .none, declaredType := some ⟨18⟩ },
    { kind := .typeAlias, name := .none, declaredType := some ⟨16⟩ },
    { kind := .typeAlias, name := .none, declaredType := some ⟨17⟩ },
    { kind := .classType, name := .none }]⟩
  builtins := { (default : Builtins) with object := ⟨4⟩, objectType := ⟨19⟩ }
  fuel := 0

/-- The references to the four declarations. -/
def aliasCircleTable : TypeTable :=
  (((TypeTable.initial.store (.nominal ⟨1⟩ [])).store (.nominal ⟨2⟩ [])).store
    (.nominal ⟨3⟩ [])).store (.nominal ⟨4⟩ [])

private theorem wellFormed_aliasCircleTable : aliasCircleTable.WellFormed := by
  have hnew {T : TypeTable} (hT : T.WellFormed) (d : DeclId) :
      (T.store (.nominal d [])).WellFormed :=
    TypeTable.wellFormed_store hT fun _ h => by cases h
  exact hnew (hnew (hnew (hnew TypeTable.wellFormed_initial _) _) _) _

private theorem descending_aliasCircleTable : aliasCircleTable.Descending := by
  have hrows : ∀ row ∈ aliasCircleTable.rows.toList, row.parts = [] := by decide
  intro t data h s hs
  rw [hrows data (Array.mem_toList_iff.mpr (Array.mem_of_getElem? h))] at hs
  cases hs

private theorem initial_le_aliasCircleTable : TypeTable.initial ≤ aliasCircleTable := by
  have hnew {T : TypeTable} {d e : DeclId} (hne : d ≠ e)
      (h : T.handles[TypeData.nominal e []]? = none) :
      (T.store (.nominal d [])).handles[TypeData.nominal e []]? = none :=
    (TypeTable.handles_store_of_ne fun heq => hne (by cases heq; rfl)).trans h
  refine le_trans (TypeTable.le_store ?_) (le_trans (TypeTable.le_store ?_)
    (le_trans (TypeTable.le_store ?_) (TypeTable.le_store ?_)))
  · exact TypeTable.handles_initial_of_ne (by decide)
  · exact hnew (by decide) (TypeTable.handles_initial_of_ne (by decide))
  · exact hnew (by decide) (hnew (by decide) (TypeTable.handles_initial_of_ne (by decide)))
  · exact hnew (by decide) (hnew (by decide) (hnew (by decide)
      (TypeTable.handles_initial_of_ne (by decide))))

/-- Each alias expands to the next one of the circle, so the question is handed on for ever. -/
private theorem isObjectLikeFrom_aliasCircle (n : Nat) :
    aliasCircle.isObjectLikeFrom n ⟨16⟩ aliasCircleTable = .error .outOfFuel aliasCircleTable ∧
    aliasCircle.isObjectLikeFrom n ⟨17⟩ aliasCircleTable = .error .outOfFuel aliasCircleTable ∧
    aliasCircle.isObjectLikeFrom n ⟨18⟩ aliasCircleTable = .error .outOfFuel aliasCircleTable := by
  induction n with
  | zero => exact ⟨rfl, rfl, rfl⟩
  | succ n ih => exact ⟨ih.2.2, ih.1, ih.2.1⟩

/-- In the circle of three aliases no depth is enough to compare an alias with `Object`, and the
condition for termination fails. -/
theorem isSubtype_terminates_iff_aliasCircle :
    (∀ n b T', (aliasCircle.withFuel n).isSubtype .empty ⟨16⟩ ⟨19⟩ aliasCircleTable ≠ .ok b T') ∧
      ¬aliasCircle.AliasWalksEnd aliasCircleTable := by
  have hT := wellFormed_aliasCircleTable
  have hinit := initial_le_aliasCircleTable
  have hroot : HasObjectRoot aliasCircle aliasCircleTable := ⟨rfl, by decide⟩
  have hdiverges (n : Nat) (b : Bool) (T' : TypeTable) :
      (aliasCircle.withFuel n).isSubtype .empty ⟨16⟩ ⟨19⟩ aliasCircleTable ≠ .ok b T' := by
    intro h
    obtain ⟨g, hrun⟩ := run_of_isSubtype_empty h
    obtain ⟨p, T₁, hplan, -⟩ := plan_of_run (by decide) hrun
    obtain ⟨b', T₂, hobject⟩ := isObjectLike_of_plan (w := aliasCircle.withFuel n) (t := ⟨16⟩)
      hinit ⟨hroot.lookup, hroot.notAlias⟩ rfl rfl rfl hplan
    rw [World.isObjectLike_withFuel, (isObjectLikeFrom_aliasCircle n).2.2] at hobject
    cases hobject
  refine ⟨hdiverges, fun hend => ?_⟩
  have hiff := (isSubtype_terminates_iff hT descending_aliasCircleTable hinit
    (World.within_of_entries (by decide) (by decide)) hroot).1
  obtain ⟨n, b, T', h⟩ := hiff.mpr hend aliasCircleTable (.refl hT) .empty ⟨16⟩ ⟨19⟩
    Environment.within_empty (by decide) (by decide)
  exact hdiverges n b T' h

end Subtyping

end ScriptTyping
