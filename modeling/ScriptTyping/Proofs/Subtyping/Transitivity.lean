import ScriptTyping.Proofs.Subtyping.Membership
import ScriptTyping.Proofs.Subtyping.Regular

/-!
# Subtyping of regular types is transitive

The subtype relation is not transitive on all types.  An optional member may be missing in the
middle, a parameter may be optional there, a function whose result is `void` is above all results,
and `any` in a union is not above `any`.  Between regular types, where nothing of this kind occurs,
the relation is transitive.

The proof is by induction on the sum of the three depths.  The handles of intrinsic types come
first; then unions and intersections, in the order in which the rules take them apart; then two
plans in a row are put together, one layer at a time.

## Main definitions

* `Subtyping.TransitiveTo` — the induction hypothesis.

## Main results

* `Subtyping.eq_of_holds_bottom`, `Subtyping.eq_of_void_holds` — what is below `null` and
  `undefined`, and above `void`.
* `Subtyping.layers_trans` — two plans in a row.
* `Subtyping.holds_trans` — transitivity.
-/

namespace ScriptTyping.Subtyping

variable {w : World} {T₀ T : TypeTable} {D : Set DeclId} {a b c s t u : TypeId} {n m k N : Nat}
  {p : Plan} {R : PairRelation}

/-! ### Signatures and shapes -/

/-- A signature without optional parameters asks for no more arguments than the other one passes. -/
theorem met_functionPlan_iff {f g : Signature}
    (hf : ∀ param ∈ f.params, param.optional = false ∧ param.rest = false)
    (hg : ∀ param ∈ g.params, param.rest = false) :
    (functionPlan f g).Met R T ↔ f.params.length ≤ g.params.length ∧
      (∀ pair ∈ f.params.zip g.params, R T pair.2.type pair.1.type) ∧
      (g.returnType = .void ∨ R T f.returnType g.returnType) := by
  have hrequired : f.params.countP (fun param => !param.optional && !param.rest) =
      f.params.length := List.countP_eq_length.mpr fun param hparam => by simp [hf param hparam]
  have hrest : g.params.any (·.rest) = false := List.any_eq_false.mpr fun param hparam => by
    simp [hg param hparam]
  unfold functionPlan
  rw [hrequired, hrest]
  by_cases hlength : g.params.length < f.params.length
  · rw [if_pos (by simpa using hlength)]
    simp [Plan.Met, Goal.Met, Nat.not_le.mpr hlength]
  · rw [if_neg (by simpa using hlength), Plan.Met, List.forall_mem_append, List.forall_mem_map,
      and_iff_right (Nat.not_lt.mp hlength)]
    refine and_congr Iff.rfl ?_
    by_cases hvoid : g.returnType = .void
    · simp [hvoid]
    · simp [hvoid, Goal.Met]

/-- Without optional members, every member on the right is present on the left. -/
theorem met_structuralPlan_iff {l r : List Property} (hr : ∀ member ∈ r, member.optional = false) :
    (structuralPlan l r).Met R T ↔ ∀ member ∈ r, ∃ found,
      findProperty? l member.name = some found ∧ R T found.type member.type := by
  rw [structuralPlan, Plan.Met, List.forall_mem_map]
  refine forall₂_congr fun member hmember => ?_
  cases findProperty? l member.name with
  | none => simp [Goal.Met, hr member hmember]
  | some found => simp [Goal.Met]

/-- What stands at one place in the first and the third list stands there in the second one too. -/
theorem exists_mem_zip {α : Type} {xs ys zs : List α} {x z : α} (hlength : xs.length ≤ ys.length)
    (h : (x, z) ∈ xs.zip zs) : ∃ y, (x, y) ∈ xs.zip ys ∧ (y, z) ∈ ys.zip zs := by
  induction xs generalizing ys zs with
  | nil => simp at h
  | cons x' xs ih =>
    cases ys with
    | nil => simp at hlength
    | cons y ys =>
      cases zs with
      | nil => simp at h
      | cons z' zs =>
        rw [List.zip_cons_cons, List.mem_cons] at h
        rcases h with h | h
        · cases h
          exact ⟨y, by simp, by simp⟩
        · obtain ⟨y', hleft, hright⟩ := ih (Nat.le_of_succ_le_succ hlength) h
          exact ⟨y', List.mem_cons_of_mem _ hleft, List.mem_cons_of_mem _ hright⟩

/-! ### Extreme types -/

theorem Congruent.entries (w : World) (hst : Congruent T s t p) :
    (∃ d, w.entry? (T.lookup s) = some d) ∧ ∃ e, w.entry? (T.lookup t) = some e := by
  cases hst with
  | functions hs ht | shapes hs ht =>
    rw [hs, ht]
    exact ⟨⟨_, rfl⟩, ⟨_, rfl⟩⟩
  | @metaTypes _ _ i j hs ht =>
    rw [hs, ht]
    cases i <;> cases j <;> exact ⟨⟨_, rfl⟩, ⟨_, rfl⟩⟩

/-- A primitive type is below nothing that is neither a union nor an intersection. -/
theorem Layer.source_ne_primitive {kind : Primitive} (hT : T.WellFormed)
    (hp : Layer w T₀ T D s t p) : T.lookup s ≠ .primitive kind := by
  intro hs
  have hunrooted {d : DeclId} (hroot : w.Rooted T s d) : False := by
    rcases hroot with href | hentry
    · cases hs.symm.trans (href.lookup hT)
    · rw [hs] at hentry
      cases hentry
  cases hp with
  | base hstands =>
    cases hstands with
    | literal hs' | typeVariable hs' | receiver hs' => cases hs.symm.trans hs'
  | receivers hs' => cases hs.symm.trans hs'
  | hierarchy _ hroot => exact hunrooted hroot
  | congruent hst =>
    obtain ⟨⟨d, hd⟩, -⟩ := hst.entries w
    exact hunrooted (.inr hd)

/-- Nothing is below a primitive type but what stands for it, or for something below it. -/
theorem Layer.standsFor_of_primitive {kind : Primitive} (hT : T.WellFormed)
    (hp : Layer w T₀ T D s t p) (ht : T.lookup t = .primitive kind) :
    ∃ u, StandsFor w T s u ∧ p = .pair u t := by
  cases hp with
  | base hstands => exact ⟨_, hstands, rfl⟩
  | receivers _ ht' => cases ht.symm.trans ht'
  | hierarchy _ _ href => cases ht.symm.trans (href.lookup hT)
  | congruent hst =>
    obtain ⟨-, e, he⟩ := hst.entries w
    rw [ht] at he
    cases he

section Extremes

variable (h : w.FunctionFragment T₀ D) (hg : T₀.GrowsTo T)

include h hg

/-- Nothing but `any` is above `any`. -/
theorem eq_any_of_holds (ht : IsRegular w T D t) (hany : Holds w T .any t) : t = .any := by
  have hinit := le_trans h.initial hg.le
  by_contra hne
  have hsentinel : sentinel? .any t = some false := by
    have hsource : IsRegular w T D .any := isRegular_primitive hinit .any
    rw [sentinel?_regular h hg hsource ht, if_neg hne, if_neg (by decide), if_neg (by decide),
      if_pos rfl]
  rcases (holds_iff_of_sentinel hsentinel).mp hany with heq | hfalse
  · exact hne heq.symm
  · cases hfalse

/-- Only the bottom types are below a bottom type. -/
theorem eq_of_holds_bottom (hb : b = .null ∨ b = .undefined) (ht : Regular w T D n t)
    (hbelow : Holds w T t b) : t = b ∨ t = .undefined := by
  have hT := hg.wellFormed
  have hinit := le_trans h.initial hg.le
  obtain ⟨kind, hkind⟩ : ∃ kind : Primitive, kind.typeId = b := by
    rcases hb with rfl | rfl
    · exact ⟨.null, rfl⟩
    · exact ⟨.undefined, rfl⟩
  have hdata : T.lookup b = .primitive kind := hkind ▸ lookup_primitive hinit kind
  have hregb : IsRegular w T D b := hkind ▸ isRegular_primitive hinit kind
  have hextreme : ∀ {m : TypeId}, m = b ∨ m = .undefined → m ∈ extremes := by
    rcases hb with rfl | rfl <;> rintro m (rfl | rfl) <;> decide
  induction n generalizing t with
  | zero => exact ht.elim
  | succ n ih =>
    have hreg : IsRegular w T D t := ⟨n + 1, ht⟩
    by_contra hnot
    rw [not_or] at hnot
    have hst : Unsettled w T D t b := by
      refine ⟨hreg, hregb, ?_⟩
      cases hsentinel : sentinel? t b with
      | none => rfl
      | some v =>
        have hv : v = true := ((holds_iff_of_sentinel hsentinel).mp hbelow).resolve_left hnot.1
        have hany : b ≠ .any := by rcases hb with rfl | rfl <;> decide
        rw [sentinel?_regular h hg hreg hregb, if_neg hany, if_neg hnot.2] at hsentinel
        split at hsentinel
        · rename_i hnull
          have hb' := hb.resolve_left fun heq => hnot.1 (hnull.trans heq.symm)
          cases hsentinel
          simp [hb'] at hv
        · split at hsentinel <;> cases hsentinel
          cases hv
    have hstep := (holds_iff.mp hbelow).resolve_left hnot.1
    rw [Regular] at ht
    rcases (T.lookup t).composite_cases with ⟨ms, hsd⟩ | ⟨ms, hsd⟩ | hsd
    · rw [hsd] at ht
      obtain ⟨m, hm, hplain⟩ := ht.2
      exact hplain (hextreme (ih (ht.1 m hm).1 ((hst.step_union_left h hg hsd).mp hstep m hm)))
    · rw [hsd] at ht
      obtain ⟨m, hm, hmb⟩ := (hst.step_intersection_left h hg hsd (by rw [hdata]; rfl)).mp hstep
      exact (ht.2 m hm).2 (hextreme (ih (ht.2 m hm).1 hmb))
    · obtain ⟨p, hp, hmet⟩ :=
        (LayerPair.step_iff h hg ⟨hst, hsd, by rw [hdata]; rfl⟩).mp hstep
      obtain ⟨u, hu, rfl⟩ := hp.standsFor_of_primitive hT hdata
      obtain ⟨hreg, hplain⟩ := hu.part ht
      exact hplain (hextreme (ih hreg (met_pair.mp hmet)))

/-- Only `void` and `any` are above `void`. -/
theorem eq_of_void_holds (ht : Regular w T D n t) (hvoid : Holds w T .void t) :
    t = .void ∨ t = .any := by
  have hinit := le_trans h.initial hg.le
  have hdata : T.lookup .void = .primitive .void := lookup_primitive hinit .void
  have hregv : IsRegular w T D .void := isRegular_primitive hinit .void
  induction n generalizing t with
  | zero => exact ht.elim
  | succ n ih =>
    have hreg : IsRegular w T D t := ⟨n + 1, ht⟩
    by_contra hnot
    rw [not_or] at hnot
    have hst : Unsettled w T D .void t := by
      refine ⟨hregv, hreg, ?_⟩
      rw [sentinel?_regular h hg hregv hreg, if_neg hnot.2]
      rfl
    have hstep := (holds_iff.mp hvoid).resolve_left (Ne.symm hnot.1)
    rw [Regular] at ht
    rcases (T.lookup t).composite_cases with ⟨ms, htd⟩ | ⟨ms, htd⟩ | htd
    · rw [htd] at ht
      obtain ⟨m, hm, hvm⟩ := (hst.step_union_right h hg (by rw [hdata]; rfl) htd).mp hstep
      obtain ⟨hreg, hany, hvoid⟩ := ht.1 m hm
      exact (ih hreg hvm).elim hvoid hany
    · rw [htd] at ht
      obtain ⟨m, hm⟩ := List.exists_mem_of_ne_nil ms ht.1
      have hvm := (hst.step_intersection_right h hg (by rw [hdata]; rfl) htd).mp hstep m hm
      refine (ht.2 m hm).2 ?_
      rcases ih (ht.2 m hm).1 hvm with rfl | rfl <;> decide
    · obtain ⟨p, hp, -⟩ := (LayerPair.step_iff h hg ⟨hst, by rw [hdata]; rfl, htd⟩).mp hstep
      exact hp.source_ne_primitive hg.wellFormed hdata

end Extremes

theorem holds_undefined (t : TypeId) : Holds w T .undefined t := by
  have hsentinel : sentinel? .undefined t = some true := by
    unfold sentinel?
    split
    · rfl
    · split <;> rfl
  exact (holds_iff_of_sentinel hsentinel).mpr (.inr rfl)

theorem holds_null (ht : t ≠ .undefined) : Holds w T .null t := by
  have hsentinel : sentinel? .null t = some true := by
    unfold sentinel?
    split
    · rfl
    · split
      · rfl
      · rw [if_neg (by decide), if_pos rfl, bne_iff_ne.mpr ht]
  exact (holds_iff_of_sentinel hsentinel).mpr (.inr rfl)

theorem holds_any (s : TypeId) : Holds w T s .any := by
  have hsentinel : sentinel? s .any = some true := by
    unfold sentinel?
    split
    · rfl
    · rfl
  exact (holds_iff_of_sentinel hsentinel).mpr (.inr rfl)

/-! ### Transitivity, layer by layer -/

/-- Transitivity for regular types with a bound on the sum of their depths. -/
def TransitiveTo (w : World) (T : TypeTable) (D : Set DeclId) (N : Nat) : Prop :=
  ∀ ⦃n m k : Nat⦄, n + m + k ≤ N → ∀ ⦃a b c : TypeId⦄, Regular w T D n a → Regular w T D m b →
    Regular w T D k c → Holds w T a b → Holds w T b c → Holds w T a c

theorem rank_eq_zero_of_rooted (hT : T.WellFormed) {d : DeclId} (ht : w.Rooted T t d) :
    (T.lookup t).rank = 0 := by
  rcases ht with href | hentry
  · rw [href.lookup hT]
    rfl
  · cases hdata : T.lookup t with
    | thisType | typeVariable => rw [hdata] at hentry; cases hentry
    | _ => rfl

theorem Layer.rank_le (hT : T.WellFormed) (hp : Layer w T₀ T D s t p) :
    (T.lookup t).rank ≤ (T.lookup s).rank := by
  cases hp with
  | base _ hrank => exact hrank
  | receivers hs ht =>
    rw [hs, ht]
    rfl
  | hierarchy _ _ ht =>
    rw [rank_eq_zero_of_rooted hT (.inl ht : w.Rooted T t _)]
    exact Nat.zero_le _
  | congruent hst =>
    obtain ⟨-, e, he⟩ := hst.entries w
    rw [rank_eq_zero_of_rooted hT (.inr he)]
    exact Nat.zero_le _

/-- Only a receiver is below a receiver. -/
theorem Layer.isBoundThis (hT : T.WellFormed) (hp : Layer w T₀ T D s t p)
    (ht : (T.lookup t).isBoundThis = true) : (T.lookup s).isBoundThis = true := by
  obtain ⟨v, hv⟩ := TypeData.eq_thisType ht
  have hrank := hp.rank_le hT
  rw [hv] at hrank
  cases hp with
  | base hstands =>
    cases hstands with
    | literal hs | typeVariable hs => simp [hs, TypeData.rank] at hrank
    | receiver hs => rw [hs]; rfl
  | receivers hs => rw [hs]; rfl
  | hierarchy _ hroot =>
    rw [rank_eq_zero_of_rooted hT hroot] at hrank
    cases hrank
  | congruent hst =>
    obtain ⟨⟨d, hd⟩, -⟩ := hst.entries w
    rw [rank_eq_zero_of_rooted hT (.inr hd)] at hrank
    cases hrank

/-- A type with a place in the hierarchy stands for nothing else. -/
theorem StandsFor.not_rooted (hT : T.WellFormed) {d : DeclId} (hs : StandsFor w T s u) :
    ¬w.Rooted T s d := by
  rintro (href | hentry)
  · cases hs with
    | literal hs | typeVariable hs | receiver hs => cases hs.symm.trans (href.lookup hT)
  · cases hs with
    | literal hs | typeVariable hs | receiver hs =>
      rw [hs] at hentry
      cases hentry

section Layers

variable (h : w.FunctionFragment T₀ D) (hg : T₀.GrowsTo T) (ih : TransitiveTo w T D N)
  (hN : n + m + k ≤ N)

include ih hN

theorem shapes_trans {x y z : List Property}
    (hx : RegularLayer w T D (Regular w T D n) a (.structural x))
    (hy : RegularLayer w T D (Regular w T D m) b (.structural y))
    (hz : RegularLayer w T D (Regular w T D k) c (.structural z))
    (hxy : (structuralPlan x y).Met (Holds w) T) (hyz : (structuralPlan y z).Met (Holds w) T) :
    (structuralPlan x z).Met (Holds w) T := by
  rw [met_structuralPlan_iff fun member hmember => (hy member hmember).1] at hxy
  rw [met_structuralPlan_iff fun member hmember => (hz member hmember).1] at hyz ⊢
  intro member hmember
  obtain ⟨middle, hmiddle, hright⟩ := hyz member hmember
  have hmem : middle ∈ y := List.mem_of_find?_eq_some hmiddle
  have hname : middle.name = member.name := by simpa using List.find?_some hmiddle
  obtain ⟨found, hfound, hleft⟩ := hxy middle hmem
  refine ⟨found, hname ▸ hfound, ?_⟩
  exact ih hN (hx found (List.mem_of_find?_eq_some hfound)).2 (hy middle hmem).2
    (hz member hmember).2 hleft hright

include h hg

theorem functions_trans {x y z : Signature}
    (hx : RegularLayer w T D (Regular w T D n) a (.function x))
    (hy : RegularLayer w T D (Regular w T D m) b (.function y))
    (hz : RegularLayer w T D (Regular w T D k) c (.function z))
    (hxy : (functionPlan x y).Met (Holds w) T) (hyz : (functionPlan y z).Met (Holds w) T) :
    (functionPlan x z).Met (Holds w) T := by
  have hfix {j : Nat} {f : Signature} {t : TypeId}
      (hf : RegularLayer w T D (Regular w T D j) t (.function f)) :
      ∀ param ∈ f.params, param.optional = false ∧ param.rest = false :=
    fun param hparam => ⟨(hf.2 param hparam).1, (hf.2 param hparam).2.1⟩
  rw [met_functionPlan_iff (hfix hx) fun param hparam => (hfix hy param hparam).2] at hxy
  rw [met_functionPlan_iff (hfix hy) fun param hparam => (hfix hz param hparam).2] at hyz
  rw [met_functionPlan_iff (hfix hx) fun param hparam => (hfix hz param hparam).2]
  obtain ⟨hlength, hparams, hresult⟩ := hxy
  obtain ⟨hlength', hparams', hresult'⟩ := hyz
  refine ⟨le_trans hlength hlength', ?_, ?_⟩
  · rintro ⟨first, last⟩ hpair
    obtain ⟨middle, hleft, hright⟩ := exists_mem_zip hlength hpair
    have hfirst := (hx.2 first (List.of_mem_zip hpair).1).2.2
    have hmiddle := (hy.2 middle (List.of_mem_zip hleft).2).2.2
    have hlast := (hz.2 last (List.of_mem_zip hpair).2).2.2
    exact ih (by omega) hlast hmiddle hfirst (hparams' _ hright) (hparams _ hleft)
  · rcases hresult' with hvoid | hresult'
    · exact .inl hvoid
    rcases hresult with hvoid | hresult
    · rw [hvoid] at hresult'
      rcases eq_of_void_holds h hg hz.1 hresult' with hvoid | hany
      · exact .inl hvoid
      · exact .inr (hany ▸ holds_any _)
    · exact .inr (ih hN hx.1 hy.1 hz.1 hresult hresult')

omit ih hN in
/-- What is above the place of a type in the hierarchy is above the places of the types below it. -/
theorem Layer.below_of_rooted {d d' e : DeclId} (hp : Layer w T₀ T D a b p)
    (hmp : p.Met (Holds w) T) (ha : w.Rooted T a d') (hb : w.Rooted T b d)
    (hbelow : w.Below T₀ d e) : w.Below T₀ d' e := by
  have hT := hg.wellFormed
  cases hp with
  | base hstands => exact absurd ha (hstands.not_rooted hT)
  | receivers hs => exact absurd ha (StandsFor.not_rooted hT (.receiver hs))
  | hierarchy _ hs ht hb' =>
    cases ha.unique hT hs
    cases hb.unique hT (.inl ht)
    exact h.below_trans (hb'.mp (met_verdict.mp hmp)) hbelow
  | congruent hst =>
    cases hst with
    | functions hs ht | shapes hs ht =>
      cases ha.unique hT (.inr (congrArg w.entry? hs))
      cases hb.unique hT (.inr (congrArg w.entry? ht))
      exact hbelow
    | @metaTypes _ _ i j hs ht hij =>
      cases j with
      | false =>
        -- The entry is `Object`, and nothing is above it.
        cases hb.unique hT (.inr (congrArg w.entry? ht))
        exact .inl (hbelow.elim id h.eq_object_of_reaches)
      | true =>
        obtain rfl : i = true := hij.resolve_right Bool.noConfusion
        cases ha.unique hT (.inr (congrArg w.entry? hs))
        cases hb.unique hT (.inr (congrArg w.entry? ht))
        exact hbelow

/-- Types of one form are compared part by part. -/
theorem congruent_trans {q : Plan} (ha : RegularLayer w T D (Regular w T D n) a (T.lookup a))
    (hb : RegularLayer w T D (Regular w T D m) b (T.lookup b))
    (hc : RegularLayer w T D (Regular w T D k) c (T.lookup c)) (hp : Congruent T a b p)
    (hq : Congruent T b c q) (hmp : p.Met (Holds w) T) (hmq : q.Met (Holds w) T) :
    ∃ r, Congruent T a c r ∧ r.Met (Holds w) T := by
  cases hp with
  | functions hs ht =>
    cases hq with
    | functions hs' ht' =>
      cases ht.symm.trans hs'
      rw [hs] at ha
      rw [ht] at hb
      rw [ht'] at hc
      exact ⟨_, .functions hs ht', functions_trans h hg ih hN ha hb hc hmp hmq⟩
    | shapes hs' | metaTypes hs' => cases ht.symm.trans hs'
  | shapes hs ht =>
    cases hq with
    | shapes hs' ht' =>
      cases ht.symm.trans hs'
      rw [hs] at ha
      rw [ht] at hb
      rw [ht'] at hc
      exact ⟨_, .shapes hs ht', shapes_trans ih hN ha hb hc hmp hmq⟩
    | functions hs' | metaTypes hs' => cases ht.symm.trans hs'
  | metaTypes hs ht hij =>
    cases hq with
    | metaTypes hs' ht' hij' =>
      cases ht.symm.trans hs'
      rw [hs] at ha
      rw [ht] at hb
      rw [ht'] at hc
      refine ⟨_, .metaTypes hs ht' ?_, met_pair.mpr
        (ih hN ha hb hc (met_pair.mp hmp) (met_pair.mp hmq))⟩
      rcases hij with hi | hj
      · exact .inl hi
      · exact .inr (hij'.resolve_left (by simp [hj]))
    | functions hs' | shapes hs' => cases ht.symm.trans hs'

omit hN in
/-- Two plans in a row make a third one. -/
theorem layers_trans {q : Plan} (hN : n + m + k + 2 ≤ N) (ha : Regular w T D (n + 1) a)
    (hb : Regular w T D (m + 1) b) (hc : Regular w T D (k + 1) c) (hbc : Holds w T b c)
    (hp : Layer w T₀ T D a b p) (hq : Layer w T₀ T D b c q) (hmp : p.Met (Holds w) T)
    (hmq : q.Met (Holds w) T) : ∃ r, Layer w T₀ T D a c r ∧ r.Met (Holds w) T := by
  have hT := hg.wellFormed
  have halayer := ha
  have hblayer := hb
  have hclayer := hc
  rw [Regular] at halayer hblayer hclayer
  have hplace {d d' e : DeclId} (hd' : d' ∈ D) (ha : w.Rooted T a d') (hb : w.Rooted T b d)
      (hc : T.Refers c e) (hbelow : w.Below T₀ d e) :
      ∃ r, Layer w T₀ T D a c r ∧ r.Met (Holds w) T :=
    ⟨.verdict true, .hierarchy hd' ha hc
      ⟨fun _ => hp.below_of_rooted h hg hmp ha hb hbelow, fun _ => rfl⟩, met_verdict.mpr rfl⟩
  cases hp with
  | @base u hstands hrank hbound =>
    have hu : Regular w T D n u := (hstands.part halayer).1
    refine ⟨.pair u c, .base hstands (le_trans (hq.rank_le hT) hrank) ?_, met_pair.mpr ?_⟩
    · refine hbound.imp_right fun hnot => ?_
      cases hcbound : (T.lookup c).isBoundThis with
      | false => rfl
      | true => exact absurd (hq.isBoundThis hT hcbound) (by simp [hnot])
    · exact ih (by omega) hu hb hc (met_pair.mp hmp) hbc
  | @receivers u v hs ht =>
    rw [hs] at halayer
    rw [ht] at hblayer
    cases hq with
    | @base x hstands hrank hbound =>
      rw [ht] at hrank hbound
      obtain rfl : x = v := by
        cases hstands with
        | literal hs' | typeVariable hs' => cases ht.symm.trans hs'
        | receiver hs' => cases ht.symm.trans hs'; rfl
      refine ⟨.pair u c, .base (.receiver hs) (by rw [hs]; exact hrank)
        (.inr (hbound.resolve_left Bool.noConfusion)), met_pair.mpr ?_⟩
      exact ih (by omega) halayer.1 hblayer.1 hc (met_pair.mp hmp) (met_pair.mp hmq)
    | receivers hs' ht' =>
      cases ht.symm.trans hs'
      rw [ht'] at hclayer
      exact ⟨_, .receivers hs ht', met_pair.mpr
        (ih (by omega) halayer.1 hblayer.1 hclayer.1 (met_pair.mp hmp) (met_pair.mp hmq))⟩
    | hierarchy _ hroot => exact absurd hroot (StandsFor.not_rooted hT (.receiver ht))
    | congruent hst =>
      obtain ⟨⟨d, hd⟩, -⟩ := hst.entries w
      exact absurd (.inr hd) (StandsFor.not_rooted hT (.receiver ht))
  | hierarchy hd hs ht =>
    cases hq with
    | base hstands => exact absurd (.inl ht) (hstands.not_rooted hT)
    | receivers hs' => cases hs'.symm.trans (ht.lookup hT)
    | hierarchy _ hs' ht' hb' => exact hplace hd hs hs' ht' (hb'.mp (met_verdict.mp hmq))
    | congruent hst =>
      obtain ⟨⟨e, he⟩, -⟩ := hst.entries w
      rw [ht.lookup hT] at he
      cases he
  | congruent hst =>
    obtain ⟨⟨d, hd⟩, e, he⟩ := hst.entries w
    cases hq with
    | base hstands => exact absurd (.inr he) (hstands.not_rooted hT)
    | receivers hs' => exact absurd (.inr he) (StandsFor.not_rooted hT (.receiver hs'))
    | hierarchy _ hs' ht' hb' =>
      exact hplace (h.exists_room hd).1 (.inr hd) hs' ht' (hb'.mp (met_verdict.mp hmq))
    | congruent hst' =>
      obtain ⟨r, hr, hmet⟩ :=
        congruent_trans h hg ih (by omega) halayer hblayer hclayer hst hst' hmp hmq
      exact ⟨r, .congruent hr, hmet⟩

end Layers

/-! ### Transitivity -/

section Transitivity

variable (h : w.FunctionFragment T₀ D) (hg : T₀.GrowsTo T)

include h hg

/-- Transitivity where a handle settles a question. -/
theorem holds_trans_of_extreme (ha : Regular w T D n a) (hb : Regular w T D m b)
    (hc : Regular w T D k c) (hab : Holds w T a b) (hbc : Holds w T b c)
    (hextreme : a ∈ [TypeId.any, .null, .undefined] ∨ b ∈ [TypeId.any, .null, .undefined] ∨
      c = .any) : Holds w T a c := by
  simp only [List.mem_cons, List.not_mem_nil, or_false] at hextreme
  rcases hextreme with (rfl | rfl | rfl) | (rfl | rfl | rfl) | rfl
  · cases eq_any_of_holds h hg ⟨m, hb⟩ hab
    exact hbc
  · by_cases hundefined : c = .undefined
    · rw [hundefined] at hbc ⊢
      cases (eq_of_holds_bottom h hg (.inr rfl) hb hbc).elim id id
      exact hab
    · exact holds_null hundefined
  · exact holds_undefined c
  · cases eq_any_of_holds h hg ⟨k, hc⟩ hbc
    exact hab
  · rcases eq_of_holds_bottom h hg (.inl rfl) ha hab with rfl | rfl
    · exact hbc
    · exact holds_undefined c
  · cases (eq_of_holds_bottom h hg (.inr rfl) ha hab).elim id id
    exact hbc
  · exact holds_any a

/-- Transitivity where no handle settles a question.  The rules take composites apart in a fixed
order, and so does the proof; in each case the types that remain are less deep. -/
theorem holds_trans_of_unsettled (ih : TransitiveTo w T D N)
    (hN : n + 1 + (m + 1) + (k + 1) ≤ N + 1)
    (ha : Regular w T D (n + 1) a) (hb : Regular w T D (m + 1) b) (hc : Regular w T D (k + 1) c)
    (hab : Holds w T a b) (hbc : Holds w T b c) (heqab : a ≠ b) (heqbc : b ≠ c)
    (uab : Unsettled w T D a b) (ubc : Unsettled w T D b c) (uac : Unsettled w T D a c) :
    Holds w T a c := by
  have hsab := (holds_iff.mp hab).resolve_left heqab
  have hsbc := (holds_iff.mp hbc).resolve_left heqbc
  have hala := ha
  have halb := hb
  have halc := hc
  rw [Regular] at hala halb halc
  have hstep (hstep : Step w (Holds w) T a c) : Holds w T a c := holds_iff.mpr (.inr hstep)
  cases hau : (T.lookup a).unionMembers? with
  | some ms =>
    have hdata := TypeData.eq_union hau
    rw [hdata] at hala
    refine hstep ((uac.step_union_left h hg hdata).mpr fun x hx => ?_)
    exact ih (by omega) (hala.1 x hx).1 hb hc ((uab.step_union_left h hg hdata).mp hsab x hx) hbc
  | none =>
  cases hbu : (T.lookup b).unionMembers? with
  | some ms =>
    have hdata := TypeData.eq_union hbu
    rw [hdata] at halb
    obtain ⟨x, hx, hax⟩ := (uab.step_union_right h hg hau hdata).mp hsab
    exact ih (by omega) ha (halb.1 x hx).1 hc hax ((ubc.step_union_left h hg hdata).mp hsbc x hx)
  | none =>
  cases hcu : (T.lookup c).unionMembers? with
  | some ms =>
    have hdata := TypeData.eq_union hcu
    rw [hdata] at halc
    obtain ⟨x, hx, hbx⟩ := (ubc.step_union_right h hg hbu hdata).mp hsbc
    refine hstep ((uac.step_union_right h hg hau hdata).mpr ⟨x, hx, ?_⟩)
    exact ih (by omega) ha hb (halc.1 x hx).1 hab hbx
  | none =>
  cases hci : (T.lookup c).intersectionMembers? with
  | some ms =>
    have hdata := TypeData.eq_intersection hci
    rw [hdata] at halc
    refine hstep ((uac.step_intersection_right h hg hau hdata).mpr fun x hx => ?_)
    exact ih (by omega) ha hb (halc.2 x hx).1 hab
      ((ubc.step_intersection_right h hg hbu hdata).mp hsbc x hx)
  | none =>
  have hcplain := TypeData.isComposite_eq_false_iff.mpr ⟨hcu, hci⟩
  cases hbi : (T.lookup b).intersectionMembers? with
  | some ms =>
    have hdata := TypeData.eq_intersection hbi
    rw [hdata] at halb
    obtain ⟨x, hx, hxc⟩ := (ubc.step_intersection_left h hg hdata hcplain).mp hsbc
    exact ih (by omega) ha (halb.2 x hx).1 hc
      ((uab.step_intersection_right h hg hau hdata).mp hsab x hx) hxc
  | none =>
  have hbplain := TypeData.isComposite_eq_false_iff.mpr ⟨hbu, hbi⟩
  cases hai : (T.lookup a).intersectionMembers? with
  | some ms =>
    have hdata := TypeData.eq_intersection hai
    rw [hdata] at hala
    obtain ⟨x, hx, hxb⟩ := (uab.step_intersection_left h hg hdata hbplain).mp hsab
    refine hstep ((uac.step_intersection_left h hg hdata hcplain).mpr ⟨x, hx, ?_⟩)
    exact ih (by omega) (hala.2 x hx).1 hb hc hxb hbc
  | none =>
  have haplain := TypeData.isComposite_eq_false_iff.mpr ⟨hau, hai⟩
  obtain ⟨p, hp, hmp⟩ := (LayerPair.step_iff h hg ⟨uab, haplain, hbplain⟩).mp hsab
  obtain ⟨q, hq, hmq⟩ := (LayerPair.step_iff h hg ⟨ubc, hbplain, hcplain⟩).mp hsbc
  refine hstep ((LayerPair.step_iff h hg ⟨uac, haplain, hcplain⟩).mpr ?_)
  exact layers_trans h hg ih (by omega) ha hb hc hbc hp hq hmp hmq

theorem transitiveTo (N : Nat) : TransitiveTo w T D N := by
  induction N with
  | zero =>
    intro n m k hN a b c ha
    obtain rfl : n = 0 := by omega
    exact ha.elim
  | succ N ih =>
    intro n m k hN a b c ha hb hc hab hbc
    by_cases hextreme : a ∈ [TypeId.any, .null, .undefined] ∨ b ∈ [TypeId.any, .null, .undefined] ∨
        c = .any
    · exact holds_trans_of_extreme h hg ha hb hc hab hbc hextreme
    by_cases heqab : a = b
    · exact heqab ▸ hbc
    by_cases heqbc : b = c
    · exact heqbc ▸ hab
    simp only [List.mem_cons, List.not_mem_nil, or_false, not_or] at hextreme
    obtain ⟨hna, hnb, hnc⟩ := hextreme
    have hunsettled {s t : TypeId} (hs : IsRegular w T D s) (ht : IsRegular w T D t)
        (hns : s ≠ .any ∧ s ≠ .null ∧ s ≠ .undefined) (hnt : t ≠ .any) : Unsettled w T D s t := by
      refine ⟨hs, ht, ?_⟩
      rw [sentinel?_regular h hg hs ht, if_neg hnt, if_neg hns.2.2, if_neg hns.2.1, if_neg hns.1]
    obtain _ | n := n
    · exact ha.elim
    obtain _ | m := m
    · exact hb.elim
    obtain _ | k := k
    · exact hc.elim
    exact holds_trans_of_unsettled h hg ih hN ha hb hc hab hbc heqab heqbc
      (hunsettled ⟨_, ha⟩ ⟨_, hb⟩ hna hnb.1) (hunsettled ⟨_, hb⟩ ⟨_, hc⟩ hnb hnc)
      (hunsettled ⟨_, ha⟩ ⟨_, hc⟩ hna hnc)

/-- The subtype relation is transitive on regular types. -/
theorem holds_trans (ha : IsRegular w T D a) (hb : IsRegular w T D b) (hc : IsRegular w T D c)
    (hab : Holds w T a b) (hbc : Holds w T b c) : Holds w T a c := by
  obtain ⟨n, ha⟩ := ha
  obtain ⟨m, hb⟩ := hb
  obtain ⟨k, hc⟩ := hc
  exact transitiveTo h hg _ le_rfl ha hb hc hab hbc

end Transitivity

end ScriptTyping.Subtyping
