import ScriptTyping.Proofs.Environment.Relaxation
import ScriptTyping.Proofs.Hierarchy.Nominal
import ScriptTyping.Proofs.Termination.Subtyping

/-!
# Subtyping of non-generic classifiers

Between references to non-generic classifiers the subtype relation is the order of declarations:
`Object` stands above all of them, and otherwise a declaration stands above those that reach it.  An
intersection of such references is above what all of them are above, and below what one of them is
below.  The recursion guard never cuts such a query off, since each question costs one entry and
the questions are no more deeply nested than an intersection.

## Main definitions

* `World.Below` — the order of declarations.
* `Subtyping.Affords` — what a guard still grants.
* `Subtyping.Decides` — a computation under a guard that answers a question at a certain cost.
* `TypeTable.Meets` — the intersection of several references, or a single one.

## Main results

* `World.NominalFragment.yields_isSubtype` — subtyping between references.
* `World.NominalFragment.yields_isSubtype_meet`, `World.NominalFragment.yields_meet_isSubtype` —
  subtyping between a reference and an intersection of references.
-/

namespace ScriptTyping

/-! ### The order of declarations -/

namespace World

variable {w : World} {T₀ T T' : TypeTable} {D : Set DeclId} {s t : TypeId} {d e f : DeclId}

/-- The second declaration is `Object` or can be reached from the first. -/
def Below (w : World) (T : TypeTable) (d e : DeclId) : Prop :=
  e = w.builtins.object ∨ w.Reaches T d e

theorem Below.refl (d : DeclId) : w.Below T d d := .inr .refl

theorem NominalFragment.eq_object_of_reaches (h : w.NominalFragment T D)
    (he : w.Reaches T w.builtins.object e) : e = w.builtins.object := by
  rcases Relation.ReflTransGen.cases_head he with heq | ⟨e', hstep, -⟩
  · exact heq.symm
  · exact absurd hstep (h.object_top e')

theorem NominalFragment.below_trans (h : w.NominalFragment T D) (hde : w.Below T d e)
    (hef : w.Below T e f) : w.Below T d f := by
  rcases hef with hobject | hreach
  · exact .inl hobject
  rcases hde with rfl | hreach'
  · exact .inl (h.eq_object_of_reaches hreach)
  · exact .inr (hreach'.trans hreach)

/-! ### What the rules find out -/

theorem Classifiers.kind_eq (h : w.Classifiers T D) (hd : d ∈ D) :
    ∃ kind : DeclKind, w.declarations.kind? d = some kind ∧ kind.isClassifier = true := by
  obtain ⟨info, hinfo, hclassifier, -⟩ := h.classifier d hd
  refine ⟨info.kind, ?_, hclassifier⟩
  rw [Declarations.kind?, ← World.decl?, hinfo, Option.map_some]

theorem Classifiers.not_isAliasReference (h : w.Classifiers T₀ D) (hT : T.WellFormed) (hd : d ∈ D)
    (ht : T.Refers t d) : ¬w.IsAliasReference T t := by
  rintro ⟨decl, args, hlookup, halias⟩
  cases (ht.lookup hT).symm.trans hlookup
  obtain ⟨kind, hkind, hclassifier⟩ := h.kind_eq hd
  cases hkind.symm.trans halias
  cases hclassifier

/-- The values of a classifier are objects. -/
theorem NominalFragment.yields_isObjectLike (h : w.NominalFragment T₀ D) (hT : T.WellFormed)
    (hd : d ∈ D) (ht : T.Refers t d) :
    TypeM.Yields (w.isObjectLike t) T fun _ b => b = true := by
  obtain ⟨fuel, hfuel⟩ : ∃ fuel, w.fuel = fuel + 1 := ⟨w.fuel - 1, by have := h.fuel; omega⟩
  obtain ⟨kind, hkind, hclassifier⟩ := h.kind_eq hd
  rw [isObjectLike, hfuel, isObjectLikeFrom]
  refine .lookup ?_
  rw [ht.lookup hT]
  dsimp only
  rw [hkind]
  cases kind with
  | classType | interfaceType | enumType => exact .pure hT rfl
  | _ => cases hclassifier

/-- A declaration is found among references if it is one of theirs. -/
theorem findSome?_of_lists {ts : List TypeId} {E : DeclId → Prop}
    {f : TypeId → Option (TypeId × List TypeId)} (hT : T.WellFormed) (h : T.Lists ts E)
    (hf : ∀ s d args, T.lookup s = .nominal d args → f s = if d = e then some (s, args) else none) :
    (E e → ∃ s, ts.findSome? f = some (s, [])) ∧ (¬E e → ts.findSome? f = none) := by
  have hvalue : ∀ s ∈ ts, ∃ d, E d ∧ f s = if d = e then some (s, []) else none := by
    intro s hs
    obtain ⟨d, hd, hrefers⟩ := h.sound s hs
    exact ⟨d, hd, hf s d [] (hrefers.lookup hT)⟩
  constructor
  · intro he
    obtain ⟨s, hs, hrefers⟩ := h.complete e he
    cases ho : ts.findSome? f with
    | none =>
      have hnone := List.findSome?_eq_none_iff.mp ho s hs
      rw [hf s e [] (hrefers.lookup hT), if_pos rfl] at hnone
      cases hnone
    | some found =>
      obtain ⟨s', hs', hmatch⟩ := List.exists_of_findSome?_eq_some ho
      obtain ⟨d, -, hd⟩ := hvalue s' hs'
      rw [hd] at hmatch
      split at hmatch <;> cases hmatch
      exact ⟨s', rfl⟩
  · intro hnot
    refine List.findSome?_eq_none_iff.mpr fun s hs => ?_
    obtain ⟨d, hd, hvalue⟩ := hvalue s hs
    rw [hvalue, if_neg]
    rintro rfl
    exact hnot hd

/-- A declaration is found among the super types if it can be reached. -/
theorem NominalFragment.yields_findInstantiation? (h : w.NominalFragment T₀ D)
    (hg : T₀.GrowsTo T) (hd : d ∈ D) (ht : T.Refers t d) (e : DeclId) :
    TypeM.Yields (w.findInstantiation? t e) T fun _ o =>
      (w.Reaches T₀ d e → ∃ s, o = some (s, [])) ∧ (¬w.Reaches T₀ d e → o = none) := by
  rw [findInstantiation?]
  refine (h.yields_supertypes hg hd ht).bind fun above T₁ hg₁ habove =>
    .get (.pure hg₁.wellFormed (findSome?_of_lists hg₁.wellFormed habove.1 ?_))
  intro s d' args hlookup
  rw [hlookup]

end World

/-- The type is the intersection of several members; a single one stands for itself. -/
inductive TypeTable.Meets (T : TypeTable) (t : TypeId) : List TypeId → Prop
  | single : Meets T t [t]
  | several {members : List TypeId} (hseveral : 2 ≤ members.length)
      (h : T.lookup? t = some (.intersection members)) : Meets T t members

theorem TypeTable.Meets.of_le {T T' : TypeTable} {t : TypeId} {members : List TypeId}
    (hle : T ≤ T') (h : T.Meets t members) : T'.Meets t members := by
  cases h with
  | single => exact .single
  | several hseveral h => exact .several hseveral (lookup?_of_le hle h)

namespace Subtyping

variable {w : World} {T₀ T T' : TypeTable} {D : Set DeclId} {s t : TypeId} {d e : DeclId}

/-- The plan for types that are neither reserved nor references to aliases. -/
theorem plan_apply (hs : TypeId.firstDynamic ≤ s.index) (ht : TypeId.firstDynamic ≤ t.index)
    (hsalias : ¬w.IsAliasReference T s) (htalias : ¬w.IsAliasReference T t) :
    plan w s t T = expandedPlan w s t (T.lookup s) (T.lookup t) T := by
  rw [plan_of_reserved_le hs ht, TypeM.bind_of_ok (resolveAlias_of_not_alias hsalias),
    TypeM.bind_of_ok (resolveAlias_of_not_alias htalias)]
  rfl

/-- Compared with a reference, a type that is an object behaves like the declaration from which its
super types can be reached. -/
theorem yields_nominalPlan (hobject : TypeM.Yields (w.isObjectLike s) T fun _ b => b = true)
    (hfind : TypeM.Yields (w.findInstantiation? s e) T fun _ o =>
      (w.Reaches T₀ d e → ∃ s, o = some (s, [])) ∧ (¬w.Reaches T₀ d e → o = none)) :
    TypeM.Yields (nominalPlan w s e []) T fun _ p =>
      ∃ b, p = .verdict b ∧ (b = true ↔ w.Below T₀ d e) := by
  rw [nominalPlan]
  split
  · rename_i hroot
    refine hobject.bind fun b T₁ hg₁ hb => .pure hg₁.wellFormed ⟨b, rfl, ?_⟩
    exact ⟨fun _ => .inl hroot.1, fun _ => hb⟩
  · rename_i hroot
    have hne : e ≠ w.builtins.object := fun heq => hroot ⟨heq, rfl⟩
    refine hfind.bind fun o T₁ hg₁ ho => ?_
    by_cases hreach : w.Reaches T₀ d e
    · obtain ⟨s', rfl⟩ := ho.1 hreach
      exact .pure hg₁.wellFormed ⟨true, rfl, fun _ => .inr hreach, fun _ => rfl⟩
    · cases ho.2 hreach
      refine .pure hg₁.wellFormed ⟨false, rfl, fun hfalse => (by cases hfalse), ?_⟩
      rintro (heq | hreach')
      · exact absurd heq hne
      · exact absurd hreach' hreach

/-- The plan for two references settles their order. -/
theorem yields_plan (h : w.NominalFragment T₀ D) (hg : T₀.GrowsTo T) (hd : d ∈ D) (he : e ∈ D)
    (hs : T.Refers s d) (ht : T.Refers t e) :
    TypeM.Yields (plan w s t) T fun _ p => ∃ b, p = .verdict b ∧ (b = true ↔ w.Below T₀ d e) := by
  have hT := hg.wellFormed
  have hinit := le_trans h.initial hg.le
  refine .of_eq (plan_apply (reserved_le_of_nominal hinit (hs.lookup hT))
    (reserved_le_of_nominal hinit (ht.lookup hT)) (h.not_isAliasReference hT hd hs)
    (h.not_isAliasReference hT he ht)) ?_
  have hplan : expandedPlan w s t (.nominal d []) (.nominal e []) = nominalPlan w s e [] := rfl
  rw [hs.lookup hT, ht.lookup hT, hplan]
  exact yields_nominalPlan (h.yields_isObjectLike hT hd hs) (h.yields_findInstantiation? hg hd hs e)

/-! ### Costs -/

/-- What a guard still grants: the pairs that are being decided, the levels below them, and the
entries that are left. -/
structure Affords (pairs : List (TypeId × TypeId)) (levels entries : Nat) (g : PairGuard) :
    Prop where
  visiting : g.visiting = pairs
  depth : g.depth = pairs.length
  levels : g.depth + levels ≤ g.maxDepth
  entries : g.iterations + entries ≤ g.maxIterations
  counter : g.maxIterations < counterLimit

variable {pairs : List (TypeId × TypeId)} {pair : TypeId × TypeId} {levels entries cost : Nat}
  {g : PairGuard} {P : Prop}

theorem Affords.mono {entries' : Nat} (h : Affords pairs levels entries g)
    (hle : entries' ≤ entries) : Affords pairs levels entries' g where
  visiting := h.visiting
  depth := h.depth
  levels := h.levels
  entries := Nat.le_trans (Nat.add_le_add_left hle _) h.entries
  counter := h.counter

theorem affords_ofProfile :
    Affords [] RecursionProfile.subtypeCheck.maxDepth RecursionProfile.subtypeCheck.maxIterations
      (.ofProfile .subtypeCheck) :=
  ⟨rfl, rfl, by decide, by decide, by decide⟩

/-- Entering a new pair takes one level and one entry. -/
theorem Affords.enter (h : Affords pairs (levels + 1) (entries + 1) g) (hnew : pair ∉ pairs) :
    ∃ g₁, g.enter pair = (.entered, g₁) ∧ Affords (pair :: pairs) levels entries g₁ := by
  have hlevels := h.levels
  have hentries := h.entries
  have hcounter := h.counter
  have hmin : min (g.iterations + 1) counterLimit = g.iterations + 1 := by omega
  have hvisiting : g.isVisiting pair = false := by
    simpa [RecursionGuard.isVisiting, h.visiting] using hnew
  refine ⟨{ g with iterations := g.iterations + 1, visiting := pair :: g.visiting,
                   depth := g.depth + 1 }, ?_, ?_⟩
  · rw [RecursionGuard.enter]
    simp only [hmin]
    rw [if_neg (by omega), if_neg (by omega), if_neg]
    simpa [RecursionGuard.isVisiting] using hvisiting
  · refine ⟨congrArg _ h.visiting, ?_, ?_, ?_, hcounter⟩
    · simp [h.depth]
    · dsimp only
      omega
    · dsimp only
      omega

/-- Leaving the latest pair gives the level back. -/
theorem Affords.leave (h : Affords (pair :: pairs) levels entries g) :
    Affords pairs (levels + 1) entries ((g.leave pair).toOption.getD g) := by
  have hin : g.isVisiting pair = true := by simp [RecursionGuard.isVisiting, h.visiting]
  have hlevels := h.levels
  have hdepth := h.depth
  rw [List.length_cons] at hdepth
  rw [RecursionGuard.leave, if_pos hin]
  refine ⟨?_, ?_, ?_, h.entries, h.counter⟩
  · simp [Except.toOption, h.visiting]
  · simp [Except.toOption, hdepth]
  · simp only [Except.toOption, Option.getD_some]
    omega

/-- The computation answers a question from the table, whatever guard affords its cost, and leaves
the guard with the rest. -/
def Decides (x : CheckM Bool) (T : TypeTable) (pairs : List (TypeId × TypeId)) (levels cost : Nat)
    (P : Prop) : Prop :=
  ∀ entries g, Affords pairs levels (cost + entries) g → ∃ b g' T', x g T = .ok (b, g') T' ∧
    T.GrowsTo T' ∧ (b = true ↔ P) ∧ Affords pairs levels entries g'

theorem Decides.pure {b : Bool} (hT : T.WellFormed) (h : b = true ↔ P) :
    Decides (pure b) T pairs levels cost P :=
  fun _ g hg => ⟨b, g, T, rfl, .refl hT, h, hg.mono (Nat.le_add_left ..)⟩

section Loops

variable {α : Type} {p : α → CheckM Bool} {Q : α → Prop}

/-- A question for all elements costs one entry each. -/
theorem Decides.allM (l : List α) : ∀ {T : TypeTable}, T.WellFormed →
    (∀ a ∈ l, ∀ T', T.GrowsTo T' → Decides (p a) T' pairs levels 1 (Q a)) →
    Decides (l.allM p) T pairs levels l.length (∀ a ∈ l, Q a) := by
  induction l with
  | nil => exact fun hT _ => .pure hT (by simp)
  | cons a l ih =>
    intro T hT hp entries g hg
    rw [List.length_cons, Nat.add_comm l.length, Nat.add_assoc] at hg
    obtain ⟨b, g₁, T₁, hb, hg₁, hiff, hafford₁⟩ := hp a (List.mem_cons_self ..) T (.refl hT) _ g hg
    rw [List.allM_cons]
    cases b with
    | false =>
      refine ⟨false, g₁, T₁, bind_eq_ok.mpr ⟨false, g₁, T₁, hb, rfl⟩, hg₁, ?_,
        hafford₁.mono (Nat.le_add_left ..)⟩
      simp only [Bool.false_eq_true, false_iff] at hiff ⊢
      exact fun hall => hiff (hall a (List.mem_cons_self ..))
    | true =>
      obtain ⟨b', g₂, T₂, hb', hg₂, hiff', hafford₂⟩ := ih hg₁.wellFormed (fun a' ha' T' hg' =>
        hp a' (List.mem_cons_of_mem _ ha') T' (hg₁.trans hg')) entries g₁ hafford₁
      refine ⟨b', g₂, T₂, bind_eq_ok.mpr ⟨true, g₁, T₁, hb, hb'⟩, hg₁.trans hg₂, ?_, hafford₂⟩
      rw [hiff', List.forall_mem_cons]
      exact ⟨fun hall => ⟨hiff.mp rfl, hall⟩, fun hall => hall.2⟩

/-- A question for some element costs one entry each. -/
theorem Decides.anyM (l : List α) : ∀ {T : TypeTable}, T.WellFormed →
    (∀ a ∈ l, ∀ T', T.GrowsTo T' → Decides (p a) T' pairs levels 1 (Q a)) →
    Decides (l.anyM p) T pairs levels l.length (∃ a ∈ l, Q a) := by
  induction l with
  | nil => exact fun hT _ => .pure hT (by simp)
  | cons a l ih =>
    intro T hT hp entries g hg
    rw [List.length_cons, Nat.add_comm l.length, Nat.add_assoc] at hg
    obtain ⟨b, g₁, T₁, hb, hg₁, hiff, hafford₁⟩ := hp a (List.mem_cons_self ..) T (.refl hT) _ g hg
    rw [List.anyM_cons]
    cases b with
    | true =>
      exact ⟨true, g₁, T₁, bind_eq_ok.mpr ⟨true, g₁, T₁, hb, rfl⟩, hg₁,
        ⟨fun _ => ⟨a, List.mem_cons_self .., hiff.mp rfl⟩, fun _ => rfl⟩,
        hafford₁.mono (Nat.le_add_left ..)⟩
    | false =>
      obtain ⟨b', g₂, T₂, hb', hg₂, hiff', hafford₂⟩ := ih hg₁.wellFormed (fun a' ha' T' hg' =>
        hp a' (List.mem_cons_of_mem _ ha') T' (hg₁.trans hg')) entries g₁ hafford₁
      refine ⟨b', g₂, T₂, bind_eq_ok.mpr ⟨false, g₁, T₁, hb, hb'⟩, hg₁.trans hg₂, ?_, hafford₂⟩
      have hnot : ¬Q a := fun ha => Bool.false_ne_true (hiff.mpr ha)
      rw [hiff', List.exists_mem_cons_iff]
      exact ⟨.inr, fun hsome => hsome.resolve_left hnot⟩

end Loops

/-- The rules carry out the plan. -/
theorem decides_rules {ask : Query}
    (hplan : TypeM.Yields (plan w s t) T fun T' p => Decides (p.eval ask) T' pairs levels cost P) :
    Decides (rules w ask s t) T pairs levels cost P := by
  intro entries g hg
  obtain ⟨p, T₁, hp, hg₁, hdecides⟩ := hplan
  obtain ⟨b, g', T', hb, hg', hiff, hafford⟩ := hdecides entries g hg
  exact ⟨b, g', T', rules_eq_ok.mpr ⟨p, T₁, hp, hb⟩, hg₁.trans hg', hiff, hafford⟩

/-- One level of the recursion takes one level and one entry of the guard. -/
theorem decides_check {room : Nat} (hne : s ≠ t) (hnew : (s, t) ∉ pairs)
    (hrules : Decides (rules w (check w room) s t) T ((s, t) :: pairs) levels cost P) :
    Decides (check w (room + 1) s t) T pairs (levels + 1) (cost + 1) P := by
  intro entries g hg
  rw [Nat.add_right_comm] at hg
  obtain ⟨g₁, henter, hafford₁⟩ := hg.enter hnew
  obtain ⟨b, g₂, T', hb, hg', hiff, hafford₂⟩ := hrules entries g₁ hafford₁
  refine ⟨b, _, T', ?_, hg', hiff, hafford₂.leave⟩
  rw [check_succ, if_neg hne, henter]
  exact TypeM.bind_eq_ok.mpr ⟨(b, g₂), T', hb, rfl⟩

/-- A query has the whole budget of a new guard. -/
theorem yields_isSubtype {env : Environment} (henv : env.ReplacesNothing)
    (h : Decides (check w (RecursionProfile.subtypeCheck.maxDepth + 1) s t) T []
      RecursionProfile.subtypeCheck.maxDepth cost P)
    (hcost : cost ≤ RecursionProfile.subtypeCheck.maxIterations) :
    TypeM.Yields (w.isSubtype env s t) T fun _ b => b = true ↔ P := by
  have hsubstitute : env.substitute = fun t => pure t := henv.relaxes_empty.substitute.symm
  obtain ⟨b, g, T', hb, hg, hiff, -⟩ := h 0 _ (affords_ofProfile.mono hcost)
  refine ⟨b, T', ?_, hg, hiff⟩
  rw [World.isSubtype, hsubstitute, pure_bind, pure_bind]
  exact TypeM.bind_eq_ok.mpr ⟨(b, g), T', hb, rfl⟩

/-! ### Between references -/

/-- A question about two references costs one entry. -/
theorem decides_check_references (h : w.NominalFragment T₀ D) (hg : T₀.GrowsTo T) (hd : d ∈ D)
    (he : e ∈ D) (hs : T.Refers s d) (ht : T.Refers t e) (hnew : (s, t) ∉ pairs) (room : Nat) :
    Decides (check w (room + 1) s t) T pairs (levels + 1) 1 (w.Below T₀ d e) := by
  by_cases heq : s = t
  · subst heq
    cases hs.decl_unique hg.wellFormed ht
    intro entries g hafford
    refine ⟨true, g, T, ?_, .refl hg.wellFormed, ⟨fun _ => .refl d, fun _ => rfl⟩,
      hafford.mono (Nat.le_add_left ..)⟩
    rw [check_succ, if_pos rfl]
    rfl
  · refine decides_check heq hnew (decides_rules ?_)
    refine (yields_plan h hg hd he hs ht).mono fun T₁ p hg₁ hp => ?_
    obtain ⟨b, rfl, hb⟩ := hp
    rw [Plan.eval_verdict]
    exact .pure hg₁.wellFormed hb

/-! ### Between a reference and an intersection -/

theorem Decides.mono {x : CheckM Bool} {cost' : Nat} {P' : Prop}
    (h : Decides x T pairs levels cost P) (hcost : cost ≤ cost') (hP : P ↔ P') :
    Decides x T pairs levels cost' P' := by
  intro entries g hg
  obtain ⟨b, g', T', hb, hg', hiff, hafford⟩ := h entries g (hg.mono (by omega))
  exact ⟨b, g', T', hb, hg', hiff.trans hP, hafford⟩

section Meet

variable {members : List TypeId} {M : DeclId → Prop} (h : w.NominalFragment T₀ D)
  (hg : T₀.GrowsTo T) (hM : ∀ e, M e → e ∈ D) (hmembers : T.Lists members M)

include h hg hM hmembers

/-- Being below an intersection is being below all members. -/
theorem decides_check_meet (hd : d ∈ D) (hs : T.Refers s d) (ht : T.Meets t members)
    (room levels : Nat) :
    Decides (check w (room + 2) s t) T [] (levels + 2) (members.length + 1)
      (∀ e, M e → w.Below T₀ d e) := by
  have hT := hg.wellFormed
  cases ht with
  | single =>
    obtain ⟨e, he, ht⟩ := hmembers.sound t (List.mem_singleton_self t)
    refine (decides_check_references h hg hd (hM e he) hs ht (by simp) _).mono (by simp) ?_
    rw [← hmembers.forall_iff hT, List.forall_mem_singleton, ht.forall_iff hT]
  | several _ hlookup =>
    have hinit := le_trans h.initial hg.le
    have ht := TypeTable.lookup_eq hlookup
    have hnominal {m : TypeId} {e : DeclId} (hm : T.Refers m e) : m ≠ t := by
      rintro rfl
      cases (hm.lookup hT).symm.trans ht
    have hplan : plan w s t T = .ok (.all (members.map (.pair s ·))) T := by
      rw [plan_apply (reserved_le_of_nominal hinit (hs.lookup hT))
        (reserved_le_of_view TypeData.intersectionMembers? (by decide) hinit
          (by rw [ht]; rfl)) (h.not_isAliasReference hT hd hs)
        (by rintro ⟨_, _, hlookup', -⟩; cases ht.symm.trans hlookup'), hs.lookup hT, ht]
      rfl
    refine decides_check (hnominal hs) (by simp) (decides_rules ⟨_, T, hplan, .refl hT, ?_⟩)
    dsimp only
    rw [Plan.eval_all, allM_map]
    simp only [Goal.eval_pair]
    refine (Decides.allM (Q := fun m => ∀ e, T.Refers m e → w.Below T₀ d e) members hT
      fun m hm T₁ hg₁ => ?_).mono le_rfl (hmembers.forall_iff hT)
    obtain ⟨e, he, hrefers⟩ := hmembers.sound m hm
    rw [hrefers.forall_iff hT]
    refine decides_check_references h (hg.trans hg₁) hd (hM e he) (hs.of_le hg₁.le)
      (hrefers.of_le hg₁.le) ?_ room
    simpa using hnominal hrefers

/-- Being above an intersection is being above a member. -/
theorem decides_meet_check (hd : d ∈ D) (ht : T.Refers t d) (hs : T.Meets s members)
    (room levels : Nat) :
    Decides (check w (room + 2) s t) T [] (levels + 2) (members.length + 1)
      (∃ e, M e ∧ w.Below T₀ e d) := by
  have hT := hg.wellFormed
  cases hs with
  | single =>
    obtain ⟨e, he, hs⟩ := hmembers.sound s (List.mem_singleton_self s)
    refine (decides_check_references h hg (hM e he) hd hs ht (by simp) _).mono (by simp) ?_
    rw [← hmembers.exists_iff hT]
    simp only [List.mem_singleton, exists_eq_left, hs.exists_iff hT]
  | several _ hlookup =>
    have hinit := le_trans h.initial hg.le
    have hs := TypeTable.lookup_eq hlookup
    have hnominal {m : TypeId} {e : DeclId} (hm : T.Refers m e) : m ≠ s := by
      rintro rfl
      cases (hm.lookup hT).symm.trans hs
    have hplan : plan w s t T = .ok (.any (members.map ((·, t)))) T := by
      rw [plan_apply (reserved_le_of_view TypeData.intersectionMembers? (by decide) hinit
          (by rw [hs]; rfl)) (reserved_le_of_nominal hinit (ht.lookup hT))
        (by rintro ⟨_, _, hlookup', -⟩; cases hs.symm.trans hlookup')
        (h.not_isAliasReference hT hd ht), hs, ht.lookup hT]
      rfl
    refine decides_check (hnominal ht).symm (by simp) (decides_rules ⟨_, T, hplan, .refl hT, ?_⟩)
    dsimp only
    rw [Plan.eval, anyM_map]
    refine (Decides.anyM (Q := fun m => ∃ e, T.Refers m e ∧ w.Below T₀ e d) members hT
      fun m hm T₁ hg₁ => ?_).mono le_rfl (hmembers.exists_iff hT)
    obtain ⟨e, he, hrefers⟩ := hmembers.sound m hm
    rw [hrefers.exists_iff hT]
    refine decides_check_references h (hg.trans hg₁) (hM e he) hd (hrefers.of_le hg₁.le)
      (ht.of_le hg₁.le) ?_ room
    simpa using hnominal hrefers

end Meet

end Subtyping

/-! ### The subtype relation -/

namespace World.NominalFragment

open Subtyping

variable {w : World} {env : Environment} {T₀ T : TypeTable} {D : Set DeclId} {s t : TypeId}
  {d e : DeclId} {members : List TypeId} {M : DeclId → Prop}

/-- Between references the subtype relation is the order of declarations. -/
theorem yields_isSubtype (h : w.NominalFragment T₀ D) (henv : env.ReplacesNothing)
    (hg : T₀.GrowsTo T) (hd : d ∈ D) (he : e ∈ D) (hs : T.Refers s d) (ht : T.Refers t e) :
    TypeM.Yields (w.isSubtype env s t) T fun _ b => b = true ↔ w.Below T₀ d e :=
  Subtyping.yields_isSubtype henv
    (decides_check_references h hg hd he hs ht (by simp) _) (by decide)

/-- A reference is below an intersection of few references if it is below all of them. -/
theorem yields_isSubtype_meet (h : w.NominalFragment T₀ D) (henv : env.ReplacesNothing)
    (hg : T₀.GrowsTo T) (hM : ∀ e, M e → e ∈ D) (hmembers : T.Lists members M)
    (hfew : members.length < supertypeLimit) (hd : d ∈ D) (hs : T.Refers s d)
    (ht : T.Meets t members) :
    TypeM.Yields (w.isSubtype env s t) T fun _ b => b = true ↔ ∀ e, M e → w.Below T₀ d e :=
  Subtyping.yields_isSubtype henv (decides_check_meet h hg hM hmembers hd hs ht _ _)
    (Nat.le_trans hfew (by decide))

/-- An intersection of few references is below a reference if one of them is. -/
theorem yields_meet_isSubtype (h : w.NominalFragment T₀ D) (henv : env.ReplacesNothing)
    (hg : T₀.GrowsTo T) (hM : ∀ e, M e → e ∈ D) (hmembers : T.Lists members M)
    (hfew : members.length < supertypeLimit) (hd : d ∈ D) (ht : T.Refers t d)
    (hs : T.Meets s members) :
    TypeM.Yields (w.isSubtype env s t) T fun _ b => b = true ↔ ∃ e, M e ∧ w.Below T₀ e d :=
  Subtyping.yields_isSubtype henv (decides_meet_check h hg hM hmembers hd ht hs _ _)
    (Nat.le_trans hfew (by decide))

end World.NominalFragment

end ScriptTyping
