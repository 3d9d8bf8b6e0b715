import ScriptTyping.Proofs.Substitution.Layer
import ScriptTyping.Proofs.Termination.Circle

/-!
# Spans and substitution

Substituting inside a type what the assignment of spans promises does not enlarge its span.  So the
type that an alias with arguments expands to has the span of the reference, with one expansion less,
and what an environment makes of a type has the span of the type.

## Main results

* `World.Spans.instantiate`, `World.Spans.substitute` — the two substitutions.
* `World.Spans.resolveAlias` — the expansion of aliases.
-/

namespace ScriptTyping

theorem Reading.Within.of_le {r : Reading} {T T' : TypeTable} (hle : T ≤ T') (hr : r.Within T) :
    r.Within T' := fun env henv => (hr env henv).of_le hle

namespace World

variable {w : World} {r : Reading} {T T' : TypeTable} {s t u : TypeId} {d : DeclId}
  {spans : DeclId → Option Nat} {n rounds : Nat} {params : List DeclId} {args : List TypeId}

/-! ### What a span says -/

/-- The span of a type that is no reference to an alias is about its layer. -/
theorem Spans.of_aliasBody?_eq_none (h : w.Spans r T spans n rounds t)
    (hnone : w.aliasBody? (T.lookup t) = none) :
    ∃ m, n = m + 1 ∧ (∀ d, T.lookup t = .typeVariable d → ∃ k ≤ n, spans d = some k) ∧
      (∀ s ∈ r.passed (T.lookup t), w.Spans r T spans m expansionLimit s) ∧
      ∀ s, w.StandsFor r T t s → w.Spans r T noSpans m expansionLimit s := by
  cases h with
  | @layer _ m _ _ _ _ hvariable hparts hstands => exact ⟨m, rfl, hvariable, hparts, hstands⟩
  | aliased _ hbody => cases hnone.symm.trans hbody
  | last _ halias =>
    rw [hnone] at halias
    cases halias

theorem Spans.variable (h : w.Spans r T spans n rounds t) (hd : T.lookup t = .typeVariable d) :
    ∃ k ≤ n, spans d = some k := by
  obtain ⟨_, -, hvariable, -, -⟩ := h.of_aliasBody?_eq_none (by rw [hd]; rfl)
  exact hvariable d hd

theorem Spans.passed (h : w.Spans r T spans n rounds t) (hs : s ∈ r.passed (T.lookup t)) :
    ∃ m, n = m + 1 ∧ w.Spans r T spans m expansionLimit s := by
  have hnone : w.aliasBody? (T.lookup t) = none := by
    refine Option.eq_none_iff_forall_ne_some.mpr fun body hbody => ?_
    obtain ⟨decl, info, hlookup, -, -⟩ := exists_of_aliasBody? hbody
    rw [hlookup] at hs
    cases r <;> cases hs
  obtain ⟨m, hm, -, hparts, -⟩ := h.of_aliasBody?_eq_none hnone
  exact ⟨m, hm, hparts s hs⟩

theorem Spans.stands (h : w.Spans r T spans n rounds t) (hs : w.StandsFor r T t s) :
    ∃ m, n = m + 1 ∧ w.Spans r T noSpans m expansionLimit s := by
  have hnone : w.aliasBody? (T.lookup t) = none := by
    rcases hs.lookup with ⟨d, hd⟩ | hd <;> rw [hd] <;> rfl
  obtain ⟨m, hm, -, -, hstands⟩ := h.of_aliasBody?_eq_none hnone
  exact ⟨m, hm, hstands s hs⟩

/-- A span does not get larger when nothing is put in place of type variables. -/
theorem Spans.ground (h : w.Spans r T spans n rounds t) : w.Spans r T noSpans n rounds t := by
  induction h with
  | layer ht halias _ _ hstands ihparts _ =>
    exact .layer ht halias (fun d _ => ⟨0, by omega, rfl⟩) ihparts hstands
  | aliased ht hbody haliased _ _ iharguments => exact .aliased ht hbody haliased iharguments
  | last ht halias => exact .last ht halias

/-- A type that is left as it is keeps its span. -/
theorem Spans.unchanged {T₁ T₂ : TypeTable} (hr : r.Within T) (h : w.Spans r T spans n rounds t)
    (hg : T.GrowsTo T₁) (hrun : (pure t : TypeM TypeId) T₁ = .ok u T₂) :
    w.Spans r T₂ noSpans n rounds u := by
  obtain ⟨rfl, rfl⟩ := TypeM.pure_eq_ok.mp hrun
  exact (h.of_le hg.le hr).ground

/-- A type variable that replaces a type variable has the span of that one. -/
theorem Spans.of_follows (hr : r.Within T) (h : w.Spans r T noSpans n rounds t)
    (ht : T.lookup t = .typeVariable d) (hchain : r.Follows T t s) {e : DeclId}
    (hs : T.lookup s = .typeVariable e) : w.Spans r T noSpans n rounds s := by
  obtain ⟨m, rfl, -, -, hstands⟩ := h.of_aliasBody?_eq_none (by rw [ht]; rfl)
  refine .layer (hchain.has hr h.has) (by rw [hs]; rfl) (fun d _ => ⟨0, by omega, rfl⟩)
    (fun u hu => ?_) fun u hu => hstands u ?_
  · rw [hs] at hu
    cases r <;> cases hu
  · cases hu with
    | bound hasked hchain' hv => exact .bound hasked (hchain.trans hchain') hv
    | replacement _ hchain' hu => exact .replacement ht (hchain.trans hchain') hu
    | receiver _ hthis =>
      rw [hs] at hthis
      cases hthis

/-! ### One layer -/

/-- Other arguments do not change what an alias stands for. -/
theorem aliasBody?_of_args (w : World) (decl : DeclId) (args args' : List TypeId) :
    w.aliasBody? (.nominal decl args') =
      (w.aliasBody? (.nominal decl args)).map fun body => (body.1, args', body.2.2) := by
  simp only [aliasBody?]
  split
  · split <;> rfl
  · rfl

private theorem exists_mem_of_passed {R : TypeId → TypeId → Prop} {data data' : TypeData}
    (h : data.Alike R data') (hu : u ∈ r.passed data') : ∃ s ∈ r.passed data, R s u := by
  have hlist {ts us : List TypeId} (hR : List.Forall₂ R ts us) (hu : u ∈ us) : ∃ s ∈ ts, R s u :=
    TypeM.exists_of_mem_of_forall₂ hR.flip hu
  have hsingle {a b : TypeId} (hR : R a b) (hu : u ∈ [b]) : ∃ s ∈ [a], R s u := by
    rw [List.mem_singleton.mp hu]
    exact ⟨a, List.mem_singleton_self a, hR⟩
  cases h with
  | leaf hparts =>
    have hmem := Reading.mem_parts_of_passed hu
    rw [hparts] at hmem
    cases hmem
  | nominal | function | structural => cases r <;> cases hu
  | union hR =>
    cases r with
    | call | member => exact hlist hR hu
    | construct => cases hu
  | intersection hR => cases r <;> exact hlist hR hu
  | thisType hR =>
    cases r with
    | call | construct => exact hsingle hR hu
    | member => cases hu
  | @wildcard _ _ kind hR =>
    cases r with
    | call | construct =>
      cases kind with
      | upper => exact hsingle hR hu
      | lower => cases hu
    | member => cases hu
  | metaType hR =>
    cases r with
    | call | construct => cases hu
    | member => exact hsingle hR hu

/-- The argument that a new argument came from belongs to the same type parameter. -/
private theorem exists_mem_of_zip {R : TypeId → TypeId → Prop} {params : List DeclId} :
    ∀ {args args' : List TypeId}, List.Forall₂ R args args' → ∀ {pair : DeclId × TypeId},
      pair ∈ params.zip args' → ∃ a, (pair.1, a) ∈ params.zip args ∧ R a pair.2 := by
  induction params with
  | nil => exact fun _ _ h => by cases h
  | cons p params ih =>
    intro args args' hargs pair hpair
    cases hargs with
    | nil => cases hpair
    | cons ha hargs =>
      rcases List.mem_cons.mp hpair with rfl | hpair
      · exact ⟨_, List.mem_cons_self .., ha⟩
      · obtain ⟨a, hmem, hR⟩ := ih hargs hpair
        exact ⟨a, List.mem_cons_of_mem _ hmem, hR⟩

/-- A reference to an alias comes out as a reference to it, and no other layer does. -/
private theorem aliasBody?_of_alike {R : TypeId → TypeId → Prop} {data data' : TypeData}
    (w : World) (h : data.Alike R data') :
    (w.aliasBody? data = none ∧ w.aliasBody? data' = none) ∨
      ∃ params args args' aliased, w.aliasBody? data = some (params, args, aliased) ∧
        w.aliasBody? data' = some (params, args', aliased) ∧ List.Forall₂ R args args' := by
  cases h with
  | @nominal decl args args' hargs =>
    have hsame := w.aliasBody?_of_args decl args args'
    cases hbody : w.aliasBody? (.nominal decl args) with
    | none => exact .inl ⟨rfl, by rw [hsame, hbody]; rfl⟩
    | some body =>
      obtain ⟨params, args₀, aliased⟩ := body
      obtain ⟨_, _, hlookup, -, -⟩ := exists_of_aliasBody? hbody
      cases hlookup
      exact .inr ⟨params, args, args', aliased, rfl, by rw [hsame, hbody]; rfl, hargs⟩
  | leaf hparts =>
    cases hbody : w.aliasBody? data with
    | none => exact .inl ⟨rfl, rfl⟩
    | some body =>
      obtain ⟨params, args, aliased⟩ := body
      obtain ⟨decl, info, rfl, -, -⟩ := exists_of_aliasBody? hbody
      obtain rfl : args = [] := hparts
      exact .inr ⟨params, [], [], aliased, rfl, rfl, .nil⟩
  | _ => exact .inl ⟨rfl, rfl⟩

/-- A layer whose parts have the spans of the parts that they came from has the span of the layer
that it came from. -/
theorem Spans.of_alike {R : TypeId → TypeId → Prop} (hle : T ≤ T') (hr : r.Within T)
    (h : w.Spans r T spans n rounds t) (hu : T'.Has u)
    (halike : (T.lookup t).Alike R (T'.lookup u))
    (hvariable : ∀ d, T.lookup t ≠ .typeVariable d) (hthis : T.lookup t ≠ .thisType none)
    (hR : ∀ s v m, R s v → w.Spans r T spans m expansionLimit s →
      w.Spans r T' noSpans m expansionLimit v) :
    w.Spans r T' noSpans n rounds u := by
  have hstood (s : TypeId) : ¬w.StandsFor r T' u s := by
    intro hs
    generalize hdata : T.lookup t = data at halike
    rcases hs.lookup with ⟨d, hd⟩ | hd <;> rw [hd] at halike <;> cases halike
    · exact hvariable d hdata
    · exact hthis hdata
  obtain ⟨hnone, hnone'⟩ | ⟨params, args, args', aliased, hbody, hbody', hargs⟩ :=
    aliasBody?_of_alike w halike
  · obtain ⟨m, rfl, -, hparts, -⟩ := h.of_aliasBody?_eq_none hnone
    refine .layer hu hnone' (fun d _ => ⟨0, by omega, rfl⟩) (fun v hv => ?_)
      fun s hs => absurd hs (hstood s)
    obtain ⟨s, hs, hsv⟩ := exists_mem_of_passed halike hv
    exact hR s v m hsv (hparts s hs)
  · cases h with
    | layer _ halias => cases halias.symm.trans hbody
    | aliased _ hbody₀ haliased harguments =>
      cases hbody₀.symm.trans hbody
      refine .aliased hu hbody' (haliased.of_le hle hr) fun pair hpair k hk => ?_
      obtain ⟨a, hmem, ha⟩ := exists_mem_of_zip hargs hpair
      exact hR a pair.2 k ha (harguments (pair.1, a) hmem k hk)
    | last => exact .last hu (by rw [hbody']; rfl)

/-! ### Traversals -/

/-- What the traversal returns, `room` levels deep, has the span of what it was given. -/
def KeepsSpans (w : World) (r : Reading) (T : TypeTable) (spans : DeclId → Option Nat)
    (ρ : Traversal) (room : Nat) : Prop :=
  ∀ {n rounds : Nat} {t : TypeId} {T₁ : TypeTable} {u : TypeId} {T₂ : TypeTable},
    rounds ≤ expansionLimit → w.Spans r T spans n rounds t → T.GrowsTo T₁ →
    ρ.apply room t T₁ = .ok u T₂ → w.Spans r T₂ noSpans n rounds u

/-- It is enough to look at what is put in place of type variables and of an unbound `this`. -/
theorem keepsSpans_apply {ρ : Traversal} (hr : r.Within T) (hρ : ρ.Within T)
    (hstood : ∀ room, w.KeepsSpans r T spans ρ room → ∀ {n rounds t T₁ u T₂},
      rounds ≤ expansionLimit → w.Spans r T spans n rounds t → T.GrowsTo T₁ →
      ((∃ d, T.lookup t = .typeVariable d) ∨ T.lookup t = .thisType none) →
      ρ.visit room t (T.lookup t) T₁ = .ok u T₂ → w.Spans r T₂ noSpans n rounds u)
    (room : Nat) : w.KeepsSpans r T spans ρ room := by
  induction room with
  | zero => exact fun _ h hg hrun => h.unchanged hr hg hrun
  | succ room ih =>
    intro n rounds t T₁ u T₂ hrounds h hg hrun
    have ht := h.has.of_le hg.le
    have hsame := TypeTable.lookup_of_le hg.le h.has
    obtain ⟨hg₂, hu, -⟩ :=
      Traversal.stable_apply (room + 1) hg.wellFormed (hρ.of_le hg.le) ht u T₂ hrun
    by_cases hintrinsic : t.isIntrinsic = true
    · rw [Traversal.apply_succ, if_pos hintrinsic] at hrun
      exact h.unchanged hr hg hrun
    by_cases hleaf : (∃ d, T.lookup t = .typeVariable d) ∨ T.lookup t = .thisType none
    · rw [Traversal.apply_succ, if_neg hintrinsic] at hrun
      have hvisit : ρ.visit room t (T₁.lookup t) T₁ = .ok u T₂ := hrun
      rw [hsame] at hvisit
      exact hstood room ih hrounds h hg hleaf hvisit
    · have hvariable (d : DeclId) : T.lookup t ≠ .typeVariable d := fun hd => hleaf (.inl ⟨d, hd⟩)
      have hthis : T.lookup t ≠ .thisType none := fun hd => hleaf (.inr hd)
      have halike := Traversal.alike_of_apply hg.wellFormed (hρ.of_le hg.le) ht
        (Bool.eq_false_iff.mpr hintrinsic) (hsame ▸ hvariable) (hsame ▸ hthis) hrun
      rw [hsame] at halike
      exact h.of_alike (hg.trans hg₂).le hr hu halike hvariable hthis fun s v m hrecalls hs =>
        ih le_rfl hs (hg.trans hg₂) hrecalls.run

/-- Arguments with the spans of the assignment may be put in place of type parameters. -/
theorem Spans.instantiate (hT : T.WellFormed) (hr : r.Within T) (hargs : T.HasAll args)
    (h : w.Spans r T spans n rounds t) (hrounds : rounds ≤ expansionLimit)
    (hspans : ∀ pair ∈ params.zip args, ∀ k, spans pair.1 = some k →
      w.Spans r T noSpans k expansionLimit pair.2)
    (hrun : (Substitution.ofArgs params args).instantiate t T = .ok u T') :
    w.Spans r T' noSpans n rounds u := by
  rw [Substitution.instantiate_eq_run _ hT h.has le_rfl] at hrun
  refine keepsSpans_apply hr (Substitution.within_ofArgs params hargs).traversal
    (fun room _ n rounds t T₁ u T₂ hrounds h hg hleaf hvisit => ?_) _ hrounds h (.refl hT) hrun
  rcases hleaf with ⟨d, hd⟩ | hd <;> rw [hd] at hvisit
  · cases hresolve : (Substitution.ofArgs params args).get? d with
    | none =>
      simp only [Traversal.visit, Substitution.traversal, hresolve] at hvisit
      exact h.unchanged hr hg hvisit
    | some a =>
      simp only [Traversal.visit, Substitution.traversal, hresolve] at hvisit
      split at hvisit
      · exact h.unchanged hr hg hvisit
      obtain ⟨rfl, rfl⟩ := TypeM.pure_eq_ok.mp hvisit
      obtain ⟨k, hk, hspan⟩ := h.variable hd
      have ha := hspans (d, a) (Substitution.mem_zip_of_get?_ofArgs hresolve) k hspan
      exact (ha.of_le hg.le hr).mono hk hrounds
  · simp only [Traversal.visit, Substitution.traversal, Substitution.thisType_ofArgs] at hvisit
    exact h.unchanged hr hg hvisit

/-- What is bound to `this` in place of an unbound `this` has its span. -/
private theorem Spans.bindThis (hT : T.WellFormed) (hr : r.Within T)
    (h : w.Spans r T noSpans n expansionLimit s) (hrounds : rounds ≤ expansionLimit)
    (hrun : Traversal.bindThis s T = .ok u T') : w.Spans r T' noSpans (n + 1) rounds u := by
  rw [Traversal.bindThis] at hrun
  obtain ⟨data, T₁, hread, hrun⟩ := TypeM.bind_eq_ok.mp hrun
  obtain ⟨rfl, rfl⟩ := TypeM.pure_eq_ok.mp hread
  split at hrun
  · obtain ⟨rfl, rfl⟩ := TypeM.pure_eq_ok.mp hrun
    exact h.mono (by omega) hrounds
  have hparts : T.HasAll (TypeData.thisType (some s)).parts := h.has.hasAll
  have hintern : EStateM.Result.ok (T.intern (.thisType (some s))).1
    (T.intern (.thisType (some s))).2 = .ok u T' := hrun
  injection hintern with hu hT'
  subst hu hT'
  have hlookup := TypeTable.lookup_eq (TypeTable.lookup_intern hT hparts)
  refine .layer (TypeTable.has_intern hT hparts) (by rw [hlookup]; rfl)
    (fun d _ => ⟨0, by omega, rfl⟩) (fun v hv => ?_) fun v hv => ?_
  · rw [hlookup] at hv
    have hv : v = s := by
      cases r with
      | call | construct => exact List.mem_singleton.mp hv
      | member => cases hv
    rw [hv]
    exact h.of_le (TypeTable.le_intern T _) hr
  · rcases hv.lookup with ⟨d, hd⟩ | hd <;> cases hlookup.symm.trans hd

/-- What an environment makes of a type has the span of the type. -/
theorem Spans.substitute {env : Environment} (hT : T.WellFormed) (hr : r.Within T)
    (henv : r.env? = some env) (h : w.Spans r T noSpans n rounds t)
    (hrounds : rounds ≤ expansionLimit) (hrun : env.substitute t T = .ok u T') :
    w.Spans r T' noSpans n rounds u := by
  have hwithin := hr env henv
  rw [Environment.substitute_eq_run _ hT h.has le_rfl] at hrun
  refine keepsSpans_apply hr ⟨hwithin.substitution, hwithin.this⟩
    (fun room hkeeps n rounds t T₁ u T₂ hrounds h hg hleaf hvisit => ?_) _ hrounds h (.refl hT) hrun
  rcases hleaf with ⟨d, hd⟩ | hd <;> rw [hd] at hvisit
  · cases hresolve : env.substitution? d with
    | none =>
      simp only [Traversal.visit, Environment.traversal, hresolve] at hvisit
      exact h.unchanged hr hg hvisit
    | some s =>
      simp only [Traversal.visit, Environment.traversal, hresolve] at hvisit
      split at hvisit
      · exact h.unchanged hr hg hvisit
      have hchain : r.Follows T t s := .single ⟨env, d, henv, hd, hresolve⟩
      by_cases hs : ∃ e, T.lookup s = .typeVariable e
      · obtain ⟨e, he⟩ := hs
        exact hkeeps hrounds (h.of_follows hr hd hchain he) hg hvisit
      · obtain ⟨m, rfl, hm⟩ := h.stands (.replacement hd hchain (not_exists.mp hs))
        exact (hkeeps le_rfl hm hg hvisit).mono (by omega) hrounds
  · cases hthis : env.this? with
    | none =>
      simp only [Traversal.visit, Environment.traversal, hthis] at hvisit
      exact h.unchanged hr hg hvisit
    | some receiver =>
      simp only [Traversal.visit, Environment.traversal, hthis] at hvisit
      obtain ⟨m, rfl, hm⟩ := h.stands (.receiver henv hd hthis)
      exact (hm.of_le hg.le hr).bindThis hg.wellFormed (hr.of_le hg.le) hrounds hvisit

/-! ### Aliases -/

/-- An alias expands to its declared type with its arguments, and nothing else expands. -/
theorem expandAlias?_eq (w : World) (t : TypeId) :
    w.expandAlias? t = (do
      let data ← TypeM.lookup t
      (w.aliasBody? data).mapM fun body =>
        (Substitution.ofArgs body.1 body.2.1).instantiate body.2.2) := by
  rw [expandAlias?]
  refine bind_congr fun data => ?_
  cases data with
  | nominal decl args =>
    dsimp only [aliasBody?]
    cases w.decl? decl with
    | none => rfl
    | some info =>
      dsimp only
      cases info.kind <;> cases info.declaredType <;> rfl
  | _ => rfl

/-- What an alias expands to has the span of the reference, with one expansion less. -/
theorem Spans.expandAlias? (hT : T.WellFormed) (hr : r.Within T)
    (h : w.Spans r T noSpans n (rounds + 1) t) (hrounds : rounds ≤ expansionLimit)
    (hrun : w.expandAlias? t T = .ok (some s) T') : w.Spans r T' noSpans n rounds s := by
  rw [expandAlias?_eq] at hrun
  obtain ⟨data, T₁, hread, hrun⟩ := TypeM.bind_eq_ok.mp hrun
  obtain ⟨rfl, rfl⟩ := TypeM.pure_eq_ok.mp hread
  cases h with
  | layer _ halias =>
    rw [halias] at hrun
    cases hrun
  | aliased _ hbody haliased harguments =>
    rw [hbody, Option.mapM_some, map_eq_pure_bind] at hrun
    obtain ⟨u, T₁, hinstantiate, hsome⟩ := TypeM.bind_eq_ok.mp hrun
    obtain ⟨hu, rfl⟩ := TypeM.pure_eq_ok.mp hsome
    obtain rfl := Option.some.inj hu
    obtain ⟨_, _, hlookup, -, -⟩ := exists_of_aliasBody? hbody
    exact haliased.instantiate hT hr (hT.hasAll_of_lookup hlookup) hrounds harguments hinstantiate

/-- Expanded, a type has the span that it had. -/
theorem Spans.resolveAlias (hT : T.WellFormed) (hw : w.Within T) (hr : r.Within T)
    (h : w.Spans r T noSpans n expansionLimit t) (hrun : w.resolveAlias t T = .ok u T') :
    w.Spans r T' noSpans n 0 u := by
  suffices ∀ rounds ≤ expansionLimit, ∀ {T : TypeTable} {t : TypeId}, T.WellFormed → w.Within T →
      r.Within T → w.Spans r T noSpans n rounds t → w.resolveAliasFrom rounds t T = .ok u T' →
      w.Spans r T' noSpans n 0 u from this _ le_rfl hT hw hr h hrun
  intro rounds
  induction rounds with
  | zero =>
    intro _ T t _ _ _ h hrun
    obtain ⟨rfl, rfl⟩ := TypeM.pure_eq_ok.mp hrun
    exact h
  | succ rounds ih =>
    intro hrounds T t hT hw hr h hrun
    rw [resolveAliasFrom] at hrun
    obtain ⟨o, T₁, hexpand, hrun⟩ := TypeM.bind_eq_ok.mp hrun
    obtain ⟨hg, -, -⟩ := stable_expandAlias? hT hw h.has o T₁ hexpand
    cases o with
    | none =>
      obtain ⟨rfl, rfl⟩ := TypeM.pure_eq_ok.mp hrun
      exact (h.of_le hg.le hr).mono le_rfl (Nat.zero_le _)
    | some s =>
      exact ih (by omega) hg.wellFormed (hw.of_le hg.le) (hr.of_le hg.le)
        (h.expandAlias? hT hr (by omega) hexpand) hrun

end World

end ScriptTyping
