import ScriptTyping.Proofs.Hierarchy.Closure
import ScriptTyping.Proofs.Lattice.Simplification
import ScriptTyping.Proofs.Substitution.Composition

/-!
# Super types of an instantiated reference

Where every clause is a reference with all its arguments, over the type parameters of the classifier
that it belongs to, the hierarchy above a generic reference has one shape for all arguments.  One
step up from a reference and then instantiating is instantiating and then one step up: the arguments
that the step passes on are a composite of two substitutions.

Different super types may become one by instantiating.  The walk over the instantiated super types
then meets at once what the walk over the generic ones meets in several rounds, and the rounds in
which nothing new comes up make no difference to the order.

## Main definitions

* `World.FullyApplied` — a reference to a class or interface with an argument for each parameter.
* `World.Parametric` — clauses are such references over the parameters of their classifier.
* `World.Shallow` — no substitution on the way up reaches its depth limit.

## Main results

* `World.Parametric.map_directSupertypes` — one step up commutes with instantiating.
* `World.supertypes_instantiate` — so does the walk, up to repetitions.
-/

namespace ScriptTyping

/-! ### Lists without their repetitions -/

section EraseDups

variable (l m : List TypeId)

theorem addNew_eraseDups (t : TypeId) : World.addNew l.eraseDups t = (l ++ [t]).eraseDups := by
  rw [eraseDups_concat, World.addNew]
  simp only [List.contains_iff_mem, List.mem_eraseDups]

theorem foldl_addNew_eraseDups : m.foldl World.addNew l.eraseDups = (l ++ m).eraseDups := by
  induction m generalizing l with
  | nil => rw [List.foldl_nil, List.append_nil]
  | cons t m ih =>
    rw [List.foldl_cons, addNew_eraseDups, ih, List.append_assoc, List.singleton_append]

/-- Repetitions in front may be left out first. -/
theorem eraseDups_eraseDups_append : (l.eraseDups ++ m).eraseDups = (l ++ m).eraseDups := by
  rw [← foldl_addNew_eraseDups, eraseDups_of_nodup (nodup_eraseDups l), foldl_addNew_eraseDups]

end EraseDups

/-! ### Arguments of a reference -/

namespace Substitution

variable {T T' : TypeTable} {s : Substitution} {params : List DeclId} {args args' : List TypeId}
  {d : DeclId} {t u : TypeId}

/-- Related arguments stand for related replacements. -/
theorem rel_get?_ofArgs {R : TypeId → TypeId → Prop} (params : List DeclId)
    (h : List.Forall₂ R args args') (d : DeclId) :
    Option.Rel R ((ofArgs params args).get? d) ((ofArgs params args').get? d) := by
  suffices hfold : ∀ s s' : Substitution, (∀ d, Option.Rel R (s.get? d) (s'.get? d)) →
      Option.Rel R (((params.zip args).foldl (fun s pair => s.insert pair.1 pair.2) s).get? d)
        (((params.zip args').foldl (fun s pair => s.insert pair.1 pair.2) s').get? d) from
    hfold {} {} fun _ => .none
  induction h generalizing params with
  | nil => exact fun s s' h => by simpa using h d
  | cons ha _ ih =>
    cases params with
    | nil => exact fun s s' h => by simpa using h d
    | cons param params =>
      refine fun s s' h => ih params _ _ fun d => ?_
      rw [get?_insert, get?_insert]
      split
      · exact .some ha
      · exact h d

/-- With as many arguments as type parameters, each type parameter is replaced. -/
theorem isSome_get?_ofArgs (hlength : args.length = params.length) (hd : d ∈ params) :
    ((ofArgs params args).get? d).isSome = true := by
  suffices hfold : ∀ s : Substitution, d ∈ params ∨ (s.get? d).isSome = true →
      (((params.zip args).foldl (fun s pair => s.insert pair.1 pair.2) s).get? d).isSome = true from
    hfold {} (.inl hd)
  clear hd
  induction params generalizing args with
  | nil => exact fun s h => by simpa using h
  | cons param params ih =>
    obtain ⟨arg, args, rfl⟩ := List.exists_cons_of_length_eq_add_one hlength
    refine fun s h => ih (Nat.succ.inj hlength) _ ?_
    rw [get?_insert]
    by_cases hd : d = param
    · simp [hd]
    · rw [if_neg hd]
      exact h.imp_left fun hmem => (List.mem_cons.mp hmem).resolve_left hd

/-- Instantiating a reference gives a reference to the same declaration, with the arguments that
come out. -/
theorem handles_instantiate (hT : T.WellFormed) (hs : s.Within T)
    (hintrinsic : t.isIntrinsic = false) (ht : T.handles[TypeData.nominal d args]? = some t)
    (h : s.instantiate t T = .ok u T') :
    ∃ args', T'.handles[TypeData.nominal d args']? = some u ∧ List.Forall₂ (fun a a' =>
      TypeM.Recalls (s.traversal.apply (RecursionProfile.substitution.maxDepth - 1) a) T' a')
        args args' := by
  have hlookup : T.lookup t = .nominal d args := TypeTable.lookup_eq (hT.handles_sound _ _ ht)
  have hHas : T.Has t := TypeTable.has_of_lookup_ne (by simp [hlookup])
  have hargs : T.HasAll args := by simpa [hlookup, TypeData.parts] using hT.hasAll_parts t
  have hsucc : s.traversal.run t =
      s.traversal.apply (RecursionProfile.substitution.maxDepth - 1 + 1) t := rfl
  rw [instantiate_eq_run s hT hHas le_rfl, hsucc, Traversal.apply_succ,
    if_neg (by simp [hintrinsic])] at h
  change s.traversal.visit _ t (T.lookup t) T = _ at h
  rw [hlookup, Traversal.visit_of_not_site (by simp) (by simp)] at h
  obtain ⟨data', T₁, hrebuild, h⟩ := TypeM.bind_eq_ok.mp h
  obtain ⟨args', T₂, hrun, hdata⟩ := TypeM.bind_eq_ok.mp hrebuild
  obtain ⟨rfl, rfl⟩ := TypeM.pure_eq_ok.mp hdata
  obtain ⟨hg, hall, -⟩ := TypeM.Stable.mapM_recalls args hT (fun a ha T₃ hg =>
    (Traversal.stable_apply _ hg.wellFormed (hs.traversal.of_le hg.le)
      ((hargs a ha).of_le hg.le)).mono fun _ _ _ _ => trivial) args' T₂ hrun
  refine ⟨args', ?_⟩
  split at h
  · rename_i hsame
    obtain ⟨rfl, rfl⟩ := TypeM.pure_eq_ok.mp h
    exact ⟨hsame ▸ hg.le.handles _ _ ht, hall⟩
  · have hstored : EStateM.Result.ok (T₂.intern _).1 (T₂.intern _).2 = .ok u T' := h
    injection hstored with hu hT'
    subst hu hT'
    exact ⟨TypeTable.handles_intern T₂ _,
      hall.imp fun _ _ h => h.of_le (TypeTable.le_intern T₂ _)⟩

end Substitution

/-- A reference without type arguments mentions nothing. -/
theorem TypeTable.Refers.not_mentions {T : TypeTable} {t : TypeId} {d e : DeclId}
    (hT : T.WellFormed) (h : T.Refers t d) : ¬T.Mentions t e := by
  rintro ⟨s, hs, hmentions⟩
  obtain rfl := List.mem_singleton.mp (hs.mem (List.mem_singleton_self t) (by simp [h.lookup hT,
    TypeData.parts]))
  rw [h.lookup hT] at hmentions
  rcases hmentions with hmentions | hmentions <;> cases hmentions

/-! ### Fully applied references -/

namespace World

variable {w : World} {T F : TypeTable} {σ : Substitution} {decl : DeclId} {info : Declaration}
  {args args' above above' : List TypeId} {s t : TypeId}

/-- The type is the reference to a class or interface with an argument for each of its type
parameters. -/
def FullyApplied (w : World) (T : TypeTable) (t : TypeId) : Prop :=
  ∃ decl args info, T.handles[TypeData.nominal decl args]? = some t ∧ w.decl? decl = some info ∧
    info.kind.hasClauses = true ∧ args.length = info.typeParams.length

theorem FullyApplied.of_le (hle : T ≤ F) (h : w.FullyApplied T t) : w.FullyApplied F t := by
  obtain ⟨decl, args, info, ht, hrest⟩ := h
  exact ⟨decl, args, info, hle.handles _ _ ht, hrest⟩

/-- The clauses of classes and interfaces name fully applied references, in which only type
parameters of the classifier stand.  `Object` is one without type parameters. -/
structure Parametric (w : World) (T : TypeTable) : Prop where
  clauses : ∀ d info, w.decl? d = some info → info.kind.hasClauses = true → ∀ t ∈ info.clauses,
    w.FullyApplied T t ∧ ∀ v, T.Mentions t v → v ∈ info.typeParams
  object : ∃ info, w.decl? w.builtins.object = some info ∧ info.kind.hasClauses = true ∧
    info.typeParams = []
  objectType : T.Refers w.objectType w.builtins.object

theorem Within.clauses (hw : w.Within T) (hdecl : w.decl? decl = some info) :
    T.HasAll info.clauses := fun c hc => by
  rcases List.mem_append.mp hc with hc | hc
  · exact hw.superType hdecl (Option.mem_toList.mp hc)
  · exact hw.interfaces hdecl c hc

/-- `Object`, where it stands directly above a class or interface. -/
def rootAbove (w : World) (decl : DeclId) (info : Declaration) : List TypeId :=
  if info.superType.isNone && decl != w.builtins.object then [w.objectType] else []

theorem mem_rootAbove (h : t ∈ w.rootAbove decl info) : t = w.objectType := by
  rw [rootAbove] at h
  split at h
  · exact List.mem_singleton.mp h
  · cases h

theorem clauseSupertypes_eq (w : World) (decl : DeclId) (info : Declaration)
    (args : List TypeId) : w.clauseSupertypes decl info args =
      (· ++ w.rootAbove decl info) <$>
        info.clauses.mapM (Substitution.ofArgs info.typeParams args).instantiate := by
  simp [clauseSupertypes, rootAbove, Declaration.clauses, List.mapM_append]

/-- What stands directly above a reference to a class or interface. -/
theorem recalls_directSupertypes (hF : F.WellFormed) (hw : w.Within F)
    (ht : F.handles[TypeData.nominal decl args]? = some t) (hdecl : w.decl? decl = some info)
    (hkind : info.kind.hasClauses = true)
    (habove : TypeM.Recalls (w.directSupertypes t) F above) :
    ∃ named, above = named ++ w.rootAbove decl info ∧ List.Forall₂ (fun c s =>
      TypeM.Recalls ((Substitution.ofArgs info.typeParams args).instantiate c) F s)
        info.clauses named := by
  have hlookup : F.lookup t = .nominal decl args := TypeTable.lookup_eq (hF.handles_sound _ _ ht)
  have hargs : F.HasAll args := by simpa [hlookup, TypeData.parts] using hF.hasAll_parts t
  have hread : TypeM.lookup t F = .ok (.nominal decl args) F := hlookup ▸ rfl
  have hrun : w.clauseSupertypes decl info args F = .ok above F := by
    rw [← habove.run, directSupertypes, TypeM.bind_of_ok hread]
    dsimp only
    rw [hdecl]
    dsimp only
    cases hk : info.kind <;> rw [hk] at hkind <;> first | rfl | cases hkind
  rw [clauseSupertypes_eq, map_eq_pure_bind] at hrun
  obtain ⟨named, F', hnamed, hpure⟩ := TypeM.bind_eq_ok.mp hrun
  obtain ⟨rfl, rfl⟩ := TypeM.pure_eq_ok.mp hpure
  refine ⟨named, rfl, (TypeM.Stable.mapM_recalls _ hF (fun c hc T' hg => ?_) named F' hnamed).2.1⟩
  exact (Substitution.stable_instantiate hg.wellFormed
    ((Substitution.within_ofArgs _ hargs).of_le hg.le) ((hw.clauses hdecl c hc).of_le hg.le)).mono
      fun _ _ _ _ => trivial

/-- The arguments that a step up passes on are a composite: those of the reference, and then the
instantiation. -/
theorem composes_ofArgs (hF : F.WellFormed) (hσ : σ.Within F) (hthis : σ.thisType = none)
    (hargs : F.HasAll args) (hargs' : F.HasAll args')
    (hlength : args.length = info.typeParams.length)
    (hnests : ∀ a ∈ args, F.NestsWithin (RecursionProfile.substitution.maxDepth - 1) a)
    (hall : List.Forall₂ (fun a a' => TypeM.Recalls
      (σ.traversal.apply (RecursionProfile.substitution.maxDepth - 1) a) F a') args args') :
    (Substitution.ofArgs info.typeParams args').Composes (.ofArgs info.typeParams args) σ F
      (· ∈ info.typeParams) where
  within := ⟨Substitution.within_ofArgs _ hargs', Substitution.within_ofArgs _ hargs, hσ⟩
  thisType := ⟨Substitution.thisType_ofArgs _ _, Substitution.thisType_ofArgs _ _, hthis⟩
  mapped d a _ ha := by
    have hmem : a ∈ args := (List.of_mem_zip (Substitution.mem_zip_of_get?_ofArgs ha)).2
    have hrel := Substitution.rel_get?_ofArgs info.typeParams hall d
    rw [ha] at hrel
    generalize (Substitution.ofArgs info.typeParams args').get? d = o at hrel
    cases hrel with
    | some hb =>
      -- As an argument it has one level less to spare than on its own.
      have hdeep := Traversal.coincide_of_nestsWithin (r := σ.traversal) rfl hF (hargs a hmem)
        (hnests a hmem) (Nat.sub_le _ 1)
      refine ⟨_, rfl, fun F' hle => ?_⟩
      rw [σ.instantiate_eq_run hF (hargs a hmem) hle]
      exact (hdeep.eq hle).symm.trans (hb F' hle)
  unmapped d hd hnone := by
    have hsome := Substitution.isSome_get?_ofArgs hlength hd
    rw [hnone] at hsome
    cases hsome

theorem isIntrinsic_reference (hindex : T.Indexed) (hg : T.GrowsTo F)
    (ht : F.handles[TypeData.nominal decl args]? = some t) : t.isIntrinsic = false :=
  hindex.isIntrinsic_of_le hg.le (by
    rw [TypeTable.lookup_eq (hg.wellFormed.handles_sound _ _ ht)]
    rfl)

theorem hasAll_args (hF : F.WellFormed) (ht : F.handles[TypeData.nominal decl args]? = some t) :
    F.HasAll args := by
  have hparts := hF.hasAll_parts t
  rwa [TypeTable.lookup_eq (hF.handles_sound _ _ ht)] at hparts

/-- What stands directly above a fully applied reference is one. -/
theorem Parametric.fullyApplied_of_above (h : w.Parametric T) (hindex : T.Indexed)
    (hw : w.Within T) (hg : T.GrowsTo F) (ht : w.FullyApplied F t)
    (habove : TypeM.Recalls (w.directSupertypes t) F above) :
    ∀ s ∈ above, w.FullyApplied F s := by
  obtain ⟨decl, args, info, ht, hdecl, hkind, hlength⟩ := ht
  obtain ⟨named, rfl, hnamed⟩ :=
    recalls_directSupertypes hg.wellFormed (hw.of_le hg.le) ht hdecl hkind habove
  intro s hs
  rcases List.mem_append.mp hs with hs | hs
  · obtain ⟨c, hc, hrecalls⟩ := TypeM.exists_of_mem_of_forall₂ hnamed.flip hs
    obtain ⟨e, cargs, einfo, hclause, hedecl, hekind, helength⟩ :=
      (h.clauses decl info hdecl hkind c hc).1.of_le hg.le
    obtain ⟨cargs', hs', hall⟩ := Substitution.handles_instantiate hg.wellFormed
      (Substitution.within_ofArgs _ (hasAll_args hg.wellFormed ht))
      (isIntrinsic_reference hindex hg hclause) hclause (hrecalls F le_rfl)
    exact ⟨e, cargs', einfo, hs', hedecl, hekind, hall.length_eq.symm.trans helength⟩
  · obtain ⟨info, hdecl, hkind, hparams⟩ := h.object
    rw [mem_rootAbove hs]
    exact ⟨_, [], info, h.objectType.of_le hg.le, hdecl, hkind, by rw [hparams]; rfl⟩

private theorem eq_map_of_forall₂ {R S : TypeId → TypeId → Prop} {g : TypeId → TypeId}
    {l m n : List TypeId} (hR : List.Forall₂ R l m) (hS : List.Forall₂ S l n)
    (h : ∀ a ∈ l, ∀ b ∈ m, ∀ c, R a b → S a c → c = g b) : n = m.map g := by
  induction hR generalizing n with
  | nil =>
    cases hS
    rfl
  | @cons a b l m hab _ ih =>
    obtain _ | ⟨hac, hS⟩ := hS
    rw [List.map_cons, h a (List.mem_cons_self ..) b (List.mem_cons_self ..) _ hab hac,
      ih hS fun a' ha' b' hb' => h a' (List.mem_cons_of_mem _ ha') b' (List.mem_cons_of_mem _ hb')]

/-- Instantiating a reference and then going one step up leads to what stands directly above the
reference, instantiated. -/
theorem Parametric.map_directSupertypes {g : TypeId → TypeId} (h : w.Parametric T)
    (hT : T.WellFormed) (hindex : T.Indexed) (hw : w.Within T) (hg : T.GrowsTo F)
    (hσ : σ.Within F) (hthis : σ.thisType = none)
    (ht : F.handles[TypeData.nominal decl args]? = some t) (hdecl : w.decl? decl = some info)
    (hkind : info.kind.hasClauses = true) (hlength : args.length = info.typeParams.length)
    (hnests : ∀ s ∈ t :: above, F.NestsWithin RecursionProfile.substitution.maxDepth s)
    (hclauses : ∀ c ∈ info.clauses, F.NestsWithin RecursionProfile.substitution.maxDepth c)
    (habove : TypeM.Recalls (w.directSupertypes t) F above)
    (hinstantiate : ∀ s ∈ t :: above, TypeM.Recalls (σ.instantiate s) F (g s))
    (habove' : TypeM.Recalls (w.directSupertypes (g t)) F above') : above' = above.map g := by
  have hF := hg.wellFormed
  have hwF := hw.of_le hg.le
  obtain ⟨hnestst, hnests⟩ := List.forall_mem_cons.mp hnests
  obtain ⟨hinstantiatet, hinstantiate⟩ := List.forall_mem_cons.mp hinstantiate
  have hintrinsic := isIntrinsic_reference hindex hg ht
  obtain ⟨args', ht', hargs⟩ :=
    Substitution.handles_instantiate hF hσ hintrinsic ht (hinstantiatet F le_rfl)
  obtain ⟨named, rfl, hnamed⟩ := recalls_directSupertypes hF hwF ht hdecl hkind habove
  obtain ⟨named', rfl, hnamed'⟩ := recalls_directSupertypes hF hwF ht' hdecl hkind habove'
  have hnestsargs : ∀ a ∈ args, F.NestsWithin (RecursionProfile.substitution.maxDepth - 1) a := by
    have hparts := hnestst.parts hintrinsic
    rwa [TypeTable.lookup_eq (hF.handles_sound _ _ ht)] at hparts
  have hcomposes := composes_ofArgs hF hσ hthis (hasAll_args hF ht) (hasAll_args hF ht') hlength
    hnestsargs hargs
  rw [List.map_append]
  congr 1
  · refine eq_map_of_forall₂ hnamed hnamed' fun c hc s hs s' hs₁ hs₂ => ?_
    obtain ⟨hreference, hmentions⟩ := h.clauses decl info hdecl hkind c hc
    have hcT : T.Has c := hw.clauses hdecl c hc
    exact (hcomposes.eq hT hindex hg hcT hmentions
      ((TypeTable.nestsWithin_iff_of_le hT hg.le hcT).mp (hclauses c hc))
      (hnests s (List.mem_append_left _ hs)) hs₁
      (hinstantiate s (List.mem_append_left _ hs)) hs₂).symm
  · have hroot : ∀ s ∈ w.rootAbove decl info, g s = id s := fun s hs => by
      have hs' := hinstantiate s (List.mem_append_right _ hs)
      obtain rfl := mem_rootAbove hs
      have hobject := h.objectType.of_le hg.le
      exact hs'.unique (Substitution.recalls_instantiate hF (hobject.has hF)
        (fun d hd => absurd hd (hobject.not_mentions hF)) (.inl hthis))
    rw [List.map_congr_left hroot, List.map_id]

/-! ### The walk -/

section Walk

variable {visited queue visited' queue' all : List TypeId} {D : TypeId → List TypeId}
  {g : TypeId → TypeId}

/-- The types that wait after a round for the type `t`. -/
def waitingAfter (visited : List TypeId) (t : TypeId) (queue above : List TypeId) : List TypeId :=
  (above.foldl addNew (visited ++ t :: queue)).drop (visited.length + 1)

theorem supertypesFrom_cons (w : World) (rounds : Nat) (visited : List TypeId) (t : TypeId)
    (queue : List TypeId) : w.supertypesFrom (rounds + 1) visited (t :: queue) =
      if visited.length + queue.length + 1 < supertypeLimit then do
        let above ← w.directSupertypes t
        w.supertypesFrom rounds (visited ++ [t]) (waitingAfter visited t queue above)
      else pure (visited ++ t :: queue) := rfl

/-- A round appends what it has met for the first time. -/
theorem append_waitingAfter (hnodup : (visited ++ t :: queue).Nodup) (above : List TypeId) :
    visited ++ [t] ++ waitingAfter visited t queue above =
      (visited ++ t :: queue ++ above).eraseDups := by
  have hseen := foldl_addNew_eraseDups (visited ++ t :: queue) above
  rw [eraseDups_of_nodup hnodup] at hseen
  obtain ⟨new, hfold, -⟩ := foldl_addNew above (visited ++ t :: queue)
  have hsplit : visited ++ t :: queue ++ new = visited ++ [t] ++ (queue ++ new) := by simp
  rw [← hseen, waitingAfter, hfold, hsplit, List.drop_left' (by simp)]

/-- The walk keeps what it has met, in order. -/
theorem initial_of_supertypesFrom (w : World) (rounds : Nat) : ∀ {T T' : TypeTable}
    {visited queue all : List TypeId}, w.supertypesFrom rounds visited queue T = .ok all T' →
    (visited ++ queue).Nodup → visited ++ queue <+: all := by
  induction rounds with
  | zero =>
    intro T T' visited queue all h _
    obtain ⟨rfl, -⟩ := TypeM.pure_eq_ok.mp h
    exact List.prefix_refl _
  | succ rounds ih =>
    intro T T' visited queue all h hnodup
    cases queue with
    | nil =>
      obtain ⟨rfl, -⟩ := TypeM.pure_eq_ok.mp h
      rw [List.append_nil]
    | cons t queue =>
      rw [supertypesFrom_cons] at h
      split at h
      · obtain ⟨above, T₁, -, h⟩ := TypeM.bind_eq_ok.mp h
        have hmet := append_waitingAfter hnodup above
        have hinitial := ih h (hmet ▸ nodup_eraseDups _)
        rw [hmet, List.eraseDups_append, eraseDups_of_nodup hnodup] at hinitial
        exact (List.prefix_append _ _).trans hinitial
      · obtain ⟨rfl, -⟩ := TypeM.pure_eq_ok.mp h
        exact List.prefix_refl _

/-- In the middle of two walks, of which the first goes up by `D`: what the second has visited and
what it has met are the values of what the first has. -/
structure Mirrors (D : TypeId → List TypeId) (g : TypeId → TypeId)
    (visited queue visited' queue' : List TypeId) : Prop where
  nodup : (visited ++ queue).Nodup
  closed : ∀ t ∈ visited, ∀ s ∈ D t, s ∈ visited ++ queue
  done : visited' = (visited.map g).eraseDups
  met : visited' ++ queue' = ((visited ++ queue).map g).eraseDups

theorem mirrors_start (D : TypeId → List TypeId) (g : TypeId → TypeId) (t : TypeId) :
    Mirrors D g [] [t] [] [g t] where
  nodup := List.nodup_singleton t
  closed := nofun
  done := rfl
  met := rfl

theorem Mirrors.length_le (h : Mirrors D g visited queue visited' queue') :
    visited'.length + queue'.length ≤ visited.length + queue.length := by
  have hlength := length_eraseDups_le ((visited ++ queue).map g)
  rwa [← h.met, List.length_append, List.length_map, List.length_append] at hlength

variable (h : Mirrors D g visited (t :: queue) visited' queue')

include h

/-- What a round of the first walk does to the invariant, whatever the second one does. -/
private theorem Mirrors.round :
    (visited ++ [t] ++ waitingAfter visited t queue (D t)).Nodup ∧
    (∀ u ∈ visited ++ [t], ∀ s ∈ D u,
      s ∈ visited ++ [t] ++ waitingAfter visited t queue (D t)) ∧
    ((visited ++ [t] ++ waitingAfter visited t queue (D t)).map g).eraseDups =
      ((visited ++ t :: queue).map g ++ (D t).map g).eraseDups := by
  rw [append_waitingAfter h.nodup, eraseDups_map_eraseDups, List.map_append]
  refine ⟨nodup_eraseDups _, fun u hu s hs => ?_, rfl⟩
  rw [List.mem_eraseDups, List.mem_append]
  rcases List.mem_append.mp hu with hu | hu
  · exact .inl (h.closed u hu s hs)
  · exact .inr (List.mem_singleton.mp hu ▸ hs)

/-- The second walk has visited the value: with a visited type of the same value, the values of what
stands above were met. -/
theorem Mirrors.skip (hvalue : g t ∈ visited')
    (hsame : ∀ v ∈ visited, g v = g t → (D v).map g = (D t).map g) :
    Mirrors D g (visited ++ [t]) (waitingAfter visited t queue (D t)) visited' queue' := by
  obtain ⟨hnodup, hclosed, hvalues⟩ := h.round
  refine ⟨hnodup, hclosed, ?_, ?_⟩
  · rw [List.map_append, eraseDups_append_of_subset, h.done]
    exact fun s hs => List.mem_eraseDups.mp (h.done ▸ List.mem_singleton.mp hs ▸ hvalue)
  · obtain ⟨v, hv, hvt⟩ := List.mem_map.mp (List.mem_eraseDups.mp (h.done ▸ hvalue))
    rw [h.met, hvalues, eraseDups_append_of_subset]
    rw [← hsame v hv hvt]
    exact fun s hs => List.map_subset g (h.closed v hv) hs

/-- The value is new to the second walk: it comes next there. -/
theorem Mirrors.advance (hvalue : g t ∉ visited') : ∃ rest, queue' = g t :: rest ∧
    Mirrors D g (visited ++ [t]) (waitingAfter visited t queue (D t)) (visited' ++ [g t])
      (waitingAfter visited' (g t) rest ((D t).map g)) := by
  obtain ⟨hnodup, hclosed, hvalues⟩ := h.round
  have hnext : (visited.map g ++ [g t]).eraseDups = visited' ++ [g t] := by
    rw [← addNew_eraseDups, ← h.done, addNew, if_neg (by simpa using hvalue)]
  have hmet := h.met
  rw [List.append_cons, List.map_append, List.map_append, List.map_singleton,
    List.eraseDups_append, hnext, List.append_assoc, List.append_cancel_left_eq] at hmet
  obtain ⟨rest, rfl⟩ : ∃ rest, queue' = g t :: rest := ⟨_, hmet⟩
  refine ⟨rest, rfl, hnodup, hclosed, by rw [List.map_append, List.map_singleton, hnext], ?_⟩
  rw [append_waitingAfter (h.met ▸ nodup_eraseDups _), hvalues, h.met, eraseDups_eraseDups_append]

end Walk

/-- Where one step up commutes with a function, the walk over the values meets the values of what
the walk over the arguments meets. -/
private theorem recalls_supertypesFrom_map {D : TypeId → List TypeId} {g : TypeId → TypeId}
    {all : List TypeId} (hD : ∀ t ∈ all, TypeM.Recalls (w.directSupertypes t) F (D t))
    (hmap : ∀ t ∈ all, TypeM.Recalls (w.directSupertypes (g t)) F ((D t).map g))
    (hlimit : all.length < supertypeLimit) (rounds : Nat) :
    ∀ {visited queue visited' queue' : List TypeId} {rounds' : Nat},
      Mirrors D g visited queue visited' queue' →
      w.supertypesFrom rounds visited queue F = .ok all F →
      supertypeLimit ≤ visited.length + rounds → supertypeLimit ≤ visited'.length + rounds' →
      TypeM.Recalls (w.supertypesFrom rounds' visited' queue') F (all.map g).eraseDups := by
  induction rounds with
  | zero =>
    intro visited queue visited' queue' rounds' h hrun hrounds _
    obtain ⟨rfl, -⟩ := TypeM.pure_eq_ok.mp hrun
    rw [List.length_append] at hlimit
    omega
  | succ rounds ih =>
    intro visited queue visited' queue' rounds' h hrun hrounds hrounds'
    cases queue with
    | nil =>
      obtain ⟨rfl, -⟩ := TypeM.pure_eq_ok.mp hrun
      have hmet := h.met
      rw [List.append_nil, ← h.done, List.append_right_eq_self] at hmet
      rw [hmet, ← h.done]
      cases rounds' with
      | zero => rw [supertypesFrom, List.append_nil]; exact .pure _
      | succ rounds' => exact .pure _
    | cons t queue =>
      have hinitial := initial_of_supertypesFrom w _ hrun h.nodup
      have ht : t ∈ all := hinitial.subset (List.mem_append_right _ (List.mem_cons_self ..))
      have hlength := hinitial.length_le
      have hlength' := h.length_le
      rw [List.length_append, List.length_cons] at hlength
      rw [List.length_cons] at hlength'
      rw [supertypesFrom_cons, if_pos (by omega), TypeM.bind_of_ok (hD t ht).run] at hrun
      have hrounds₁ : supertypeLimit ≤ (visited ++ [t]).length + rounds := by
        rw [List.length_append, List.length_singleton]
        omega
      by_cases hvalue : g t ∈ visited'
      · refine ih (h.skip hvalue fun v hv hvt => ?_) hrun hrounds₁ hrounds'
        have hv' := hmap v (hinitial.subset (List.mem_append_left _ hv))
        rw [hvt] at hv'
        exact hv'.unique (hmap t ht)
      · obtain ⟨rest, rfl, hnext⟩ := h.advance hvalue
        rw [List.length_cons] at hlength'
        obtain ⟨rounds', rfl⟩ : ∃ k, rounds' = k + 1 := ⟨rounds' - 1, by omega⟩
        rw [supertypesFrom_cons, if_pos (by omega)]
        refine (hmap t ht).bind (ih hnext hrun hrounds₁ ?_)
        rw [List.length_append, List.length_singleton]
        omega

/-! ### Everything above an instantiated reference -/

variable {own : List TypeId} {x y : TypeId} {all : List TypeId}

/-- No substitution on the way up, and none in what was met there, reaches its depth limit. -/
structure Shallow (w : World) (T : TypeTable) (all : List TypeId) : Prop where
  types : ∀ s ∈ all, T.NestsWithin RecursionProfile.substitution.maxDepth s
  clauses : ∀ s ∈ all, ∀ decl args info, T.lookup s = .nominal decl args →
    w.decl? decl = some info → ∀ c ∈ info.clauses,
      T.NestsWithin RecursionProfile.substitution.maxDepth c

/-- Everything above a fully applied reference is one. -/
theorem Parametric.fullyApplied_of_isClosure (h : w.Parametric T) (hindex : T.Indexed)
    (hw : w.Within T) (hg : T.GrowsTo F) (hclosure : w.IsClosure F x all)
    (hx : w.FullyApplied F x) : ∀ s ∈ all, w.FullyApplied F s := by
  intro s hs
  have hreach := hclosure.sound s hs
  clear hs
  induction hreach with
  | refl => exact hx
  | tail _ hstep ih =>
    obtain ⟨above, habove, hmem⟩ := hstep
    exact h.fullyApplied_of_above hindex hw hg ih habove _ hmem

/-- The reference with its own type parameters as arguments becomes the reference with the
arguments. -/
theorem instantiate_own (hindex : T.Indexed) (hg : T.GrowsTo F) (hσ : σ.Within F)
    (hx : F.handles[TypeData.nominal decl own]? = some x)
    (hy : F.handles[TypeData.nominal decl args]? = some y)
    (hown : List.Forall₂ (fun p v => T.Has v ∧ T.lookup v = .typeVariable p) info.typeParams own)
    (hlength : args.length = info.typeParams.length)
    (hsub : ∀ pair ∈ info.typeParams.zip args, σ.get? pair.1 = some pair.2)
    (hrecalls : TypeM.Recalls (σ.instantiate x) F t) : t = y := by
  obtain ⟨args', ht, hargs⟩ := Substitution.handles_instantiate hg.wellFormed hσ
    (isIntrinsic_reference hindex hg hx) hx hrecalls.run
  suffices heq : args' = args by
    rw [heq, hy] at ht
    exact (Option.some.inj ht).symm
  clear hx hy ht hrecalls
  generalize info.typeParams = params at hown hlength hsub
  induction hown generalizing args args' with
  | nil =>
    cases hargs
    exact (List.eq_nil_of_length_eq_zero hlength).symm
  | @cons p v params own hv _ ih =>
    obtain _ | ⟨ha, hargs⟩ := hargs
    obtain ⟨arg, args, rfl⟩ := List.exists_cons_of_length_eq_add_one hlength
    have hintrinsic : v.isIntrinsic = false := by
      rw [← hindex.isIntrinsic_lookup hv.1, hv.2]
      rfl
    have hvalue := ha.unique (Traversal.recalls_variable rfl hintrinsic (hv.1.of_le hg.le)
      ((TypeTable.lookup_of_le hg.le hv.1).trans hv.2))
    have harg : σ.traversal.resolve p = some arg := hsub _ (List.mem_cons_self ..)
    rw [harg, Option.getD_some] at hvalue
    rw [hvalue, ih _ hargs (Nat.succ.inj hlength) fun pair hpair =>
      hsub pair (List.mem_cons_of_mem _ hpair)]

theorem Shallow.of_le (hT : T.WellFormed) (hw : w.Within T) (hle : T ≤ F) (hall : T.HasAll all)
    (h : w.Shallow T all) : w.Shallow F all where
  types s hs := (h.types s hs).of_le hT hle (hall s hs)
  clauses s hs decl args info hlookup hdecl c hc := by
    rw [TypeTable.lookup_of_le hle (hall s hs)] at hlookup
    exact (h.clauses s hs decl args info hlookup hdecl c hc).of_le hT hle (hw.clauses hdecl c hc)

/-- The walk above an instantiated type, once all steps up are stored. -/
theorem Parametric.recalls_supertypes_map {g : TypeId → TypeId} (h : w.Parametric T)
    (hT : T.WellFormed) (hindex : T.Indexed) (hw : w.Within T) (hg : T.GrowsTo F)
    (hσ : σ.Within F) (hthis : σ.thisType = none) (hx : w.FullyApplied F x)
    (hclosure : w.IsClosure F x all) (hrecalls : TypeM.Recalls (w.supertypes x) F all)
    (hlimit : all.length < supertypeLimit) (hshallow : w.Shallow F all)
    (himages : ∀ s ∈ all, TypeM.Recalls (σ.instantiate s) F (g s))
    (hsteps : ∀ s ∈ all, ∃ above, TypeM.Recalls (w.directSupertypes (g s)) F above) :
    TypeM.Recalls (w.supertypes (g x)) F (all.map g).eraseDups := by
  choose! D hD hclosed using hclosure.closed hlimit
  refine recalls_supertypesFrom_map hD (fun t ht => ?_) hlimit supertypeLimit (mirrors_start D g x)
    hrecalls.run (by simp) (by simp)
  obtain ⟨above, habove⟩ := hsteps t ht
  obtain ⟨decl, args, info, hhandle, hdecl, hkind, hlength⟩ :=
    h.fullyApplied_of_isClosure hindex hw hg hclosure hx t ht
  have hlookup := TypeTable.lookup_eq (hg.wellFormed.handles_sound _ _ hhandle)
  have hmem : ∀ s ∈ t :: D t, s ∈ all := List.forall_mem_cons.mpr ⟨ht, hclosed t ht⟩
  have heq := h.map_directSupertypes hT hindex hw hg hσ hthis hhandle hdecl hkind hlength
    (fun s hs => hshallow.types s (hmem s hs)) (hshallow.clauses t ht decl args info hlookup hdecl)
    (hD t ht) (fun s hs => himages s (hmem s hs)) habove
  exact heq ▸ habove

/-- Super types commute with instantiating.  Let `x` be the reference to a class or interface with
its type parameters as arguments and `y` the one with other arguments, which stand for the type
parameters consistently.  If what stands above `x` was not cut off, and no substitution reaches its
depth limit, then what stands above `y` is what stands above `x` with each element instantiated, in
the same order and without later repetitions. -/
theorem supertypes_instantiate (h : w.Parametric T) (hT : T.WellFormed) (hindex : T.Indexed)
    (hw : w.Within T) (hdecl : w.decl? decl = some info) (hkind : info.kind.hasClauses = true)
    (hx : T.lookup x = .nominal decl own)
    (hown : List.Forall₂ (fun p v => T.lookup v = .typeVariable p) info.typeParams own)
    (hy : T.lookup y = .nominal decl args) (hlength : args.length = info.typeParams.length)
    (hsub : ∀ pair ∈ info.typeParams.zip args,
      (Substitution.ofArgs info.typeParams args).get? pair.1 = some pair.2) :
    ∃ all T₁, w.supertypes x T = .ok all T₁ ∧
      (all.length < supertypeLimit → w.Shallow T₁ all → ∃ images T₂ T₃,
        all.mapM (Substitution.ofArgs info.typeParams args).instantiate T₁ = .ok images T₂ ∧
        w.supertypes y T₂ = .ok images.eraseDups T₃) := by
  have hhandle {t : TypeId} {as : List TypeId} (ht : T.lookup t = .nominal decl as) :
      T.handles[TypeData.nominal decl as]? = some t :=
    ht ▸ hindex.handles_lookup (by rw [ht]; rfl)
  have hHas {t : TypeId} {data : TypeData} (ht : T.lookup t = data) (hdata : data ≠ .unknown) :
      T.Has t := TypeTable.has_of_lookup_ne (ht.trans_ne hdata)
  have hσ : (Substitution.ofArgs info.typeParams args).Within T :=
    Substitution.within_ofArgs _ (hasAll_args hT (hhandle hy))
  obtain ⟨all, T₁, hrun, hg₁, hclosure, hrecalls⟩ :=
    yields_supertypes_isClosure hT hw (hHas hx nofun)
  refine ⟨all, T₁, hrun, fun hlimit hshallow => ?_⟩
  -- The images, then what stands above `y`, then a table that has stored every step up.
  have hstable : ∀ s ∈ all, ∀ T', T₁.GrowsTo T' → TypeM.Stable
      ((Substitution.ofArgs info.typeParams args).instantiate s) T' TypeTable.Has :=
    fun s hs T' hg => Substitution.stable_instantiate hg.wellFormed
      (hσ.of_le (hg₁.trans hg).le) ((hclosure.has s hs).of_le hg.le)
  obtain ⟨T₂, g, himages, hg₂, hg⟩ := TypeM.exists_recalls hg₁.wellFormed all
    (Substitution.total_instantiate _) fun s hs T' hg =>
      (hstable s hs T' hg).mono fun _ _ _ _ => trivial
  have hg₁₂ := hg₁.trans hg₂
  obtain ⟨above, T₃, hrun', hg₃, -, hrecalls'⟩ := yields_supertypes_isClosure hg₁₂.wellFormed
    (hw.of_le hg₁₂.le) ((hHas hy nofun).of_le hg₁₂.le)
  have hg₁₃ := hg₁₂.trans hg₃
  obtain ⟨F, E, -, hg₄, hE⟩ := TypeM.exists_recalls hg₁₃.wellFormed (all.map g)
    w.total_directSupertypes fun u hu T' hg' => by
      obtain ⟨s, hs, rfl⟩ := List.mem_map.mp hu
      have hu : T₂.Has (g s) := (hstable s hs T₂ hg₂ _ _ (hg s hs).run).2.1
      exact (stable_directSupertypes hg'.wellFormed (hw.of_le (hg₁₃.trans hg').le)
        (hu.of_le (hg₃.trans hg').le)).mono fun _ _ _ _ => trivial
  have hg₂F := hg₃.trans hg₄
  have hg₁F := hg₂.trans hg₂F
  have hgF := hg₁.trans hg₁F
  have hy' : g x = y := instantiate_own hindex hgF (hσ.of_le hgF.le)
    (hgF.le.handles _ _ (hhandle hx)) (hgF.le.handles _ _ (hhandle hy))
    (hown.imp fun p v hv => ⟨hHas hv nofun, hv⟩) hlength hsub
    ((hg x hclosure.mem).of_le hg₂F.le)
  have hwalk := h.recalls_supertypes_map hT hindex hw hgF (hσ.of_le hgF.le)
    (Substitution.thisType_ofArgs _ _)
    ⟨decl, own, info, hgF.le.handles _ _ (hhandle hx), hdecl, hkind, hown.length_eq.symm⟩
    (hclosure.of_le hg₁F.le) (hrecalls.of_le hg₁F.le) hlimit
    (hshallow.of_le hg₁.wellFormed (hw.of_le hg₁.le) hg₁F.le hclosure.has)
    (fun s hs => (hg s hs).of_le hg₂F.le) fun s hs => ⟨_, hE (g s) (List.mem_map_of_mem hs)⟩
  rw [hy'] at hwalk
  rw [(hrecalls'.of_le hg₄.le).unique hwalk] at hrun'
  exact ⟨all.map g, T₂, T₃, himages, hrun'⟩

/-! ### Two super types that become one -/

/-- Two type parameters, an interface with both that extends the interface `⟨5⟩` once with each of
them, and `Object`. -/
def mergingWorld : World where
  declarations := ⟨#[
    { kind := .typeVariable, name := .none },
    { kind := .typeVariable, name := .none },
    { kind := .interfaceType, name := .none, typeParams := [⟨1⟩, ⟨2⟩], superType := some ⟨24⟩,
      interfaces := [⟨25⟩] },
    { kind := .classType, name := .none },
    { kind := .interfaceType, name := .none, typeParams := [⟨6⟩] },
    { kind := .typeVariable, name := .none }]⟩
  builtins := { (default : Builtins) with object := ⟨4⟩, objectType := ⟨18⟩ }
  fuel := 0

/-- The pairs, the two super types, and the pair of `number` and `number`. -/
def mergingTable : TypeTable :=
  ((pairTable.store (.nominal ⟨5⟩ [⟨16⟩])).store (.nominal ⟨5⟩ [⟨17⟩])).store
    (.nominal ⟨3⟩ [.number, .number])

private theorem mergingTable_sound : mergingTable.WellFormed ∧ mergingTable.Indexed := by
  rw [mergingTable]
  iterate 3 refine TypeTable.sound_store ?_ (by decide) (by decide)
  exact pairTable_sound

private theorem clauses_mergingWorld {d : DeclId} (hd : mergingWorld.decl? d = some info) :
    ∀ t ∈ info.clauses, info.typeParams = [⟨1⟩, ⟨2⟩] ∧ (t = ⟨24⟩ ∨ t = ⟨25⟩) := by
  have hclauses : ∀ info ∈ mergingWorld.declarations.entries.toList, ∀ t ∈ info.clauses,
      info.typeParams = [⟨1⟩, ⟨2⟩] ∧ (t = ⟨24⟩ ∨ t = ⟨25⟩) := by decide
  refine hclauses info ?_
  obtain ⟨index⟩ := d
  cases index with
  | zero => cases hd
  | succ i => exact Array.mem_toList_iff.mpr (Array.mem_of_getElem? hd)

private theorem parametric_mergingWorld : mergingWorld.Parametric mergingTable := by
  obtain ⟨hT, hindex⟩ := mergingTable_sound
  have hreference {t v : TypeId} {p : DeclId} (ht : mergingTable.lookup t = .nominal ⟨5⟩ [v])
      (hv : mergingTable.lookup v = .typeVariable p) :
      mergingWorld.FullyApplied mergingTable t ∧ ∀ d, mergingTable.Mentions t d → d = p := by
    refine ⟨⟨⟨5⟩, [v], _, ht ▸ hindex.handles_lookup (by rw [ht]; rfl), rfl, rfl, rfl⟩, ?_⟩
    rintro d ⟨s, hs, hd⟩
    have hmem : s ∈ [t, v] := hs.mem (List.mem_cons_self ..) (by simp [ht, hv, TypeData.parts])
    simp only [List.mem_cons, List.not_mem_nil, or_false] at hmem
    rcases hmem with rfl | rfl
    · rw [ht] at hd
      rcases hd with hd | hd <;> cases hd
    · rw [hv] at hd
      rcases hd with hd | hd <;> cases hd
      rfl
  have hobject : mergingTable.lookup ⟨18⟩ = .nominal ⟨4⟩ [] := rfl
  refine ⟨fun d info hd _ t ht => ?_, ⟨_, rfl, rfl, rfl⟩, ?_⟩
  · obtain ⟨hparams, hclause⟩ := clauses_mergingWorld hd t ht
    rw [hparams]
    rcases hclause with rfl | rfl
    · exact (hreference rfl rfl).imp_right fun h v hv => by simp [h v hv]
    · exact (hreference rfl rfl).imp_right fun h v hv => by simp [h v hv]
  · change mergingTable.handles[TypeData.nominal ⟨4⟩ []]? = some ⟨18⟩
    exact hobject ▸ hindex.handles_lookup rfl

/-- The super types of the pair of type parameters are `⟨5⟩` with the first and with the second one.
For `number` and `number` they are one. -/
theorem supertypes_instantiate_merging :
    mergingWorld.supertypes ⟨20⟩ mergingTable = .ok [⟨20⟩, ⟨24⟩, ⟨25⟩, ⟨18⟩] mergingTable ∧
    [⟨20⟩, ⟨24⟩, ⟨25⟩, ⟨18⟩].mapM
        (Substitution.ofArgs [⟨1⟩, ⟨2⟩] [.number, .number]).instantiate mergingTable =
      .ok [⟨26⟩, ⟨27⟩, ⟨27⟩, ⟨18⟩] (mergingTable.store (.nominal ⟨5⟩ [.number])) ∧
    ∃ T, mergingWorld.supertypes ⟨26⟩ (mergingTable.store (.nominal ⟨5⟩ [.number])) =
      .ok [⟨26⟩, ⟨27⟩, ⟨18⟩] T := by
  obtain ⟨hT, hindex⟩ := mergingTable_sound
  have hrun : mergingWorld.supertypes ⟨20⟩ mergingTable =
      .ok [⟨20⟩, ⟨24⟩, ⟨25⟩, ⟨18⟩] mergingTable := rfl
  have hnew : mergingTable.handles[TypeData.nominal ⟨5⟩ [.number]]? = none :=
    hT.handles_eq_none (by decide)
  have hpair : mergingTable.lookup ⟨26⟩ = .nominal ⟨3⟩ [.number, .number] := rfl
  have himages : [⟨20⟩, ⟨24⟩, ⟨25⟩, ⟨18⟩].mapM
      (Substitution.ofArgs [⟨1⟩, ⟨2⟩] [.number, .number]).instantiate mergingTable =
        .ok [⟨26⟩, ⟨27⟩, ⟨27⟩, ⟨18⟩] (mergingTable.store (.nominal ⟨5⟩ [.number])) := by
    have hstored : mergingTable.handles[TypeData.nominal ⟨3⟩ [.number, .number]]? = some ⟨26⟩ :=
      hpair ▸ hindex.handles_lookup rfl
    have hagain := TypeTable.handles_store mergingTable (.nominal ⟨5⟩ [.number])
    simp only [List.mapM_cons, List.mapM_nil]
    refine TypeM.bind_eq_ok.mpr ⟨⟨26⟩, _, TypeM.intern_of_handle hstored, ?_⟩
    refine TypeM.bind_eq_ok.mpr ⟨[⟨27⟩, ⟨27⟩, ⟨18⟩], _, ?_, rfl⟩
    refine TypeM.bind_eq_ok.mpr ⟨⟨27⟩, _, TypeM.intern_of_new hnew, ?_⟩
    refine TypeM.bind_eq_ok.mpr ⟨[⟨27⟩, ⟨18⟩], _, ?_, rfl⟩
    exact TypeM.bind_eq_ok.mpr ⟨⟨27⟩, _, TypeM.intern_of_handle hagain, rfl⟩
  have hdecl : mergingWorld.decl? ⟨3⟩ = some
    { kind := .interfaceType, name := .none, typeParams := [⟨1⟩, ⟨2⟩], superType := some ⟨24⟩,
      interfaces := [⟨25⟩] } := rfl
  obtain ⟨all, T₁, hrun₁, h⟩ := supertypes_instantiate (x := ⟨20⟩) parametric_mergingWorld hT
    hindex (World.within_of_entries (by decide) (by decide)) hdecl rfl rfl
    (.cons rfl (.cons rfl .nil)) hpair rfl (by decide)
  obtain ⟨rfl, rfl⟩ := EStateM.Result.ok.inj (hrun.symm.trans hrun₁)
  have hshallow : mergingWorld.Shallow mergingTable [⟨20⟩, ⟨24⟩, ⟨25⟩, ⟨18⟩] := by
    refine ⟨by decide, fun s hs decl args info hlookup hdecl c hc => ?_⟩
    rcases (clauses_mergingWorld hdecl c hc).2 with rfl | rfl <;> decide
  obtain ⟨images, T₂, T₃, himages₁, h⟩ := h (by decide) hshallow
  obtain ⟨rfl, rfl⟩ := EStateM.Result.ok.inj (himages.symm.trans himages₁)
  exact ⟨hrun, himages, T₃, h⟩

end World

end ScriptTyping
