import ScriptTyping.Proofs.Environment.Receiver

/-!
# The references behind the type arguments of a receiver

A declaration may stand above a receiver through several references, with different type arguments.
Looking for the declaration finds the first reference.  The environment of the receiver goes by the
type parameter instead: the first argument that any of the references passes for it decides.  These
agree wherever the first reference passes an argument for the type parameter.  Where it passes too
few, the environment takes the argument from a later reference, and looking for the declaration
shows none.

Type parameters must belong to one declaration each and be listed once there.

## Main definitions

* `World.ListsApart` — no type parameter is listed twice.
* `World.firstArgument?` — the first argument for a type parameter among some types.
* `Environment.Binds` — what an environment has for a type parameter with an argument.

## Main results

* `World.yields_addSubstitutions_firstArgument?` — the first argument decides.
* `World.addSubstitutions_agrees` — the environment and the reference that is found.
-/

namespace ScriptTyping

/-- What the environment has for a type parameter: the argument, unless that is the type parameter
itself, and nothing without argument. -/
def Environment.Binds (env : Environment) (T : TypeTable) (param : DeclId) : Option TypeId → Prop
  | none => env.substitution? param = none
  | some arg => ∃ own, TypeM.Recalls (TypeM.typeVariable param) T own ∧
      env.substitution? param = if arg = own then none else some arg

/-- An argument that is not the type parameter itself replaces it. -/
theorem Environment.Binds.substitution? {env : Environment} {T : TypeTable} {param : DeclId}
    {arg : TypeId} (h : env.Binds T param (some arg)) (hT : T.WellFormed)
    (harg : T.lookup arg ≠ .typeVariable param) : env.substitution? param = some arg := by
  obtain ⟨own, hown, hvalue⟩ := h
  rw [hvalue, if_neg]
  rintro rfl
  have hrow := hT.handles_sound _ _ (TypeM.recalls_intern_iff.mp hown)
  exact harg (TypeTable.lookup_eq hrow)

/-- Of different type parameters, each is paired with the argument at its place. -/
theorem lookup_zip_of_nodup {params : List DeclId} {param : DeclId} (hparams : params.Nodup) :
    ∀ {i : Nat} (args : List TypeId), params[i]? = some param →
      (params.zip args).lookup param = args[i]? := by
  induction params with
  | nil => exact fun _ h => by cases h
  | cons first params ih =>
    intro i args hparam
    obtain ⟨hfirst, hparams⟩ := List.nodup_cons.mp hparams
    cases args with
    | nil => rfl
    | cons arg args =>
      rw [List.zip_cons_cons, lookup_cons_pair]
      cases i with
      | zero =>
        obtain rfl : first = param := Option.some.inj hparam
        rw [if_pos rfl, List.getElem?_cons_zero]
      | succ i =>
        rw [List.getElem?_cons_succ] at hparam ⊢
        have hne : param ≠ first := fun heq => hfirst (heq ▸ List.mem_of_getElem? hparam)
        rw [if_neg hne, ih hparams args hparam]

namespace World

variable {w : World} {T : TypeTable} {above : List TypeId} {receiver s : TypeId} {d param : DeclId}
  {i : Nat} {args : List TypeId} {info : Declaration}

/-- Every type parameter is listed by one declaration, and once. -/
structure ListsApart (w : World) : Prop where
  nodup : ∀ {d info}, w.decl? d = some info → info.typeParams.Nodup
  owner : ∀ {d d' info info' param}, w.decl? d = some info → w.decl? d' = some info' →
    param ∈ info.typeParams → param ∈ info'.typeParams → d = d'

/-- The argument that a reference to the declaration has at a place. -/
def argumentAt? (d : DeclId) (i : Nat) : TypeData → Option TypeId
  | .nominal decl args => if decl = d then args[i]? else none
  | _ => none

/-- The argument at a place of the first reference to the declaration that has so many. -/
def firstArgument? (T : TypeTable) (d : DeclId) (i : Nat) (types : List TypeId) : Option TypeId :=
  types.findSome? fun s => argumentAt? d i (T.lookup s)

theorem firstArgument?_of_le {T' : TypeTable} (hle : T ≤ T') (hall : T.HasAll above) :
    firstArgument? T' d i above = firstArgument? T d i above := by
  rw [firstArgument?, firstArgument?, ← List.head?_filterMap, ← List.head?_filterMap,
    List.filterMap_congr fun s hs => by rw [TypeTable.lookup_of_le hle (hall s hs)]]

/-! ### The pairs of a type parameter -/

theorem ListsApart.lookup_argumentPairs (h : w.ListsApart) (hd : w.decl? d = some info)
    (hparam : info.typeParams[i]? = some param) (data : TypeData) :
    (w.argumentPairs data).lookup param = argumentAt? d i data := by
  cases data with
  | nominal decl args =>
    simp only [argumentPairs, argumentAt?]
    by_cases hdecl : decl = d
    · subst hdecl
      rw [if_pos rfl, hd]
      exact lookup_zip_of_nodup (h.nodup hd) args hparam
    · rw [if_neg hdecl]
      cases hinfo : w.decl? decl with
      | none => rfl
      | some info' =>
        refine lookup_eq_none_of_notMem fun hmem => hdecl ?_
        obtain ⟨⟨_, arg⟩, hpair, rfl⟩ := List.mem_map.mp hmem
        exact h.owner hinfo hd (List.of_mem_zip hpair).1 (List.mem_of_getElem? hparam)
  | _ => rfl

/-- The first pair of a type parameter is that of the first argument for it. -/
theorem ListsApart.lookup_flatMap_argumentPairs (h : w.ListsApart) (hd : w.decl? d = some info)
    (hparam : info.typeParams[i]? = some param) (types : List TypeId) :
    (types.flatMap fun s => w.argumentPairs (T.lookup s)).lookup param =
      firstArgument? T d i types := by
  induction types with
  | nil => rfl
  | cons s types ih =>
    rw [List.flatMap_cons, List.lookup_append, h.lookup_argumentPairs hd hparam, ih,
      firstArgument?, firstArgument?, List.findSome?_cons]
    cases argumentAt? d i (T.lookup s) <;> rfl

/-- The environment of a receiver goes by the first argument for each type parameter. -/
theorem yields_addSubstitutions_firstArgument? (hT : T.WellFormed) (hw : w.Within T)
    (hreceiver : T.Has receiver) (happart : w.ListsApart) :
    TypeM.Yields (w.addSubstitutions .empty receiver) T fun T' env => ∃ above,
      w.IsClosure T' receiver above ∧ TypeM.Recalls (w.supertypes receiver) T' above ∧
      ∀ {d info i param}, w.decl? d = some info → info.typeParams[i]? = some param →
        env.Binds T' param (firstArgument? T' d i above) := by
  obtain ⟨bindings, T', hrun, hg, above, seen, hclosure, hrecalls, hrecorded⟩ :=
    yields_receiverBindings hT hw hreceiver
  refine ⟨Environment.empty.extend bindings, T', ?_, hg, above, hclosure, hrecalls,
    fun {d info i param} hd hparam => ?_⟩
  · rw [addSubstitutions_eq, map_eq_pure_bind]
    exact TypeM.bind_eq_ok.mpr ⟨bindings, T', hrun, rfl⟩
  have hvalue : (Environment.empty.extend bindings).substitution? param =
      bindings.lookup param := by
    rw [Environment.substitution?_extend param hrecorded.nodup]
    exact Option.or_none
  rw [← happart.lookup_flatMap_argumentPairs hd hparam]
  cases hlookup : (above.flatMap fun s => w.argumentPairs (T'.lookup s)).lookup param with
  | none => exact hvalue.trans (hrecorded.unmet param hlookup)
  | some arg =>
    obtain ⟨own, hown, harg⟩ := hrecorded.own param arg hlookup
    exact ⟨own, TypeM.recalls_intern hown, hvalue.trans harg⟩

/-! ### The reference that is found -/

/-- The reference to the declaration that a type is, with its arguments. -/
def reference? (T : TypeTable) (d : DeclId) (s : TypeId) : Option (TypeId × List TypeId) :=
  match T.lookup s with
  | .nominal decl args => if decl = d then some (s, args) else none
  | _ => none

/-- Once the super types are recalled, so is what is found among them. -/
theorem recalls_findInstantiation? (hall : T.HasAll above)
    (habove : TypeM.Recalls (w.supertypes receiver) T above) (d : DeclId) :
    TypeM.Recalls (w.findInstantiation? receiver d) T (above.findSome? (reference? T d)) := by
  intro T' hle
  refine TypeM.bind_eq_ok.mpr ⟨above, T', habove T' hle, ?_⟩
  have hsame : above.findSome? (reference? T' d) = above.findSome? (reference? T d) := by
    rw [← List.head?_filterMap, ← List.head?_filterMap, List.filterMap_congr fun s hs => ?_]
    rw [reference?, reference?, TypeTable.lookup_of_le hle (hall s hs)]
  exact congrArg (fun found => EStateM.Result.ok found T') hsame

/-- A type that is no reference to the declaration has no argument for it. -/
theorem argumentAt?_of_reference? (T : TypeTable) (d : DeclId) (i : Nat) (s : TypeId) :
    argumentAt? d i (T.lookup s) = (reference? T d s).bind fun found => found.2[i]? := by
  rw [reference?]
  cases T.lookup s with
  | nominal decl args =>
    simp only [argumentAt?]
    split <;> rfl
  | _ => rfl

theorem firstArgument?_of_find_none (h : above.findSome? (reference? T d) = none) :
    firstArgument? T d i above = none := by
  rw [List.findSome?_eq_none_iff] at h
  rw [firstArgument?, List.findSome?_eq_none_iff]
  intro s hs
  rw [argumentAt?_of_reference?, h s hs, Option.bind_none]

/-- If the first reference has so many arguments, it is the one that decides. -/
theorem firstArgument?_of_find_some (h : above.findSome? (reference? T d) = some (s, args))
    (hi : i < args.length) : firstArgument? T d i above = args[i]? := by
  obtain ⟨before, s', after, rfl, hs', hbefore⟩ := List.findSome?_eq_some_iff.mp h
  have hnone : before.findSome? (fun s => argumentAt? d i (T.lookup s)) = none :=
    firstArgument?_of_find_none (List.findSome?_eq_none_iff.mpr hbefore)
  rw [firstArgument?, List.findSome?_append, hnone, Option.none_or, List.findSome?_cons,
    argumentAt?_of_reference?, hs', Option.bind_some, List.getElem?_eq_getElem hi]

/-- The environment of a receiver, for each type parameter of each declaration.  If no reference to
the declaration is found above the receiver, nothing is replaced; if the reference that is found has
an argument at the place of the type parameter, this is the replacement, unless it is the type
parameter itself; and in every case the first reference with an argument at that place decides. -/
theorem addSubstitutions_agrees (hT : T.WellFormed) (hw : w.Within T)
    (hreceiver : T.Has receiver) (happart : w.ListsApart) :
    ∃ env T' above, w.addSubstitutions .empty receiver T = .ok env T' ∧ T.GrowsTo T' ∧
      TypeM.Recalls (w.supertypes receiver) T' above ∧
      ∀ {d info i param}, w.decl? d = some info → info.typeParams[i]? = some param →
        ∃ found, TypeM.Recalls (w.findInstantiation? receiver d) T' found ∧
          (found = none → env.Binds T' param none) ∧
          (∀ s args, found = some (s, args) → i < args.length → env.Binds T' param args[i]?) ∧
          env.Binds T' param (firstArgument? T' d i above) := by
  obtain ⟨env, T', hrun, hg, above, hclosure, hrecalls, hbinds⟩ :=
    yields_addSubstitutions_firstArgument? hT hw hreceiver happart
  refine ⟨env, T', above, hrun, hg, hrecalls, fun {d info i param} hd hparam => ?_⟩
  have hfirst := hbinds hd hparam
  refine ⟨_, recalls_findInstantiation? hclosure.has hrecalls d, fun hnone => ?_,
    fun s args hfound hi => ?_, hfirst⟩
  · exact firstArgument?_of_find_none hnone ▸ hfirst
  · exact firstArgument?_of_find_some hfound hi ▸ hfirst

/-! ### A declaration with two references -/

/-- Two type parameters, an interface with both of them, `Object`, and a class that implements the
interface twice. -/
def twofoldWorld : World where
  declarations := ⟨#[
    { kind := .typeVariable, name := .none },
    { kind := .typeVariable, name := .none },
    { kind := .interfaceType, name := .none, typeParams := [⟨1⟩, ⟨2⟩] },
    { kind := .classType, name := .none },
    { kind := .classType, name := .none, interfaces := [⟨18⟩, ⟨19⟩] }]⟩
  builtins := { (default : Builtins) with object := ⟨4⟩, objectType := ⟨17⟩ }
  fuel := 0

/-- The class, `Object`, and the interface with one and with two arguments. -/
def twofoldTable : TypeTable :=
  (((TypeTable.initial.store (.nominal ⟨5⟩ [])).store (.nominal ⟨4⟩ [])).store
    (.nominal ⟨3⟩ [.number])).store (.nominal ⟨3⟩ [.string, .boolean])

private theorem wellFormed_twofoldTable : twofoldTable.WellFormed := by
  rw [twofoldTable]
  iterate 4 refine TypeTable.wellFormed_store ?_ (by decide)
  exact TypeTable.wellFormed_initial

private theorem within_twofoldWorld : twofoldWorld.Within twofoldTable :=
  within_of_entries (by decide) (by decide)

/-- Only the interface lists type parameters. -/
private theorem decl?_twofoldWorld (hd : twofoldWorld.decl? d = some info) :
    info.typeParams = [] ∨ d = ⟨3⟩ ∧ info.typeParams = [⟨1⟩, ⟨2⟩] := by
  obtain ⟨_ | _ | _ | _ | _ | _ | index⟩ := d <;> cases hd
  · exact .inl rfl
  · exact .inl rfl
  · exact .inr ⟨rfl, rfl⟩
  · exact .inl rfl
  · exact .inl rfl

private theorem listsApart_twofoldWorld : twofoldWorld.ListsApart where
  nodup hd := by
    rcases decl?_twofoldWorld hd with h | ⟨-, h⟩ <;> rw [h] <;> decide
  owner hd hd' hparam hparam' := by
    rcases decl?_twofoldWorld hd with h | ⟨rfl, -⟩
    · rw [h] at hparam
      cases hparam
    rcases decl?_twofoldWorld hd' with h | ⟨rfl, -⟩
    · rw [h] at hparam'
      cases hparam'
    · rfl

private theorem recalls_supertypes_twofoldWorld :
    TypeM.Recalls (twofoldWorld.supertypes ⟨16⟩) twofoldTable [⟨16⟩, ⟨18⟩, ⟨19⟩, ⟨17⟩] :=
  (stable_supertypes wellFormed_twofoldTable within_twofoldWorld (by decide) _ twofoldTable rfl).2.2

/-- The first reference decides about the first type parameter, and the second reference about the
second one. -/
theorem addSubstitutions_agrees_twofold :
    twofoldWorld.findInstantiation? ⟨16⟩ ⟨3⟩ twofoldTable =
      .ok (some (⟨18⟩, [.number])) twofoldTable ∧
    ∃ env T', twofoldWorld.addSubstitutions .empty ⟨16⟩ twofoldTable = .ok env T' ∧
      env.substitution? ⟨1⟩ = some .number ∧ env.substitution? ⟨2⟩ = some .boolean := by
  have hfind := recalls_findInstantiation? (by decide) recalls_supertypes_twofoldWorld ⟨3⟩
  have hreceiver : twofoldTable.Has ⟨16⟩ := by decide
  obtain ⟨env, T', above, hrun, hg, hrecalls, h⟩ := addSubstitutions_agrees
    wellFormed_twofoldTable within_twofoldWorld hreceiver listsApart_twofoldWorld
  have hinterface : twofoldWorld.decl? ⟨3⟩ =
    some { kind := .interfaceType, name := .none, typeParams := [⟨1⟩, ⟨2⟩] } := rfl
  have hrow (t : TypeId) (ht : twofoldTable.Has t) : T'.lookup t = twofoldTable.lookup t :=
    TypeTable.lookup_of_le hg.le ht
  refine ⟨hfind.run, env, T', hrun, ?_, ?_⟩
  · obtain ⟨found, hfound, -, hbinds, -⟩ := h (i := 0) hinterface rfl
    obtain rfl := hfound.unique (hfind.of_le hg.le)
    exact (hbinds ⟨18⟩ [.number] rfl (by decide)).substitution? hg.wellFormed
      (by rw [hrow _ (by decide)]; decide)
  · obtain ⟨-, -, -, -, hbinds⟩ := h (i := 1) hinterface rfl
    obtain rfl := hrecalls.unique (recalls_supertypes_twofoldWorld.of_le hg.le)
    rw [firstArgument?_of_le hg.le (by decide)] at hbinds
    have hsecond : env.Binds T' ⟨2⟩ (some .boolean) := hbinds
    exact hsecond.substitution? hg.wellFormed (by rw [hrow _ (by decide)]; decide)

/-- The reference that is found does not decide alone.  Every type parameter is listed once, the
walk is not cut off, and no reference to a declaration with type parameters comes without arguments;
but the reference that is found has one argument, and the environment replaces the second type
parameter. -/
theorem addSubstitutions_beyond_found :
    twofoldWorld.ListsApart ∧
    (∃ above, TypeM.Recalls (twofoldWorld.supertypes ⟨16⟩) twofoldTable above ∧
      above.length < supertypeLimit ∧
      ∀ s ∈ above, ∀ d info, twofoldTable.lookup s = .nominal d [] →
        twofoldWorld.decl? d = some info → info.typeParams = []) ∧
    twofoldWorld.decl? ⟨3⟩ =
      some { kind := .interfaceType, name := .none, typeParams := [⟨1⟩, ⟨2⟩] } ∧
    TypeM.Recalls (twofoldWorld.findInstantiation? ⟨16⟩ ⟨3⟩) twofoldTable
      (some (⟨18⟩, [.number])) ∧
    ∃ env T', twofoldWorld.addSubstitutions .empty ⟨16⟩ twofoldTable = .ok env T' ∧
      env.substitution? ⟨2⟩ = some .boolean := by
  refine ⟨listsApart_twofoldWorld, ⟨_, recalls_supertypes_twofoldWorld, by decide, ?_⟩, rfl,
    recalls_findInstantiation? (by decide) recalls_supertypes_twofoldWorld ⟨3⟩, ?_⟩
  · intro s hs d info hrow hd
    rcases decl?_twofoldWorld hd with h | ⟨rfl, -⟩
    · exact h
    · have hnone : ∀ s ∈ [(⟨16⟩ : TypeId), ⟨18⟩, ⟨19⟩, ⟨17⟩],
          twofoldTable.lookup s ≠ .nominal ⟨3⟩ [] := by decide
      exact absurd hrow (hnone s hs)
  · have hreceiver : twofoldTable.Has ⟨16⟩ := by decide
    obtain ⟨env, T', hrun, hg, above, -, hrecalls, h⟩ := yields_addSubstitutions_firstArgument?
      wellFormed_twofoldTable within_twofoldWorld hreceiver listsApart_twofoldWorld
    have hinterface : twofoldWorld.decl? ⟨3⟩ =
      some { kind := .interfaceType, name := .none, typeParams := [⟨1⟩, ⟨2⟩] } := rfl
    have hbinds := h (i := 1) hinterface rfl
    obtain rfl := hrecalls.unique (recalls_supertypes_twofoldWorld.of_le hg.le)
    rw [firstArgument?_of_le hg.le (by decide)] at hbinds
    have hsecond : env.Binds T' ⟨2⟩ (some .boolean) := hbinds
    refine ⟨env, T', hrun, hsecond.substitution? hg.wellFormed ?_⟩
    rw [TypeTable.lookup_of_le hg.le (by decide)]
    decide

end World

end ScriptTyping
