import ScriptTyping.Proofs.Environment.Receiver
import ScriptTyping.Proofs.Stability.Members
import ScriptTyping.Proofs.Substitution.Layer
import ScriptTyping.Proofs.Table.Construction

/-!
# Substituting for a receiver at once

The type arguments of a receiver reach a member on two ways.  Super types and aliases apply them
once.  Members and signatures write them into an environment, whose replacements are followed
through chains, so an argument is substituted in again.  Where the arguments that stand for the
variables of a type mention nothing that the environment replaces, a chain ends after one
replacement, and both ways give one type.

An argument that is its own type parameter is left out of the environment and kept in the explicit
substitution.  Type variables do not notice, but an open type parameter of a function does: the
explicit substitution closes it.

## Main definitions

* `TypeTable.ReadsOnce` — chains through a type end after one replacement.

## Main results

* `World.substitute_eq_instantiate` — where chains end, both ways give one type.
* `World.substitute_ne_instantiate` — the arguments of a swapped pair are swapped back and forth.
-/

namespace ScriptTyping

/-- Following the environment through the type ends after one replacement: its variables are among
the pairs or left alone, and what stands for one of them mentions nothing that is replaced, unless
it is the variable itself, which then is not open in the type. -/
structure TypeTable.ReadsOnce (T : TypeTable) (env : Environment) (pairs : List (DeclId × TypeId))
    (t : TypeId) : Prop where
  covered : ∀ d, T.Mentions t d → (pairs.lookup d).isSome ∨ env.substitution? d = none
  replacements : ∀ d a, T.Mentions t d → pairs.lookup d = some a → T.lookup a ≠ .typeVariable d →
    ∀ e, T.Mentions a e → env.substitution? e = none
  opens : ∀ s, T.Occurs t s → ∀ d ∈ (T.lookup s).opens, ∀ a, pairs.lookup d = some a →
    T.lookup a ≠ .typeVariable d

/-- A table stays sound when a new layer is stored. -/
theorem TypeTable.sound_store {T : TypeTable} {data : TypeData} (h : T.WellFormed ∧ T.Indexed)
    (hparts : T.HasAll data.parts) (hnew : data ∉ T.rows.toList) :
    (T.store data).WellFormed ∧ (T.store data).Indexed :=
  ⟨wellFormed_store h.1 hparts, h.2.store (h.1.handles_eq_none hnew)⟩

namespace Substitution

theorem get?_insert (s : Substitution) (param : DeclId) (replacement : TypeId) (d : DeclId) :
    (s.insert param replacement).get? d = if d = param then some replacement else s.get? d := by
  have hfilter (l : List (DeclId × TypeId)) :
      (l.filter fun entry => entry.1 != param).lookup d =
        if d = param then none else l.lookup d := by
    induction l with
    | nil => simp
    | cons entry l ih =>
      rw [List.filter_cons, lookup_cons_pair]
      by_cases hentry : entry.1 = param
      · rw [if_neg (by simp [hentry]), ih]
        by_cases hd : d = param <;> simp [hd, hentry]
      · rw [if_pos (by simp [hentry]), lookup_cons_pair, ih]
        by_cases hd : d = entry.1
        · simp [hd, hentry]
        · simp [hd]
  rw [get?, insert, List.lookup_append, hfilter, lookup_cons_pair, List.lookup_nil, get?]
  by_cases h : d = param <;> simp [h]

private theorem zip_fst_initial {α β : Type} (l : List α) : ∀ l' : List β,
    (l.zip l').map Prod.fst <+: l := by
  induction l with
  | nil => exact fun _ => List.prefix_refl _
  | cons a l ih =>
    intro l'
    cases l' with
    | nil => exact List.nil_prefix
    | cons b l' => exact List.prefix_cons_inj a |>.mpr (ih l')

/-- Of different type parameters, each stands for the argument at its place. -/
theorem get?_ofArgs {params : List DeclId} (args : List TypeId) (hparams : params.Nodup)
    (d : DeclId) : (ofArgs params args).get? d = (params.zip args).lookup d := by
  have hkeys : ((params.zip args).map Prod.fst).Nodup :=
    (zip_fst_initial params args).sublist.nodup hparams
  rw [ofArgs]
  generalize params.zip args = pairs at hkeys
  suffices ∀ s : Substitution,
      (pairs.foldl (fun s pair => s.insert pair.1 pair.2) s).get? d =
        (pairs.lookup d).or (s.get? d) by
    rw [this]
    exact Option.or_none
  induction pairs with
  | nil => exact fun _ => rfl
  | cons pair pairs ih =>
    intro s
    rw [List.map_cons, List.nodup_cons] at hkeys
    rw [List.foldl_cons, ih hkeys.2, get?_insert, lookup_cons_pair]
    by_cases h : d = pair.1
    · simp [h, lookup_eq_none_of_notMem hkeys.1]
    · simp [h]

end Substitution

namespace World

variable {w : World} {env : Environment} {T : TypeTable} {receiver t : TypeId} {decl : DeclId}
  {args : List TypeId} {info : Declaration}

/-- What the environment of a receiver replaces: a type parameter of the receiver by its argument,
unless that is the type parameter itself. -/
theorem yields_addSubstitutions (hT : T.WellFormed) (hw : w.Within T)
    (hreceiver : T.lookup receiver = .nominal decl args) (hdecl : w.decl? decl = some info) :
    TypeM.Yields (w.addSubstitutions .empty receiver) T fun T' env =>
      env.Within T' ∧ env.this? = none ∧
      ∀ d a, (info.typeParams.zip args).lookup d = some a →
        ∃ own, T'.handles[TypeData.typeVariable d]? = some own ∧
          env.substitution? d = if a = own then none else some a := by
  have hHas : T.Has receiver := TypeTable.has_of_lookup_ne (by rw [hreceiver]; exact nofun)
  obtain ⟨bindings, T', hrun, hg, above, seen, hclosure, -, hrecorded⟩ :=
    yields_receiverBindings hT hw hHas
  obtain ⟨-, hbinds, -⟩ := stable_receiverBindings hT hw hHas bindings T' hrun
  refine ⟨_, T', ?_, hg, Environment.within_empty.extend bindings hbinds,
    Environment.this?_extend bindings .empty, fun d a hd => ?_⟩
  · rw [addSubstitutions_eq, map_eq_pure_bind]
    exact TypeM.bind_eq_ok.mpr ⟨bindings, T', hrun, rfl⟩
  -- The receiver comes first, so its own argument decides.
  obtain ⟨rest, rfl⟩ := hclosure.head
  have hfirst : w.argumentPairs (T'.lookup receiver) = info.typeParams.zip args := by
    simp [TypeTable.lookup_of_le hg.le hHas, hreceiver, argumentPairs, hdecl]
  obtain ⟨own, hown, hvalue⟩ := hrecorded.own d a (by
    rw [List.flatMap_cons, hfirst, List.lookup_append, hd, Option.some_or])
  refine ⟨own, hown, ?_⟩
  rw [Environment.substitution?_extend d hrecorded.nodup]
  exact (Option.or_none).trans hvalue

/-- Where chains end after one replacement, the environment of a receiver and its arguments do the
same. -/
theorem coincide_substitution {pairs : List (DeclId × TypeId)} {s : Substitution} {T' : TypeTable}
    (hT : T.WellFormed) (hindex : T.Indexed) (hg : T.GrowsTo T') (ht : T.Has t)
    (hpairs : T.Binds pairs) (hsget : ∀ d, s.get? d = pairs.lookup d) (hsthis : s.thisType = none)
    (hthis : env.this? = none)
    (henv : ∀ d a, pairs.lookup d = some a →
      ∃ own, T'.handles[TypeData.typeVariable d]? = some own ∧
        env.substitution? d = if a = own then none else some a)
    (hreads : T.ReadsOnce env pairs t) :
    TypeM.Coincide T (env.traversal.run t) (s.traversal.run t) Eq := by
  have hvariable {u : TypeId} {d : DeclId} (hu : T.lookup u = .typeVariable d) :
      T'.handles[TypeData.typeVariable d]? = some u :=
    hg.le.handles _ _ (hu ▸ hindex.handles_lookup (by rw [hu]; rfl))
  have hHas {d : DeclId} {a : TypeId} (hlookup : pairs.lookup d = some a) : T.Has a := by
    obtain ⟨before, after, heq, -⟩ := List.lookup_eq_some_iff.mp hlookup
    exact hpairs (d, a) (by simp [heq])
  refine Traversal.coincide_apply hT (hsthis.trans hthis.symm) _ ht
    (fun u d hu _ hd room => ?_) fun u hu d hd => ?_
  · have hmentions : T.Mentions t d := ⟨u, hu, .inl hd⟩
    simp only [Traversal.visit, Environment.traversal, Substitution.traversal, hsget]
    cases hlookup : pairs.lookup d with
    | none =>
      have hnone := (hreads.covered d hmentions).resolve_left (by simp [hlookup])
      simp only [hnone]
      exact (TypeM.coincidence T).same u
    | some a =>
      obtain ⟨own, hown, hvalue⟩ := henv d a hlookup
      obtain rfl : u = own := Option.some.inj ((hvariable hd).symm.trans hown)
      simp only [hvalue]
      by_cases hsame : a = u
      · simp only [hsame, ↓reduceIte]
        exact (TypeM.coincidence T).same u
      · have hne : T.lookup a ≠ .typeVariable d := fun ha =>
          hsame (Option.some.inj ((hvariable ha).symm.trans hown))
        simp only [hsame, ↓reduceIte, Bool.false_eq_true]
        have hfixed : TypeM.Recalls (env.traversal.apply room a) T a :=
          Traversal.recalls_apply hT room (hHas hlookup)
            (hreads.replacements d a hmentions hlookup hne) (.inl hthis)
        exact hfixed.coincide
  · simp only [Environment.traversal, Substitution.traversal, hsget]
    cases hlookup : pairs.lookup d with
    | none =>
      rw [(hreads.covered d ⟨u, hu, .inr hd⟩).resolve_left (by simp [hlookup])]
    | some a =>
      obtain ⟨own, hown, hvalue⟩ := henv d a hlookup
      have hne : a ≠ own := by
        rintro rfl
        have hown' := TypeTable.lookup_eq (hg.wellFormed.handles_sound _ _ hown)
        rw [TypeTable.lookup_of_le hg.le (hHas hlookup)] at hown'
        exact hreads.opens u hu d hd a hlookup hown'
      rw [hvalue, if_neg hne]

/-- Substituting for a receiver is instantiating with its arguments.  The environment of a reference
to a declaration with different type parameters is always found, and for every type through which
its chains end after one replacement it substitutes as the explicit substitution instantiates: from
every later table on both store the same and return one handle, which both return ever after. -/
theorem substitute_eq_instantiate (hT : T.WellFormed) (hindex : T.Indexed) (hw : w.Within T)
    (hreceiver : T.lookup receiver = .nominal decl args) (hdecl : w.decl? decl = some info)
    (hparams : info.typeParams.Nodup) :
    ∃ env T₁, w.addSubstitutions .empty receiver T = .ok env T₁ ∧ T.GrowsTo T₁ ∧
      ∀ t, T.Has t → T.ReadsOnce env (info.typeParams.zip args) t → ∀ T₂, T₁.GrowsTo T₂ →
        ∃ u T₃, env.substitute t T₂ = .ok u T₃ ∧
          (Substitution.ofArgs info.typeParams args).instantiate t T₂ = .ok u T₃ ∧
          TypeM.Recalls (env.substitute t) T₃ u ∧
          TypeM.Recalls ((Substitution.ofArgs info.typeParams args).instantiate t) T₃ u := by
  obtain ⟨env, T₁, hrun, hg₁, henv, hthis, hvalues⟩ :=
    yields_addSubstitutions hT hw hreceiver hdecl
  refine ⟨env, T₁, hrun, hg₁, fun t ht hreads T₂ hg₂ => ?_⟩
  have hargs : T.HasAll args := by simpa [hreceiver, TypeData.parts] using hT.hasAll_parts receiver
  have hg := hg₁.trans hg₂
  obtain ⟨u, u', T₃, hu, hu', -, rfl⟩ := coincide_substitution hT hindex hg₁ ht
    (.zip info.typeParams hargs) (Substitution.get?_ofArgs args hparams)
    (Substitution.thisType_ofArgs info.typeParams args) hthis hvalues hreads T₂ hg.le
  rw [← Environment.substitute_eq_run env hT ht hg.le] at hu
  rw [← Substitution.instantiate_eq_run _ hT ht hg.le] at hu'
  have hs := Substitution.within_ofArgs info.typeParams (hargs.of_le hg.le)
  exact ⟨u, T₃, hu, hu',
    (Environment.stable_substitute hg.wellFormed (henv.of_le hg₂.le) (ht.of_le hg.le) u T₃ hu).2.2,
    (Substitution.stable_instantiate hg.wellFormed hs (ht.of_le hg.le) u T₃ hu').2.2⟩

/-! ### A pair of type parameters -/

/-- Two type parameters, a class with both of them, `Object`, and a class that lists the first one
twice. -/
def pairWorld : World where
  declarations := ⟨#[
    { kind := .typeVariable, name := .none },
    { kind := .typeVariable, name := .none },
    { kind := .classType, name := .none, typeParams := [⟨1⟩, ⟨2⟩] },
    { kind := .classType, name := .none },
    { kind := .classType, name := .none, typeParams := [⟨1⟩, ⟨1⟩] }]⟩
  builtins := { (default : Builtins) with object := ⟨4⟩, objectType := ⟨18⟩ }
  fuel := 0

/-- The two type variables and `Object`; the pair swapped, as it is, and with a first argument; the
other class with two arguments; and a function with the first type parameter open. -/
def pairTable : TypeTable :=
  (((((((TypeTable.initial.store (.typeVariable ⟨1⟩)).store (.typeVariable ⟨2⟩)).store
    (.nominal ⟨4⟩ [])).store (.nominal ⟨3⟩ [⟨17⟩, ⟨16⟩])).store (.nominal ⟨3⟩ [⟨16⟩, ⟨17⟩])).store
    (.nominal ⟨3⟩ [.number, ⟨17⟩])).store (.nominal ⟨5⟩ [.number, .string])).store
    (.function ⟨[⟨1⟩], [], .number, none, none⟩)

theorem pairTable_sound : pairTable.WellFormed ∧ pairTable.Indexed := by
  rw [pairTable]
  iterate 8 refine TypeTable.sound_store ?_ (by decide) (by decide)
  exact ⟨TypeTable.wellFormed_initial, TypeTable.indexed_initial⟩

private theorem recordBinding_pairTable {state : List (DeclId × TypeId) × List DeclId} {d : DeclId}
    {arg : TypeId} (own : TypeId) (hseen : d ∉ state.2)
    (hown : pairTable.lookup own = .typeVariable d) :
    recordBinding state (d, arg) pairTable =
      .ok (if arg = own then state.1 else state.1 ++ [(d, arg)], d :: state.2) pairTable := by
  rw [recordBinding, if_neg (by simpa using hseen)]
  refine TypeM.bind_of_ok (TypeM.intern_of_handle ?_)
  rw [← hown]
  exact pairTable_sound.2.handles_lookup (by rw [hown]; rfl)

private theorem fold_pairTable (a b : TypeId) :
    [((⟨1⟩ : DeclId), a), (⟨2⟩, b)].foldlM recordBinding ([], []) pairTable =
      .ok (if b = ⟨17⟩ then if a = ⟨16⟩ then [] else [(⟨1⟩, a)]
        else (if a = ⟨16⟩ then [] else [(⟨1⟩, a)]) ++ [(⟨2⟩, b)], [⟨2⟩, ⟨1⟩]) pairTable := by
  rw [List.foldlM_cons, TypeM.bind_of_ok (recordBinding_pairTable ⟨16⟩ (by simp) rfl),
    List.foldlM_cons, TypeM.bind_of_ok (recordBinding_pairTable ⟨17⟩ (by simp) rfl)]
  rfl

/-- What a reference to a class without super type passes on. -/
private theorem addSubstitutions_pairTable (state : List (DeclId × TypeId) × List DeclId)
    (habove : pairWorld.supertypes t pairTable = .ok [t, ⟨18⟩] pairTable)
    (ht : pairTable.lookup t = .nominal decl args) (hargs : args ≠ [])
    (hdecl : pairWorld.decl? decl = some info)
    (hfold : (info.typeParams.zip args).foldlM recordBinding ([], []) pairTable =
      .ok state pairTable) :
    pairWorld.addSubstitutions .empty t pairTable =
      .ok (Environment.empty.extend state.1) pairTable := by
  have hbindings : pairWorld.recordBindings ([], []) t pairTable = .ok state pairTable := by
    rw [recordBindings]
    have hread : TypeM.lookup t pairTable = .ok (.nominal decl args) pairTable := ht ▸ rfl
    rw [TypeM.bind_of_ok hread]
    simp only [List.isEmpty_iff, hargs, ↓reduceIte, hdecl, hfold]
  rw [addSubstitutions_eq, map_eq_pure_bind, receiverBindings]
  refine TypeM.bind_eq_ok.mpr ⟨_, pairTable, TypeM.bind_eq_ok.mpr ⟨_, pairTable, habove, ?_⟩, rfl⟩
  refine TypeM.bind_eq_ok.mpr ⟨state, pairTable, ?_, rfl⟩
  exact TypeM.bind_eq_ok.mpr ⟨state, pairTable, hbindings, rfl⟩

/-- Through the swapped pair the chains of a pair with a first argument end. -/
private theorem readsOnce_pairTable :
    pairTable.ReadsOnce (Environment.empty.extend [(⟨1⟩, .number)])
      [(⟨1⟩, .number), (⟨2⟩, ⟨17⟩)] ⟨19⟩ := by
  have hoccurs {s : TypeId} (hs : pairTable.Occurs ⟨19⟩ s) : s ∈ [⟨19⟩, ⟨17⟩, ⟨16⟩] :=
    hs.mem (by decide) (by decide)
  have hopens {s : TypeId} (hs : pairTable.Occurs ⟨19⟩ s) : (pairTable.lookup s).opens = [] := by
    have hrows : ∀ s ∈ [⟨19⟩, ⟨17⟩, ⟨16⟩], (pairTable.lookup s).opens = [] := by decide
    exact hrows s (hoccurs hs)
  have hmentions {d : DeclId} (hd : pairTable.Mentions ⟨19⟩ d) : d = ⟨1⟩ ∨ d = ⟨2⟩ := by
    obtain ⟨s, hs, hd | hd⟩ := hd
    · have hmem := hoccurs hs
      simp only [List.mem_cons, List.not_mem_nil, or_false] at hmem
      rcases hmem with rfl | rfl | rfl <;> cases hd
      · exact .inr rfl
      · exact .inl rfl
    · rw [hopens hs] at hd
      cases hd
  have hnumber {d : DeclId} : ¬pairTable.Mentions .number d := by
    rintro ⟨s, hs, hd⟩
    obtain rfl := List.mem_singleton.mp (hs.mem (l := [.number]) (by decide) (by decide))
    rcases hd with hd | hd <;> cases hd
  refine ⟨fun d hd => ?_, fun d a hd ha hne e he => ?_, fun s hs d hd => ?_⟩
  · rcases hmentions hd with rfl | rfl <;> exact .inl rfl
  · rcases hmentions hd with rfl | rfl <;> cases ha
    · exact absurd he hnumber
    · exact absurd rfl hne
  · rw [hopens hs] at hd
    cases hd

/-- The environment of a pair with a first argument and the explicit substitution turn the swapped
pair into one type. -/
theorem substitute_eq_instantiate_pair :
    pairTable.ReadsOnce (Environment.empty.extend [(⟨1⟩, .number)])
      [(⟨1⟩, .number), (⟨2⟩, ⟨17⟩)] ⟨19⟩ ∧
    ∃ env u T, pairWorld.addSubstitutions .empty ⟨21⟩ pairTable = .ok env pairTable ∧
      env.substitute ⟨19⟩ pairTable = .ok u T ∧
      (Substitution.ofArgs [⟨1⟩, ⟨2⟩] [.number, ⟨17⟩]).instantiate ⟨19⟩ pairTable = .ok u T := by
  obtain ⟨hT, hindex⟩ := pairTable_sound
  have hrun : pairWorld.addSubstitutions .empty ⟨21⟩ pairTable =
      .ok (Environment.empty.extend [(⟨1⟩, .number)]) pairTable :=
    addSubstitutions_pairTable ([(⟨1⟩, .number)], [⟨2⟩, ⟨1⟩]) rfl rfl (by simp) rfl
      (fold_pairTable .number ⟨17⟩)
  have hreceiver : pairTable.lookup ⟨21⟩ = .nominal ⟨3⟩ [.number, ⟨17⟩] := rfl
  obtain ⟨env, T₁, henv, hg, h⟩ := substitute_eq_instantiate (w := pairWorld) hT hindex
    (World.within_of_entries (by decide) (by decide)) hreceiver rfl (by decide)
  rw [hrun] at henv
  injection henv with henv hT₁
  subst henv hT₁
  obtain ⟨u, T, hu, hu', -, -⟩ := h ⟨19⟩ (by decide) readsOnce_pairTable pairTable hg
  exact ⟨readsOnce_pairTable, _, u, T, hrun, hu, hu'⟩

/-- Two steps through a swapped pair lead back. -/
private theorem apply_swapped (n : Nat) :
    ((Environment.empty.extend [(⟨1⟩, ⟨17⟩), (⟨2⟩, ⟨16⟩)]).traversal.apply (2 * n) ⟨16⟩) pairTable =
      .ok ⟨16⟩ pairTable := by
  induction n with
  | zero => rfl
  | succ n ih => exact ih

/-- The two ways part on chains, on open type parameters and on repeated type parameters.  In a pair
with its type parameters swapped the environment replaces the first one by the second one and back
again until the depth limit.  In a pair as it is the explicit substitution closes a function over
the first type parameter.  Of a type parameter listed twice, the environment takes the first
argument and the explicit substitution the last one. -/
theorem substitute_ne_instantiate :
    (pairTable.lookup ⟨16⟩ = .typeVariable ⟨1⟩ ∧
      pairWorld.decl? ⟨3⟩ = some { kind := .classType, name := .none, typeParams := [⟨1⟩, ⟨2⟩] }) ∧
    (pairTable.lookup ⟨19⟩ = .nominal ⟨3⟩ [⟨17⟩, ⟨16⟩] ∧
      ∃ env, pairWorld.addSubstitutions .empty ⟨19⟩ pairTable = .ok env pairTable ∧
        env.substitute ⟨16⟩ pairTable = .ok ⟨16⟩ pairTable ∧
        (Substitution.ofArgs [⟨1⟩, ⟨2⟩] [⟨17⟩, ⟨16⟩]).instantiate ⟨16⟩ pairTable =
          .ok ⟨17⟩ pairTable) ∧
    (pairTable.lookup ⟨20⟩ = .nominal ⟨3⟩ [⟨16⟩, ⟨17⟩] ∧
      pairTable.lookup ⟨23⟩ = .function ⟨[⟨1⟩], [], .number, none, none⟩ ∧
      ∃ env, pairWorld.addSubstitutions .empty ⟨20⟩ pairTable = .ok env pairTable ∧
        env.substitute ⟨23⟩ pairTable = .ok ⟨23⟩ pairTable ∧
        ∃ T', (Substitution.ofArgs [⟨1⟩, ⟨2⟩] [⟨16⟩, ⟨17⟩]).instantiate ⟨23⟩ pairTable =
          .ok ⟨24⟩ T') ∧
    (pairTable.lookup ⟨22⟩ = .nominal ⟨5⟩ [.number, .string] ∧
      pairWorld.decl? ⟨5⟩ = some { kind := .classType, name := .none, typeParams := [⟨1⟩, ⟨1⟩] } ∧
      ∃ env, pairWorld.addSubstitutions .empty ⟨22⟩ pairTable = .ok env pairTable ∧
        env.substitute ⟨16⟩ pairTable = .ok .number pairTable ∧
        (Substitution.ofArgs [⟨1⟩, ⟨1⟩] [.number, .string]).instantiate ⟨16⟩ pairTable =
          .ok .string pairTable) := by
  have hswapped : pairWorld.addSubstitutions .empty ⟨19⟩ pairTable =
      .ok (Environment.empty.extend [(⟨1⟩, ⟨17⟩), (⟨2⟩, ⟨16⟩)]) pairTable :=
    addSubstitutions_pairTable ([(⟨1⟩, ⟨17⟩), (⟨2⟩, ⟨16⟩)], [⟨2⟩, ⟨1⟩]) rfl rfl (by simp)
      rfl (fold_pairTable ⟨17⟩ ⟨16⟩)
  have hown : pairWorld.addSubstitutions .empty ⟨20⟩ pairTable = .ok .empty pairTable :=
    addSubstitutions_pairTable ([], [⟨2⟩, ⟨1⟩]) rfl rfl (by simp) rfl
      (fold_pairTable ⟨16⟩ ⟨17⟩)
  have hrepeated : pairWorld.addSubstitutions .empty ⟨22⟩ pairTable =
      .ok (Environment.empty.extend [(⟨1⟩, .number)]) pairTable :=
    addSubstitutions_pairTable ([(⟨1⟩, .number)], [⟨1⟩]) rfl rfl (by simp) rfl
      (TypeM.bind_of_ok (recordBinding_pairTable ⟨16⟩ (by decide) rfl))
  refine ⟨⟨rfl, rfl⟩, ⟨rfl, _, hswapped, apply_swapped 25, rfl⟩,
    ⟨rfl, rfl, _, hown, rfl, pairTable.store (.function ⟨[], [], .number, none, none⟩), ?_⟩,
    ⟨rfl, rfl, _, hrepeated, rfl, rfl⟩⟩
  exact TypeM.intern_of_new (pairTable_sound.1.handles_eq_none (by decide))

end World

end ScriptTyping
