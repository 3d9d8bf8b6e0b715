import Mathlib.Data.List.Basic
import Mathlib.Data.List.Find
import ScriptTyping.Proofs.Stability.Lattice

/-!
# Stability of the join

The join of types of the table is stable and gives a type of the table.  The members that are
reported on the way are left open, since the texts about them may read differently later.  As for
the short form, the subtype relation matters only through a property that its answers have, and the
join is treated once for every such property.

## Main definitions

* `ReportM.Stable` — stability of a computation that also collects dropped members.
* `JoinLogic` — a property of computations with reports, above one of computations without.

## Main results

* `JoinLogic.joinFrom` — the join, for every such property.
* `Join.stable_joinFrom`, `stable_joinTypes` — the join.
-/

namespace ScriptTyping

variable {w : World} {env : Environment} {T T' : TypeTable}

namespace ReportM

variable {α β : Type} {x : ReportM α} {f : α → ReportM β} {V : TypeTable → α → Prop}
  {W : TypeTable → β → Prop}

/-- If the computation returns from `T`, then the table grows, the result has the property `V`, and
every table that extends the one it leaves gives the same result, with some report, and stays as it
is. -/
def Stable (x : ReportM α) (T : TypeTable) (V : TypeTable → α → Prop) : Prop :=
  ∀ reports a reports' T', x reports T = .ok (a, reports') T' → T.GrowsTo T' ∧ V T' a ∧
    ∀ T'', T' ≤ T'' → ∀ reports, ∃ reports', x reports T'' = .ok (a, reports') T''

theorem Stable.pure {a : α} (hT : T.WellFormed) (h : V T a) : Stable (pure a) T V := by
  intro reports b reports' T' hb
  cases hb
  exact ⟨.refl hT, h, fun _ _ reports => ⟨reports, rfl⟩⟩

theorem Stable.bind (hx : Stable x T V)
    (hf : ∀ a T', T.GrowsTo T' → V T' a → Stable (f a) T' W) : Stable (x >>= f) T W := by
  intro reports b reports' T' h
  obtain ⟨⟨a, reports₁⟩, T₁, ha, hb⟩ := TypeM.bind_eq_ok.mp h
  obtain ⟨hg₁, hv, hlater₁⟩ := hx reports a reports₁ T₁ ha
  obtain ⟨hg₂, hw, hlater₂⟩ := hf a T₁ hg₁ hv reports₁ b reports' T' hb
  refine ⟨hg₁.trans hg₂, hw, fun T'' hle reports => ?_⟩
  obtain ⟨reports₂, ha'⟩ := hlater₁ T'' (le_trans hg₂.le hle) reports
  obtain ⟨reports₃, hb'⟩ := hlater₂ T'' hle reports₂
  exact ⟨reports₃, TypeM.bind_eq_ok.mpr ⟨(a, reports₂), T'', ha', hb'⟩⟩

theorem Stable.lift {z : TypeM α} (hz : TypeM.Stable z T V) : Stable (liftM z) T V := by
  intro reports a reports' T' h
  obtain ⟨b, T₁, hb, hpair⟩ := TypeM.bind_eq_ok.mp h
  cases hpair
  obtain ⟨hg, hv, hlater⟩ := hz a T' hb
  refine ⟨hg, hv, fun T'' hle reports => ⟨reports, ?_⟩⟩
  exact TypeM.bind_eq_ok.mpr ⟨a, T'', hlater T'' hle, rfl⟩

/-- What is collected is left open. -/
theorem Stable.collect {z : TypeM (α × List Redundancy)}
    (hz : TypeM.Stable (Prod.fst <$> z) T V) : Stable (ReportM.collect z) T V := by
  intro reports a reports' T' h
  have hfirst {T T' : TypeTable} {a : α} (h : (Prod.fst <$> z) T = .ok a T') :
      ∃ dropped, z T = .ok (a, dropped) T' := by
    rw [map_eq_pure_bind] at h
    obtain ⟨⟨b, dropped⟩, T₁, hb, hab⟩ := TypeM.bind_eq_ok.mp h
    cases hab
    exact ⟨dropped, hb⟩
  have hcollect (reports dropped : List Redundancy) (a : α) (T T' : TypeTable)
      (h : z T = .ok (a, dropped) T') :
      ReportM.collect z reports T = .ok (a, reports ++ dropped) T' := by
    refine TypeM.bind_eq_ok.mpr ⟨((a, dropped), reports), T', ?_, rfl⟩
    exact TypeM.bind_eq_ok.mpr ⟨(a, dropped), T', h, rfl⟩
  obtain ⟨⟨⟨b, dropped⟩, reports₁⟩, T₁, hb, hab⟩ := TypeM.bind_eq_ok.mp h
  obtain ⟨⟨b', dropped'⟩, T₂, hz', hpair⟩ := TypeM.bind_eq_ok.mp hb
  cases hpair
  cases hab
  have hmap : (Prod.fst <$> z) T = .ok a T' := by
    rw [map_eq_pure_bind]
    exact TypeM.bind_eq_ok.mpr ⟨(a, dropped), T', hz', rfl⟩
  obtain ⟨hg, hv, hlater⟩ := hz a T' hmap
  refine ⟨hg, hv, fun T'' hle reports => ?_⟩
  obtain ⟨later, hl⟩ := hfirst (hlater T'' hle)
  exact ⟨_, hcollect reports later a T'' T'' hl⟩

/-- Reading the whole table is harmless if the rest does not see what is stored later. -/
theorem Stable.get {f : TypeTable → ReportM β} (hsame : ∀ T'', T ≤ T'' → f T'' = f T)
    (h : Stable (f T) T W) :
    Stable (liftM (MonadState.get : TypeM TypeTable) >>= f) T W := by
  intro reports b reports' T' hb
  have hb' : f T reports T = .ok (b, reports') T' := hb
  obtain ⟨hg, hw, hlater⟩ := h reports b reports' T' hb'
  refine ⟨hg, hw, fun T'' hle reports => ?_⟩
  obtain ⟨later, hl⟩ := hlater T'' hle reports
  refine ⟨later, ?_⟩
  change f T'' reports T'' = _
  rw [hsame T'' (le_trans hg.le hle)]
  exact hl

/-- Stability up to reports as a property that sequencing respects. -/
def stableLogic : TableLogic ReportM where
  holds := Stable
  return' := .pure
  bind := .bind

end ReportM

/-- A property of computations that collect dropped members, above one of computations over types
that the answers of a subtype relation have. -/
structure JoinLogic (rel : TypeRelation) (w : World) (env : Environment) extends
    TableLogic ReportM where
  base : RelationLogic rel w env
  lift : ∀ {α : Type} {z : TypeM α} {T : TypeTable} {V : TypeTable → α → Prop},
    base.holds z T V → holds (liftM z) T V
  collect : ∀ {α : Type} {z : TypeM (α × List Redundancy)} {T : TypeTable}
    {V : TypeTable → α → Prop}, base.holds (Prod.fst <$> z) T V → holds (ReportM.collect z) T V
  get : ∀ {β : Type} {f : TypeTable → ReportM β} {T : TypeTable} {W : TypeTable → β → Prop},
    (∀ T'', T ≤ T'' → f T'' = f T) → holds (f T) T W →
    holds (liftM (MonadState.get : TypeM TypeTable) >>= f) T W

/-- Stability up to reports as such a property. -/
def World.stableReports (w : World) (env : Environment) : JoinLogic w.isSubtype w env where
  toTableLogic := ReportM.stableLogic
  base := w.stableAnswers env
  lift := .lift
  collect := .collect
  get := .get

namespace Join

/-! ### What the join reads of the table -/

variable {ts : List TypeId} {closures : List (List TypeId)}

theorem sort_of_le (hle : T ≤ T') (hts : T.HasAll ts) : sort T' ts = sort T ts := by
  have hkey (t : TypeId) (ht : t ∈ ts) : sortKey T' t = sortKey T t := by
    rw [sortKey, sortKey, TypeTable.lookup_of_le hle (hts t ht)]
  have h := List.map_mergeSort (f := id) (l := ts)
    (r := fun a b => keyLe (sortKey T' a) (sortKey T' b))
    (s := fun a b => keyLe (sortKey T a) (sortKey T b))
    fun a ha b hb => by rw [hkey a ha, hkey b hb, id, id]
  rwa [List.map_id, List.map_id] at h

theorem hasAll_sort (hts : T.HasAll ts) : T.HasAll (sort T ts) :=
  fun t ht => hts t (List.mem_mergeSort.mp ht)

theorem declarationsOf_of_le (hle : T ≤ T') (hts : T.HasAll ts) :
    declarationsOf T' ts = declarationsOf T ts := by
  rw [declarationsOf, declarationsOf, List.filterMap_congr fun t ht => ?_]
  rw [TypeTable.lookup_of_le hle (hts t ht)]

theorem sharedOthers_of_le (hle : T ≤ T') (hcl : ∀ closure ∈ closures, T.HasAll closure) :
    sharedOthers T' closures = sharedOthers T closures := by
  rw [sharedOthers, sharedOthers]
  refine List.filter_congr fun t ht => ?_
  cases closures with
  | nil => cases ht
  | cons closure closures =>
    rw [TypeTable.lookup_of_le hle (hcl closure (List.mem_cons_self ..) t ht)]

private theorem mapM_option_congr {α β : Type} {f g : α → Option β} (l : List α)
    (h : ∀ a ∈ l, f a = g a) : l.mapM f = l.mapM g := by
  induction l with
  | nil => rfl
  | cons a l ih =>
    rw [List.mapM_cons, List.mapM_cons, h a (List.mem_cons_self ..),
      ih fun a' ha' => h a' (List.mem_cons_of_mem _ ha')]

theorem firstReferences?_of_le (hle : T ≤ T') (hcl : ∀ closure ∈ closures, T.HasAll closure)
    (decl : DeclId) : firstReferences? T' decl closures = firstReferences? T decl closures := by
  rw [firstReferences?, firstReferences?]
  refine mapM_option_congr closures fun closure hclosure => List.find?_congr fun t ht => ?_
  rw [TypeTable.lookup_of_le hle (hcl closure hclosure t ht)]

theorem hasAll_firstReferences? {decl : DeclId} : ∀ {closures references : List _},
    (∀ closure ∈ closures, T.HasAll closure) →
    firstReferences? T decl closures = some references → T.HasAll references := by
  intro closures
  induction closures with
  | nil =>
    intro references _ h
    cases h
    exact TypeTable.hasAll_nil
  | cons closure closures ih =>
    intro references hcl h
    rw [firstReferences?, List.mapM_cons] at h
    obtain ⟨first, hfirst, h⟩ := Option.bind_eq_some_iff.mp h
    obtain ⟨rest, hrest, h⟩ := Option.bind_eq_some_iff.mp h
    cases h
    intro t ht
    rcases List.mem_cons.mp ht with rfl | ht
    · exact hcl closure (List.mem_cons_self ..) _ (List.mem_of_find?_eq_some hfirst)
    · exact ih (fun c hc => hcl c (List.mem_cons_of_mem _ hc)) hrest t ht

/-! ### The lowest shared super types -/

theorem mem_of_mem_eraseReps {t : TypeId} {ts : List TypeId} (h : t ∈ ts.eraseReps) :
    t ∈ ts := by
  have hloop (rest : List TypeId) : ∀ (first : TypeId) (done : List TypeId),
      t ∈ List.eraseRepsBy.loop (· == ·) first rest done →
      t = first ∨ t ∈ rest ∨ t ∈ done := by
    induction rest with
    | nil =>
      intro first done h
      rcases List.mem_cons.mp (List.mem_reverse.mp h) with h | h
      · exact .inl h
      · exact .inr (.inr h)
    | cons next rest ih =>
      intro first done h
      rw [List.eraseRepsBy.loop] at h
      split at h
      · rcases ih first done h with h | h | h
        · exact .inl h
        · exact .inr (.inl (List.mem_cons_of_mem _ h))
        · exact .inr (.inr h)
      · rcases ih next (first :: done) h with h | h | h
        · exact .inr (.inl (h ▸ List.mem_cons_self ..))
        · exact .inr (.inl (List.mem_cons_of_mem _ h))
        · rcases List.mem_cons.mp h with h | h
          · exact .inl h
          · exact .inr (.inr h)
  cases ts with
  | nil => exact h
  | cons first rest =>
    rcases hloop rest first [] h with h | h | h
    · exact h ▸ List.mem_cons_self ..
    · exact List.mem_cons_of_mem _ h
    · cases h

end Join

namespace RelationLogic

variable {rel : TypeRelation} (L : RelationLogic rel w env)

theorem minimal (h : w.Setting env T) {candidates : List TypeId}
    (hcandidates : T.HasAll candidates) :
    L.holds (Join.minimal rel env candidates) T TypeTable.HasAll := by
  rw [Join.minimal]
  refine L.bind (L.filterM candidates h.table fun c hc T₁ hg₁ => ?_) fun lowest T₁ hg hlowest => ?_
  · refine L.bind (L.anyM candidates hg₁.wellFormed fun d hd T₂ hg₂ => ?_)
      fun _ _ hg _ => L.return' hg.wellFormed trivial
    have hg := hg₁.trans hg₂
    split
    · exact L.return' hg.wellFormed trivial
    · exact L.strict (h.grow hg) ((hcandidates d hd).of_le hg.le) ((hcandidates c hc).of_le hg.le)
  · have hall : T₁.HasAll lowest := fun t ht => (hcandidates t (hlowest t ht)).of_le hg.le
    refine L.get (fun T₂ hle => by rw [Join.sort_of_le hle hall])
      (L.return' hg.wellFormed fun t ht => ?_)
    exact Join.hasAll_sort hall t (Join.mem_of_mem_eraseReps ht)

end RelationLogic

namespace JoinLogic

variable {rel : TypeRelation} (L : JoinLogic rel w env) {join : List TypeId → ReportM TypeId}

/-- Stable computations over types have the property. -/
theorem stable {α : Type} {z : TypeM α} {V : TypeTable → α → Prop} (hz : TypeM.Stable z T V) :
    L.holds (liftM z) T V :=
  L.lift (L.base.stable hz)

/-- The joins of types of the table have the property. -/
def Joins (join : List TypeId → ReportM TypeId) : Prop :=
  ∀ T types, w.Setting env T → T.HasAll types → L.holds (join types) T TypeTable.Has

theorem mergeColumn (hjoin : L.Joins join) (h : w.Setting env T) (variance : Variance)
    {column : List TypeId} (hcolumn : T.HasAll column) :
    L.holds (Join.mergeColumn rel env join variance column) T fun T' o => T'.HasAll o.toList := by
  have hupper : L.holds
      (column.mapM fun t => (liftM (TypeM.upperBound t) : ReportM TypeId)) T TypeTable.HasAll :=
    L.mapM (W := TypeTable.Has) (fun _ _ _ => TypeTable.Has.of_le) column
      h.table fun t ht T₁ hg => L.stable
        (TypeM.stable_upperBound hg.wellFormed ((hcolumn t ht).of_le hg.le))
  cases column with
  | nil => exact L.return' h.table TypeTable.hasAll_nil
  | cons first rest =>
    rw [Join.mergeColumn]
    split
    · exact L.return' h.table (hcolumn first (List.mem_cons_self ..)).hasAll
    refine L.bind hupper fun upper T₁ hg₁ hup => ?_
    cases variance with
    | covariant =>
      exact L.bind (hjoin T₁ upper (h.grow hg₁) hup)
        fun _ _ hg ht => L.return' hg.wellFormed ht.hasAll
    | invariant =>
      refine L.bind (hjoin T₁ upper (h.grow hg₁) hup) fun bound T₂ hg₂ hbound => ?_
      have hwildcard : TypeM.Stable (TypeM.wildcard (some bound) .upper) T₂ TypeTable.Has :=
        TypeM.stable_wildcard hg₂.wellFormed
          (show T₂.HasAll (some bound).toList from hbound.hasAll) _
      exact L.bind (L.stable hwildcard) fun _ _ hg ht => L.return' hg.wellFormed ht.hasAll
    | contravariant =>
      refine L.mono (L.findM? _ hg₁.wellFormed fun c hc T₂ hg₂ =>
        L.allM _ hg₂.wellFormed fun o ho T₃ hg₃ => ?_) fun T₂ o hg₂ ho t ht => ?_
      · have hg := (hg₁.trans hg₂).trans hg₃
        exact L.lift (L.base.answer (h.grow hg) ((hcolumn c hc).of_le hg.le)
          ((hcolumn o ho).of_le hg.le))
      · exact (hcolumn t (ho t (Option.mem_toList.mp ht))).of_le (hg₁.trans hg₂).le

theorem mergeColumns (hjoin : L.Joins join) (params : List DeclId) :
    ∀ {T : TypeTable} {rows : List (List TypeId)}, w.Setting env T →
      (∀ row ∈ rows, T.HasAll row) →
      L.holds (Join.mergeColumns rel w env join params rows) T
        fun T' o => ∀ args, o = some args → T'.HasAll args := by
  induction params with
  | nil =>
    intro T rows h _
    refine L.return' h.table fun args hargs => ?_
    cases hargs
    exact TypeTable.hasAll_nil
  | cons param params ih =>
    intro T rows h hrows
    rw [Join.mergeColumns]
    have hcolumn : T.HasAll (rows.filterMap List.head?) := by
      intro t ht
      obtain ⟨row, hrow, hhead⟩ := List.mem_filterMap.mp ht
      exact hrows row hrow t (List.mem_of_head? hhead)
    refine L.bind (L.mergeColumn hjoin h _ hcolumn) fun merged T₁ hg₁ hmerged => ?_
    cases merged with
    | none => exact L.return' hg₁.wellFormed fun _ h => by cases h
    | some arg =>
      refine L.bind (ih (h.grow hg₁) fun row hrow => ?_) fun rest T₂ hg₂ hrest =>
        L.return' hg₂.wellFormed fun args hargs => ?_
      · obtain ⟨row', hrow', rfl⟩ := List.mem_map.mp hrow
        exact fun t ht => (hrows row' hrow' t (List.mem_of_mem_tail ht)).of_le hg₁.le
      · obtain ⟨args', hargs', rfl⟩ := Option.map_eq_some_iff.mp hargs
        intro t ht
        rcases List.mem_cons.mp ht with rfl | ht
        · exact (hmerged _ (List.mem_singleton_self _)).of_le hg₂.le
        · exact hrest args' hargs' t ht

theorem merge (hjoin : L.Joins join) (h : w.Setting env T) (decl : DeclId)
    {references : List TypeId} (hreferences : T.HasAll references) :
    L.holds (Join.merge rel w env join decl references) T fun T' o => T'.HasAll o.toList := by
  rw [Join.merge]
  cases w.decl? decl with
  | none => exact L.return' h.table TypeTable.hasAll_nil
  | some info =>
    refine L.get (fun T₁ hle => ?_) ?_
    · dsimp only
      rw [List.filterMap_congr fun t ht => ?_]
      rw [TypeTable.lookup_of_le hle (hreferences t ht)]
    · have hrows : ∀ row ∈ references.filterMap fun t => (T.lookup t).application?.map (·.2),
          T.HasAll row := by
        intro row hrow
        obtain ⟨t, -, hargs⟩ := List.mem_filterMap.mp hrow
        obtain ⟨⟨d, args⟩, happ, rfl⟩ := Option.map_eq_some_iff.mp hargs
        have hparts := h.table.hasAll_parts t
        cases hd : T.lookup t <;> rw [hd] at happ hparts <;> cases happ
        exact hparts
      dsimp only
      split
      · exact L.bind (L.stable (TypeM.stable_simple h.table decl))
          fun _ _ hg ht => L.return' hg.wellFormed ht.hasAll
      refine L.bind (L.mergeColumns hjoin info.typeParams h hrows) fun merged T₁ hg₁ hm => ?_
      cases merged with
      | none => exact L.return' hg₁.wellFormed TypeTable.hasAll_nil
      | some args =>
        exact L.bind (L.stable (TypeM.stable_nominal hg₁.wellFormed decl (hm args rfl)))
          fun _ _ hg ht => L.return' hg.wellFormed ht.hasAll

theorem common (hjoin : L.Joins join) (h : w.Setting env T) {args : List TypeId}
    (hargs : T.HasAll args) : L.holds (Join.common rel w env join args) T TypeTable.HasAll := by
  rw [Join.common]
  refine L.bind (L.mapM (W := TypeTable.HasAll) (fun _ _ _ => TypeTable.HasAll.of_le)
    args h.table fun t ht T₁ hg => L.stable (World.stable_supertypes hg.wellFormed
      (h.world.of_le hg.le) ((hargs t ht).of_le hg.le))) fun closures T₁ hg₁ hcl => ?_
  have hhead : T₁.HasAll (closures.head?.getD []) := by
    cases closures with
    | nil => exact TypeTable.hasAll_nil
    | cons closure closures => exact hcl closure (List.mem_cons_self ..)
  refine L.get (fun T₂ hle => ?_) ?_
  · simp only [Join.declarationsOf_of_le hle hhead, Join.firstReferences?_of_le hle hcl,
      Join.sharedOthers_of_le hle hcl]
  · have hshared : ∀ pair ∈ (Join.declarationsOf T₁ (closures.head?.getD [])).filterMap fun decl =>
        (Join.firstReferences? T₁ decl closures).map fun references => (decl, references),
        T₁.HasAll pair.2 := by
      intro pair hpair
      obtain ⟨decl, -, hrefs⟩ := List.mem_filterMap.mp hpair
      obtain ⟨references, hreferences, rfl⟩ := Option.map_eq_some_iff.mp hrefs
      exact Join.hasAll_firstReferences? hcl hreferences
    refine L.bind (L.mapM (W := fun T (o : Option TypeId) => T.HasAll o.toList)
      (fun _ _ _ => TypeTable.HasAll.of_le) _ hg₁.wellFormed fun pair hpair T₂ hg₂ => ?_)
      fun merged T₂ hg₂ hmerged => L.return' hg₂.wellFormed fun t ht => ?_
    · have hreferences := (hshared pair hpair).of_le hg₂.le
      obtain ⟨decl, references⟩ := pair
      cases references with
      | nil => exact L.return' hg₂.wellFormed TypeTable.hasAll_nil
      | cons first rest =>
        dsimp only
        split
        · exact L.return' hg₂.wellFormed (hreferences first (List.mem_cons_self ..)).hasAll
        · exact L.merge hjoin (h.grow (hg₁.trans hg₂)) decl hreferences
    · rcases List.mem_append.mp (List.mem_filter.mp ht).1 with ht | ht
      · obtain ⟨o, ho, hsome⟩ := List.mem_filterMap.mp ht
        exact hmerged o ho t (Option.mem_toList.mpr hsome)
      · exact (hhead t (List.mem_filter.mp ht).1).of_le hg₂.le

theorem joinDistinct (hjoin : L.Joins join) (h : w.Setting env T) {args : List TypeId}
    (hargs : T.HasAll args) : L.holds (Join.joinDistinct rel w env join args) T TypeTable.Has := by
  rw [Join.joinDistinct]
  refine L.bind (L.filterM args h.table fun candidate hc T₁ hg₁ =>
    L.allM args hg₁.wellFormed fun other ho T₂ hg₂ => ?_) fun tops T₁ hg₁ htops => ?_
  · have hg := hg₁.trans hg₂
    split
    · exact L.return' hg.wellFormed trivial
    · exact L.lift (L.base.answer (h.grow hg) ((hargs other ho).of_le hg.le)
        ((hargs candidate hc).of_le hg.le))
  cases tops with
  | cons top rest =>
    exact L.return' hg₁.wellFormed ((hargs top (htops top (List.mem_cons_self ..))).of_le hg₁.le)
  | nil =>
    refine L.bind (L.common hjoin (h.grow hg₁) (hargs.of_le hg₁.le)) fun shared T₂ hg₂ hshared => ?_
    have h₂ := h.grow (hg₁.trans hg₂)
    refine L.bind (L.lift (L.base.minimal h₂ hshared)) fun lowest T₃ hg₃ hlowest => ?_
    have h₃ := h₂.grow hg₃
    have hargs₃ := hargs.of_le ((hg₁.trans hg₂).trans hg₃).le
    match lowest, hlowest with
    | [], _ =>
      refine L.bind (L.allM args hg₃.wellFormed fun t ht T₄ hg₄ => L.stable
        (World.stable_isObjectLike hg₄.wellFormed (h₃.world.of_le hg₄.le)
          ((hargs₃ t ht).of_le hg₄.le))) fun objects T₄ hg₄ _ => ?_
      split
      · exact L.return' hg₄.wellFormed (h₃.world.objectType.of_le hg₄.le)
      · exact L.lift (L.base.create (h₃.grow hg₄) (hargs₃.of_le hg₄.le))
    | [single], hlowest =>
      exact L.return' hg₃.wellFormed (hlowest single (List.mem_singleton_self _))
    | first :: second :: rest, hlowest => exact L.lift (L.base.create h₃ hlowest)

theorem joinShort (hjoin : L.Joins join) (h : w.Setting env T) {args : List TypeId}
    (hargs : T.HasAll args) : L.holds (Join.joinShort rel w env join args) T TypeTable.Has := by
  have hreserved {t : TypeId} (ht : t.index < TypeId.firstDynamic) :
      L.holds (pure t) T TypeTable.Has := L.return' h.table (h.table.has_reserved ht)
  unfold Join.joinShort
  split
  · exact hreserved (by decide)
  · exact L.return' h.table (hargs _ (List.mem_singleton_self _))
  split
  · exact hreserved (by decide)
  split
  · exact hreserved (by decide)
  split
  · exact hreserved (by decide)
  -- What is left are different arguments, some of which may have been dropped.
  have hrest : T.HasAll (if (args.eraseDups.filter fun t => !t.isNullish).isEmpty = true then
      args.eraseDups else args.eraseDups.filter fun t => !t.isNullish) := by
    have hdistinct : T.HasAll args.eraseDups := fun t ht => hargs t (List.mem_eraseDups.mp ht)
    split
    · exact hdistinct
    · exact fun t ht => hdistinct t (List.mem_filter.mp ht).1
  dsimp only
  generalize (if (args.eraseDups.filter fun t => !t.isNullish).isEmpty = true then
    args.eraseDups else args.eraseDups.filter fun t => !t.isNullish) = rest at hrest
  split
  · exact L.return' h.table (hrest _ (List.mem_singleton_self _))
  refine L.get (fun T₁ hle => ?_) ?_
  · have hunion : ((Join.sort T rest).any fun t => (T₁.lookup t).unionMembers?.isSome) =
        (Join.sort T rest).any fun t => (T.lookup t).unionMembers?.isSome := by
      rw [Bool.eq_iff_iff, List.any_eq_true, List.any_eq_true]
      refine exists_congr fun t => and_congr_right fun ht => ?_
      rw [TypeTable.lookup_of_le hle (Join.hasAll_sort hrest t ht)]
    simp only [Join.sort_of_le hle hrest, hunion]
  · split
    · exact L.lift (L.base.create h (Join.hasAll_sort hrest))
    · exact L.joinDistinct hjoin h (Join.hasAll_sort hrest)

/-- The join of types of the table. -/
theorem joinFrom (room : Nat) : L.Joins (Join.joinFrom rel w env room) := by
  induction room with
  | zero => exact fun T types h _ => L.return' h.table (h.table.has_reserved (by decide))
  | succ room ih =>
    intro T types h htypes
    rw [Join.joinFrom]
    refine L.bind (L.mapM (W := TypeTable.Has) (fun _ _ _ => TypeTable.Has.of_le)
      types h.table fun t ht T₁ hg => L.collect
        (L.base.simplify (h.grow hg) ((htypes t ht).of_le hg.le))) fun args T₁ hg hargs => ?_
    exact L.joinShort ih (h.grow hg) hargs

end JoinLogic

theorem Join.stable_joinShort {join : List TypeId → ReportM TypeId}
    (hjoin : (w.stableReports env).Joins join) (h : w.Setting env T) {args : List TypeId}
    (hargs : T.HasAll args) :
    ReportM.Stable (joinShort w.isSubtype w env join args) T TypeTable.Has :=
  (w.stableReports env).joinShort hjoin h hargs

/-- The join of types of the table. -/
theorem Join.stable_joinFrom (room : Nat) :
    (w.stableReports env).Joins (joinFrom w.isSubtype w env room) :=
  (w.stableReports env).joinFrom room

theorem stable_joinTypes (h : w.Setting env T) {types : List TypeId} (htypes : T.HasAll types) :
    TypeM.Stable (joinTypes w.isSubtype w env types) T TypeTable.Has := by
  intro t T' ht
  obtain ⟨⟨t', reports⟩, T₁, hrun, hpair⟩ := TypeM.bind_eq_ok.mp ht
  cases hpair
  obtain ⟨hg, hhas, hlater⟩ := Join.stable_joinFrom _ T types h htypes [] _ reports T' hrun
  refine ⟨hg, hhas, fun T'' hle => ?_⟩
  obtain ⟨reports', hrun'⟩ := hlater T'' hle []
  exact TypeM.bind_eq_ok.mpr ⟨(_, reports'), T'', hrun', rfl⟩

end ScriptTyping
