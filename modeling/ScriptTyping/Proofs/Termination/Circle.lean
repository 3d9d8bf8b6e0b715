import Mathlib.Order.WellFoundedSet
import ScriptTyping.Proofs.Stability.Hierarchy
import ScriptTyping.Signature.Resolution

/-!
# What the resolution of a type is handed on to

Member lookup and the two signature resolutions hand a type on to other types: to the alternatives
of a union, to bounds, to what an environment puts in place of a variable, and to the arguments that
an alias uses.  The types that can be asked are the nodes of a finite graph over the declared types,
although expansion and substitution keep storing new types.

Two ways through the graph have bounds of their own, so that a circle on them does no harm: an
environment follows variables that replace one another only so far, and so do aliases that stand as
one another.  Every other way is without a guard.  If it lies on no circle, a type has a *span*: a
number that bounds how often it can be handed on.  Under an alias the span depends on those of the
arguments, so spans are taken under an assignment of spans to type variables.

## Main definitions

* `Reading` — member lookup, and the signature resolutions under an environment.
* `World.HandsOn`, `World.StandsAs` — the graph.
* `World.NoCircle` — nothing is handed on in a circle.
* `World.Spans` — a bound on how often a type is handed on.

## Main results

* `World.NoCircle.exists_spans` — without a circle there is a span.
-/

namespace ScriptTyping

/-- What a type is asked for. -/
inductive Reading where
  | call (env : Environment)
  | construct (env : Environment)
  | member

namespace Reading

/-- The environment that is applied to every type before it is asked. -/
def env? : Reading → Option Environment
  | call env | construct env => some env
  | member => none

/-- The parts of a layer that are asked next. -/
def passed : Reading → TypeData → List TypeId
  | call _, .union members | member, .union members => members
  | call _, .intersection members | construct _, .intersection members
  | member, .intersection members => members
  | call _, .thisType (some bound) | construct _, .thisType (some bound)
  | call _, .wildcard (some bound) .upper | construct _, .wildcard (some bound) .upper
  | member, .metaType bound _ => [bound]
  | _, _ => []

/-- What the environment puts in place of a type, after any number of replacements. -/
def Follows (r : Reading) (T : TypeTable) : TypeId → TypeId → Prop :=
  Relation.ReflTransGen fun t s => ∃ env d, r.env? = some env ∧ T.lookup t = .typeVariable d ∧
    env.substitution? d = some s

/-- All types of the environment belong to the table. -/
def Within (r : Reading) (T : TypeTable) : Prop := ∀ env, r.env? = some env → env.Within T

theorem mem_parts_of_passed {r : Reading} {data : TypeData} {s : TypeId} (h : s ∈ r.passed data) :
    s ∈ data.parts := by
  revert h
  cases r <;> cases data with
  | thisType bound => cases bound <;> simp [passed, TypeData.parts]
  | wildcard bound kind => cases bound <;> cases kind <;> simp [passed, TypeData.parts]
  | _ => simp [passed, TypeData.parts]

variable {r : Reading} {T T' : TypeTable} {t s : TypeId}

theorem Follows.has (hr : r.Within T) (ht : T.Has t) (h : r.Follows T t s) : T.Has s := by
  induction h with
  | refl => exact ht
  | tail _ hstep _ =>
    obtain ⟨env, d, henv, -, hd⟩ := hstep
    exact (hr env henv).substitution d _ hd

/-- No more is followed in a later table. -/
theorem Follows.of_le (hle : T ≤ T') (hr : r.Within T) (ht : T.Has t) (h : r.Follows T' t s) :
    r.Follows T t s := by
  induction h with
  | refl => exact .refl
  | tail _ hstep ih =>
    obtain ⟨env, d, henv, hlookup, hd⟩ := hstep
    rw [TypeTable.lookup_of_le hle (ih.has hr ht)] at hlookup
    exact ih.tail ⟨env, d, henv, hlookup, hd⟩

end Reading

namespace World

/-- The type parameters, the arguments and the declared type of a reference to an alias. -/
def aliasBody? (w : World) : TypeData → Option (List DeclId × List TypeId × TypeId)
  | .nominal decl args =>
    match w.decl? decl with
    | some info =>
      match info.kind, info.declaredType with
      | .typeAlias, some aliased => some (info.typeParams, args, aliased)
      | _, _ => none
    | none => none
  | _ => none

variable {w : World} {r : Reading} {T T' : TypeTable} {s t u : TypeId} {d : DeclId}
  {spans : DeclId → Option Nat} {n m rounds : Nat} {params : List DeclId} {args : List TypeId}
  {aliased : TypeId}

theorem exists_of_aliasBody? {data : TypeData}
    (h : w.aliasBody? data = some (params, args, aliased)) :
    ∃ decl info, data = .nominal decl args ∧ w.decl? decl = some info ∧
      info.declaredType = some aliased := by
  cases data with
  | nominal decl args' =>
    rw [aliasBody?] at h
    split at h
    · rename_i info hdecl
      split at h
      · rename_i hdeclared
        cases h
        exact ⟨decl, info, rfl, hdecl, hdeclared⟩
      · cases h
    · cases h
  | _ => cases h

/-! ### The graph -/

/-- The types that are asked in place of a type variable or an unbound `this`. -/
inductive StandsFor (w : World) (r : Reading) (T : TypeTable) (t : TypeId) : TypeId → Prop
  | bound {v : TypeId} {d : DeclId} (hasked : r.env?.isSome) (hchain : r.Follows T t v)
      (hv : T.lookup v = .typeVariable d) : StandsFor w r T t (w.declarations.variableBound d)
  | replacement {s : TypeId} {d : DeclId} (ht : T.lookup t = .typeVariable d)
      (hchain : r.Follows T t s) (hs : ∀ d, T.lookup s ≠ .typeVariable d) : StandsFor w r T t s
  | receiver {s : TypeId} {env : Environment} (henv : r.env? = some env)
      (ht : T.lookup t = .thisType none) (hs : env.this? = some s) : StandsFor w r T t s

/-- The type hands on to a type variable, from which an argument may take over. -/
inductive Surfaces (w : World) (r : Reading) (T : TypeTable) : TypeId → DeclId → Prop
  | variable {t : TypeId} {d : DeclId} (ht : T.lookup t = .typeVariable d) : Surfaces w r T t d
  | part {t s : TypeId} {d : DeclId} (hs : s ∈ r.passed (T.lookup t))
      (h : Surfaces w r T s d) : Surfaces w r T t d
  | argument {t aliased : TypeId} {params : List DeclId} {args : List TypeId} {p : DeclId}
      {a : TypeId} {d : DeclId} (ht : w.aliasBody? (T.lookup t) = some (params, args, aliased))
      (hpair : (p, a) ∈ params.zip args) (hp : Surfaces w r T aliased p)
      (ha : Surfaces w r T a d) : Surfaces w r T t d

/-- The second type may be asked after the first one, and nothing guards this step. -/
inductive HandsOn (w : World) (r : Reading) (T : TypeTable) (t : TypeId) : TypeId → Prop
  | part {s : TypeId} (hs : s ∈ r.passed (T.lookup t)) : HandsOn w r T t s
  | stand {s : TypeId} (hs : w.StandsFor r T t s) : HandsOn w r T t s
  | argument {params : List DeclId} {args : List TypeId} {aliased : TypeId} {p : DeclId}
      {s : TypeId} (ht : w.aliasBody? (T.lookup t) = some (params, args, aliased))
      (hpair : (p, s) ∈ params.zip args) (hp : Surfaces w r T aliased p) : HandsOn w r T t s

/-- The first type is a reference to an alias of the second. -/
def StandsAs (w : World) (T : TypeTable) (t s : TypeId) : Prop :=
  ∃ params args, w.aliasBody? (T.lookup t) = some (params, args, s)

/-- The second type can be reached from the first one. -/
def LeadsTo (w : World) (r : Reading) (T : TypeTable) : TypeId → TypeId → Prop :=
  Relation.ReflTransGen fun t s => w.HandsOn r T t s ∨ w.StandsAs T t s

/-- Nothing that can be reached from the type is handed on in a circle. -/
def NoCircle (w : World) (r : Reading) (T : TypeTable) (t : TypeId) : Prop :=
  ∀ s s', w.LeadsTo r T t s → w.HandsOn r T s s' → ¬w.LeadsTo r T s' s

theorem StandsFor.has (hT : T.WellFormed) (hw : w.Within T) (hr : r.Within T) (ht : T.Has t)
    (h : w.StandsFor r T t s) : T.Has s := by
  cases h with
  | bound => exact hw.variableBound hT _
  | replacement _ hchain => exact hchain.has hr ht
  | receiver henv _ hs => exact (hr _ henv).this s hs

/-- What stands for a type in a later table stood for it before. -/
theorem StandsFor.of_le (hle : T ≤ T') (hr : r.Within T) (ht : T.Has t)
    (h : w.StandsFor r T' t s) : w.StandsFor r T t s := by
  have hsame {v : TypeId} (hchain : r.Follows T' t v) : T'.lookup v = T.lookup v :=
    TypeTable.lookup_of_le hle ((hchain.of_le hle hr ht).has hr ht)
  cases h with
  | bound hasked hchain hv => exact .bound hasked (hchain.of_le hle hr ht) (hsame hchain ▸ hv)
  | replacement hvariable hchain hs =>
    exact .replacement (hsame .refl ▸ hvariable) (hchain.of_le hle hr ht)
      fun d hd => hs d (hsame hchain ▸ hd)
  | receiver henv hthis hs => exact .receiver henv (hsame .refl ▸ hthis) hs

/-- Only a type variable and an unbound `this` are stood for. -/
theorem StandsFor.lookup (h : w.StandsFor r T t s) :
    (∃ d, T.lookup t = .typeVariable d) ∨ T.lookup t = .thisType none := by
  cases h with
  | bound _ hchain hv =>
    rcases hchain.cases_head with rfl | ⟨_, ⟨_, d, -, hd, -⟩, -⟩
    · exact .inl ⟨_, hv⟩
    · exact .inl ⟨d, hd⟩
  | replacement ht => exact .inl ⟨_, ht⟩
  | receiver _ ht => exact .inr ht

/-- What the graph reaches from a type of the table belongs to the table. -/
theorem LeadsTo.has (hT : T.WellFormed) (hw : w.Within T) (hr : r.Within T) (ht : T.Has t)
    (h : w.LeadsTo r T t s) : T.Has s := by
  induction h with
  | refl => exact ht
  | tail _ hstep ih =>
    rcases hstep with hstep | ⟨params, args, hbody⟩
    · cases hstep with
      | part hs => exact hT.hasAll_parts _ _ (Reading.mem_parts_of_passed hs)
      | stand hs => exact hs.has hT hw hr ih
      | argument hbody hpair =>
        obtain ⟨decl, info, hlookup, -, -⟩ := exists_of_aliasBody? hbody
        exact hT.hasAll_of_lookup hlookup _ (List.of_mem_zip hpair).2
    · obtain ⟨decl, info, -, hdecl, hdeclared⟩ := exists_of_aliasBody? hbody
      exact hw.declaredType hdecl hdeclared

/-- There is no circle where every step goes down, and aliases do not go up. -/
theorem noCircle_of_rank (rank : TypeId → Nat)
    (hhandsOn : ∀ a b, rank a ≤ rank t → w.HandsOn r T a b → rank b < rank a)
    (hstandsAs : ∀ a b, rank a ≤ rank t → w.StandsAs T a b → rank b ≤ rank a) :
    w.NoCircle r T t := by
  have hleads {a b : TypeId} (ha : rank a ≤ rank t) (h : w.LeadsTo r T a b) : rank b ≤ rank a := by
    induction h with
    | refl => exact le_rfl
    | tail _ hstep ih =>
      rcases hstep with hstep | hstep
      · exact (hhandsOn _ _ (ih.trans ha) hstep).le.trans ih
      · exact (hstandsAs _ _ (ih.trans ha) hstep).trans ih
  intro s s' hts hss' hback
  have hs := hleads le_rfl hts
  have hlt := hhandsOn s s' hs hss'
  exact absurd (hleads (hlt.le.trans hs) hback) (Nat.not_le_of_lt hlt)

/-! ### Spans -/

/-- How often one question expands aliases. -/
abbrev expansionLimit : Nat := RecursionProfile.hierarchy.maxDepth

/-- The assignment for types in which all replacements were made. -/
abbrev noSpans : DeclId → Option Nat := fun _ => some 0

/-- A type can be handed on less than `n` times, if aliases at its head are expanded at most
`rounds` times, and if what is put in place of a type variable can be handed on less often than the
assignment says.  Nothing may be put in place of a type variable that has no span. -/
inductive Spans (w : World) (r : Reading) (T : TypeTable) :
    (DeclId → Option Nat) → Nat → Nat → TypeId → Prop
  | layer {spans : DeclId → Option Nat} {n rounds : Nat} {t : TypeId} (ht : T.Has t)
      (halias : w.aliasBody? (T.lookup t) = none)
      (hvariable : ∀ d, T.lookup t = .typeVariable d → ∃ k ≤ n + 1, spans d = some k)
      (hparts : ∀ s ∈ r.passed (T.lookup t), Spans w r T spans n expansionLimit s)
      (hstands : ∀ s, w.StandsFor r T t s → Spans w r T noSpans n expansionLimit s) :
      Spans w r T spans (n + 1) rounds t
  | aliased {spans spans' : DeclId → Option Nat} {n rounds : Nat} {t aliased : TypeId}
      {params : List DeclId} {args : List TypeId} (ht : T.Has t)
      (hbody : w.aliasBody? (T.lookup t) = some (params, args, aliased))
      (haliased : Spans w r T spans' n rounds aliased)
      (harguments : ∀ pair ∈ params.zip args, ∀ k, spans' pair.1 = some k →
        Spans w r T spans k expansionLimit pair.2) :
      Spans w r T spans n (rounds + 1) t
  | last {spans : DeclId → Option Nat} {n : Nat} {t : TypeId} (ht : T.Has t)
      (halias : (w.aliasBody? (T.lookup t)).isSome) : Spans w r T spans n 0 t

theorem Spans.has (h : w.Spans r T spans n rounds t) : T.Has t := by
  cases h <;> assumption

/-- A span may be enlarged, and fewer aliases expanded. -/
theorem Spans.mono {rounds' : Nat} (h : w.Spans r T spans n rounds t) (hnm : n ≤ m)
    (hrounds : rounds' ≤ rounds) : w.Spans r T spans m rounds' t := by
  induction h generalizing m rounds' with
  | layer ht halias hvariable _ _ ihparts ihstands =>
    obtain ⟨m, rfl⟩ : ∃ k, m = k + 1 := ⟨m - 1, by omega⟩
    refine .layer ht halias (fun d hd => ?_) (fun s hs => ihparts s hs (by omega) le_rfl)
      fun s hs => ihstands s hs (by omega) le_rfl
    obtain ⟨k, hk, hspan⟩ := hvariable d hd
    exact ⟨k, by omega, hspan⟩
  | aliased ht hbody _ harguments ih _ =>
    cases rounds' with
    | zero => exact .last ht (by rw [hbody]; rfl)
    | succ rounds' => exact .aliased ht hbody (ih hnm (by omega)) harguments
  | last ht halias =>
    obtain rfl : rounds' = 0 := by omega
    exact .last ht halias

/-- Spans stay what they are while the table grows. -/
theorem Spans.of_le (hle : T ≤ T') (hr : r.Within T) (h : w.Spans r T spans n rounds t) :
    w.Spans r T' spans n rounds t := by
  induction h with
  | layer ht halias hvariable _ _ ihparts ihstands =>
    rw [← TypeTable.lookup_of_le hle ht] at halias hvariable ihparts
    exact .layer (ht.of_le hle) halias hvariable ihparts fun s hs => ihstands s (hs.of_le hle hr ht)
  | aliased ht hbody _ _ ih iharguments =>
    rw [← TypeTable.lookup_of_le hle ht] at hbody
    exact .aliased (ht.of_le hle) hbody ih iharguments
  | last ht halias =>
    rw [← TypeTable.lookup_of_le hle ht] at halias
    exact .last (ht.of_le hle) halias

/-! ### Spans exist -/

/-- One span for all types with a property. -/
private theorem exists_forall_spans {P : TypeId → Prop} (hP : ∀ s, P s → T.Has s)
    (h : ∀ s, P s → ∃ n, w.Spans r T spans n rounds s) :
    ∃ n, ∀ s, P s → w.Spans r T spans n rounds s := by
  classical
  choose! span hspan using h
  refine ⟨(Finset.range T.rows.size).sup fun i => span ⟨i⟩, fun s hs => (hspan s hs).mono ?_ le_rfl⟩
  exact Finset.le_sup (f := fun i => span ⟨i⟩) (Finset.mem_range.mpr (hP s hs))

/-- An assignment for the type parameters of an alias, from spans of the arguments. -/
private theorem exists_argumentSpans (hargs : T.HasAll args)
    (h : ∀ pair ∈ params.zip args, w.Surfaces r T aliased pair.1 →
      ∃ n, w.Spans r T spans n expansionLimit pair.2) :
    ∃ spans' : DeclId → Option Nat, (∀ d, w.Surfaces r T aliased d → (spans' d).isSome) ∧
      ∀ pair ∈ params.zip args, ∀ k, spans' pair.1 = some k →
        w.Spans r T spans k expansionLimit pair.2 := by
  classical
  have hspan (p : DeclId) : ∃ n, ∀ a, (p, a) ∈ params.zip args ∧ w.Surfaces r T aliased p →
      w.Spans r T spans n expansionLimit a :=
    exists_forall_spans (fun a ha => hargs a (List.of_mem_zip ha.1).2)
      fun a ha => h (p, a) ha.1 ha.2
  choose span hspan using hspan
  refine ⟨fun p => if w.Surfaces r T aliased p then some (span p) else none,
    fun d hd => by simp only [if_pos hd, Option.isSome_some], fun pair hpair k hk => ?_⟩
  dsimp only at hk
  split at hk
  · rename_i hsurfaces
    obtain rfl := Option.some.inj hk
    exact hspan pair.1 pair.2 ⟨hpair, hsurfaces⟩
  · cases hk

/-- A type has a span if everything has one that it hands on to, and that it stands as when another
alias may be expanded. -/
private theorem exists_spans_of_handsOn (hT : T.WellFormed) (hw : w.Within T) (hr : r.Within T)
    (ht : T.Has t) (hspans : ∀ d, w.Surfaces r T t d → (spans d).isSome)
    (hhandsOn : ∀ s, w.HandsOn r T t s → ∀ spans : DeclId → Option Nat,
      (∀ d, w.Surfaces r T s d → (spans d).isSome) → ∃ n, w.Spans r T spans n expansionLimit s)
    (hstandsAs : ∀ s, w.StandsAs T t s → ∀ left, rounds = left + 1 → ∀ spans : DeclId → Option Nat,
      (∀ d, w.Surfaces r T s d → (spans d).isSome) → ∃ n, w.Spans r T spans n left s) :
    ∃ n, w.Spans r T spans n rounds t := by
  cases hbody : w.aliasBody? (T.lookup t) with
  | none =>
    obtain ⟨k, hk⟩ : ∃ k, ∀ d, T.lookup t = .typeVariable d → spans d = some k := by
      cases hd : T.lookup t with
      | typeVariable d =>
        obtain ⟨k, hk⟩ := Option.isSome_iff_exists.mp (hspans d (.variable hd))
        exact ⟨k, fun d' hd' => by cases hd'; exact hk⟩
      | _ => exact ⟨0, fun d' hd' => by cases hd'⟩
    obtain ⟨n₁, hparts⟩ := exists_forall_spans (P := (· ∈ r.passed (T.lookup t)))
      (fun s hs => hT.hasAll_parts t s (Reading.mem_parts_of_passed hs))
      fun s hs => hhandsOn s (.part hs) spans fun d hd => hspans d (.part hs hd)
    obtain ⟨n₂, hstands⟩ := exists_forall_spans (P := w.StandsFor r T t)
      (fun s hs => hs.has hT hw hr ht) fun s hs => hhandsOn s (.stand hs) noSpans fun d hd => rfl
    exact ⟨n₁ + n₂ + k + 1, .layer ht hbody (fun d hd => ⟨k, by omega, hk d hd⟩)
      (fun s hs => (hparts s hs).mono (by omega) le_rfl)
      fun s hs => (hstands s hs).mono (by omega) le_rfl⟩
  | some body =>
    obtain ⟨params, args, aliased⟩ := body
    cases rounds with
    | zero => exact ⟨0, .last ht (by rw [hbody]; rfl)⟩
    | succ rounds =>
      obtain ⟨decl, info, hlookup, -, -⟩ := exists_of_aliasBody? hbody
      obtain ⟨spans', hsurfaces, harguments⟩ := exists_argumentSpans
        (hT.hasAll_of_lookup hlookup) fun pair hpair hp =>
          hhandsOn pair.2 (.argument hbody hpair hp) spans fun d hd =>
            hspans d (.argument hbody hpair hp hd)
      obtain ⟨n, haliased⟩ := hstandsAs aliased ⟨params, args, hbody⟩ rounds rfl spans' hsurfaces
      exact ⟨n, .aliased ht hbody haliased harguments⟩

/-- Where nothing is handed on in a circle, types have spans. -/
theorem NoCircle.exists_spans (hT : T.WellFormed) (hw : w.Within T) (hr : r.Within T)
    (ht : T.Has t) (h : w.NoCircle r T t) : ∃ n, w.Spans r T noSpans n expansionLimit t := by
  let reached : Set TypeId := {s | w.LeadsTo r T t s}
  have hfinite : reached.Finite := by
    refine ((Set.finite_lt_nat T.rows.size).image TypeId.mk).subset fun s hs => ?_
    exact ⟨s.index, LeadsTo.has hT hw hr ht hs, rfl⟩
  -- Reachability with at least one step that hands on, which is a strict order.
  let below (a b : TypeId) : Prop :=
    b ∈ reached ∧ ∃ s s', w.LeadsTo r T b s ∧ w.HandsOn r T s s' ∧ w.LeadsTo r T s' a
  have : IsStrictOrder TypeId below :=
    { irrefl := fun a ⟨ha, s, s', has, hss', hs'a⟩ => h s s' (ha.trans has) hss' (hs'a.trans has)
      trans := fun a b c ⟨_, s, s', hbs, hss', hs'a⟩ ⟨hc, u, u', hcu, huu', hu'b⟩ =>
        ⟨hc, u, u', hcu, huu', (hu'b.trans hbs).trans (.head (.inl hss') hs'a)⟩ }
  have hspans := hfinite.wellFoundedOn.induction (r := below) (x := t) .refl
    (P := fun s => ∀ rounds (spans : DeclId → Option Nat),
      (∀ d, w.Surfaces r T s d → (spans d).isSome) → ∃ n, w.Spans r T spans n rounds s)
    fun s hs ih => ?_
  · exact hspans expansionLimit noSpans fun _ _ => rfl
  -- Aliases that stand as one another are not below one another: the rounds decrease instead.
  suffices ∀ rounds s', Relation.ReflTransGen (w.StandsAs T) s s' → ∀ spans : DeclId → Option Nat,
      (∀ d, w.Surfaces r T s' d → (spans d).isSome) → ∃ n, w.Spans r T spans n rounds s' from
    fun rounds => this rounds s .refl
  have hstep {rounds : Nat} {s' : TypeId} (hs' : Relation.ReflTransGen (w.StandsAs T) s s')
      {spans : DeclId → Option Nat} (hsurfaces : ∀ d, w.Surfaces r T s' d → (spans d).isSome)
      (hstandsAs : ∀ a, w.StandsAs T s' a → ∀ left, rounds = left + 1 →
        ∀ spans : DeclId → Option Nat, (∀ d, w.Surfaces r T a d → (spans d).isSome) →
          ∃ n, w.Spans r T spans n left a) : ∃ n, w.Spans r T spans n rounds s' := by
    have hleads : w.LeadsTo r T s s' := hs'.lift id fun _ _ => .inr
    refine exists_spans_of_handsOn hT hw hr (LeadsTo.has hT hw hr ht (hs.trans hleads)) hsurfaces
      (fun a ha => ?_) hstandsAs
    exact ih a ((hs.trans hleads).tail (.inl ha)) ⟨hs, s', a, hleads, ha, .refl⟩ expansionLimit
  intro rounds
  induction rounds with
  | zero => exact fun s' hs' spans hsurfaces => hstep hs' hsurfaces fun a ha left hleft => by omega
  | succ rounds ihrounds =>
    refine fun s' hs' spans hsurfaces => hstep hs' hsurfaces fun a ha left hleft => ?_
    obtain rfl : rounds = left := by omega
    exact ihrounds a (hs'.tail ha)

end World

end ScriptTyping
