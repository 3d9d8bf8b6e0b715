import Mathlib.Logic.Relation
import ScriptTyping.Proofs.Environment.Relaxation
import ScriptTyping.Proofs.Stability.Substitution
import ScriptTyping.Proofs.Table.Recall

/-!
# Substitution layer by layer

A traversal matters to a type only through the declarations that it mentions, as type variables or
as open type parameters: every other layer is rebuilt from its parts.  Two traversals that do the
same with those declarations are the same computation.

## Main definitions

* `TypeTable.Mentions` — the type variables and open type parameters in a type.
* `TypeM.Coincide` — two computations do the same from a table on.

## Main results

* `Traversal.recalls_apply` — nothing happens to a type that mentions nothing replaced.
* `Traversal.coincide_apply` — traversals that do the same with what a type mentions.
-/

namespace ScriptTyping

/-! ### Computations that do the same -/

namespace TypeM

variable {α β γ δ : Type} {T : TypeTable} {V : α → β → Prop} {W : γ → δ → Prop}

/-- From the table on, both computations return related results and leave the same table. -/
def Coincide (T : TypeTable) (x : TypeM α) (y : TypeM β) (V : α → β → Prop) : Prop :=
  ∀ T', T ≤ T' → ∃ a b T'', x T' = .ok a T'' ∧ y T' = .ok b T'' ∧ T' ≤ T'' ∧ V a b

/-- Doing the same as a relation that sequencing respects. -/
def coincidence (T : TypeTable) : RunLogic TypeM where
  rel := Coincide T
  return' h T' _ := ⟨_, _, T', rfl, rfl, le_rfl, h⟩
  bind := by
    intro α β γ δ V W x y f g hx hf T' hle
    obtain ⟨a, b, T₁, ha, hb, hle₁, hab⟩ := hx T' hle
    obtain ⟨c, d, T₂, hc, hd, hle₂, hcd⟩ := hf a b hab T₁ (le_trans hle hle₁)
    exact ⟨c, d, T₂, bind_eq_ok.mpr ⟨a, T₁, ha, hc⟩, bind_eq_ok.mpr ⟨b, T₁, hb, hd⟩,
      le_trans hle₁ hle₂, hcd⟩

/-- Computations that coincide and return equal results are equal from the table on. -/
theorem Coincide.eq {T' : TypeTable} {x y : TypeM α} (h : Coincide T x y Eq) (hle : T ≤ T') :
    x T' = y T' := by
  obtain ⟨a, _, T'', ha, hb, -, rfl⟩ := h T' hle
  rw [ha, hb]

/-- A row of the table reads the same from then on. -/
theorem Coincide.lookup {t : TypeId} {f : TypeData → TypeM α} {g : TypeData → TypeM β}
    (ht : T.Has t) (h : Coincide T (f (T.lookup t)) (g (T.lookup t)) V) :
    Coincide T (TypeM.lookup t >>= f) (TypeM.lookup t >>= g) V := by
  intro T' hle
  have hrow := TypeTable.lookup_of_le hle ht
  change ∃ a b T'', f (T'.lookup t) T' = .ok a T'' ∧ g (T'.lookup t) T' = .ok b T'' ∧ _
  rw [hrow]
  exact h T' hle

theorem coincide_intern (data : TypeData) : Coincide T (intern data) (intern data) Eq :=
  fun T' _ => ⟨_, _, (T'.intern data).2, rfl, rfl, TypeTable.le_intern T' data, rfl⟩

theorem Coincide.recalls {x : TypeM α} {a : α} (h : Coincide T x (Pure.pure a) Eq) :
    Recalls x T a :=
  fun _ hle => h.eq hle

theorem Recalls.coincide {x : TypeM α} {a : α} (h : Recalls x T a) :
    Coincide T x (Pure.pure a) Eq :=
  fun T' hle => ⟨a, a, T', h T' hle, rfl, le_rfl, rfl⟩

end TypeM

/-! ### The layers that come out -/

/-- Layers of one kind whose parts are related; the parts of signatures and object shapes may be
any. -/
inductive TypeData.Alike (R : TypeId → TypeId → Prop) : TypeData → TypeData → Prop
  | nominal {decl : DeclId} {args args' : List TypeId} (h : List.Forall₂ R args args') :
      Alike R (.nominal decl args) (.nominal decl args')
  | union {members members' : List TypeId} (h : List.Forall₂ R members members') :
      Alike R (.union members) (.union members')
  | intersection {members members' : List TypeId} (h : List.Forall₂ R members members') :
      Alike R (.intersection members) (.intersection members')
  | function {signature signature' : Signature} :
      Alike R (.function signature) (.function signature')
  | structural {members members' : List Property} :
      Alike R (.structural members) (.structural members')
  | thisType {bound bound' : TypeId} (h : R bound bound') :
      Alike R (.thisType (some bound)) (.thisType (some bound'))
  | wildcard {bound bound' : TypeId} {kind : WildcardKind} (h : R bound bound') :
      Alike R (.wildcard (some bound) kind) (.wildcard (some bound') kind)
  | metaType {arg arg' : TypeId} {isConstructor : Bool} (h : R arg arg') :
      Alike R (.metaType arg isConstructor) (.metaType arg' isConstructor)
  | leaf {data : TypeData} (h : data.parts = []) : Alike R data data

/-- The parts of a rebuilt layer are what became of the parts. -/
theorem TypeData.alike_of_rebuild {f : TypeId → TypeM TypeId} {keep : DeclId → Bool}
    {data data' : TypeData} {T T' : TypeTable} (hT : T.WellFormed)
    (hf : ∀ s ∈ data.parts, ∀ T', T.GrowsTo T' → TypeM.Stable (f s) T' fun _ _ => True)
    (h : data.rebuild f keep T = .ok data' T') :
    data.Alike (fun s u => TypeM.Recalls (f s) T' u) data' := by
  have hlist {ts us : List TypeId} {T₁ : TypeTable} (hts : ∀ s ∈ ts, s ∈ data.parts)
      (hrun : ts.mapM f T = .ok us T₁) : List.Forall₂ (fun s u => TypeM.Recalls (f s) T₁ u) ts us :=
    (TypeM.Stable.mapM_recalls ts hT (fun s hs => hf s (hts s hs)) us T₁ hrun).2.1
  have hpart {s u : TypeId} {T₁ : TypeTable} (hs : s ∈ data.parts) (hrun : f s T = .ok u T₁) :
      TypeM.Recalls (f s) T₁ u :=
    (hf s hs T (.refl hT) u T₁ hrun).2.2
  cases data with
  | nominal decl args =>
    obtain ⟨args', T₁, hrun, h⟩ := TypeM.bind_eq_ok.mp h
    obtain ⟨rfl, rfl⟩ := TypeM.pure_eq_ok.mp h
    exact .nominal (hlist (fun _ hs => hs) hrun)
  | union members =>
    obtain ⟨members', T₁, hrun, h⟩ := TypeM.bind_eq_ok.mp h
    obtain ⟨rfl, rfl⟩ := TypeM.pure_eq_ok.mp h
    exact .union (hlist (fun _ hs => hs) hrun)
  | intersection members =>
    obtain ⟨members', T₁, hrun, h⟩ := TypeM.bind_eq_ok.mp h
    obtain ⟨rfl, rfl⟩ := TypeM.pure_eq_ok.mp h
    exact .intersection (hlist (fun _ hs => hs) hrun)
  | structural members =>
    obtain ⟨members', T₁, hrun, h⟩ := TypeM.bind_eq_ok.mp h
    obtain ⟨rfl, rfl⟩ := TypeM.pure_eq_ok.mp h
    exact .structural
  | function signature =>
    obtain ⟨params, T₁, -, h⟩ := TypeM.bind_eq_ok.mp h
    obtain ⟨returnType, T₂, -, h⟩ := TypeM.bind_eq_ok.mp h
    obtain ⟨thisType, T₃, -, h⟩ := TypeM.bind_eq_ok.mp h
    obtain ⟨rfl, rfl⟩ := TypeM.pure_eq_ok.mp h
    exact .function
  | thisType bound =>
    cases bound with
    | none =>
      obtain ⟨rfl, rfl⟩ := TypeM.pure_eq_ok.mp h
      exact .leaf rfl
    | some bound =>
      obtain ⟨bound', T₁, hrun, h⟩ := TypeM.bind_eq_ok.mp h
      obtain ⟨rfl, rfl⟩ := TypeM.pure_eq_ok.mp h
      exact .thisType (hpart (List.mem_singleton_self _) hrun)
  | wildcard bound kind =>
    cases bound with
    | none =>
      obtain ⟨rfl, rfl⟩ := TypeM.pure_eq_ok.mp h
      exact .leaf rfl
    | some bound =>
      obtain ⟨bound', T₁, hrun, h⟩ := TypeM.bind_eq_ok.mp h
      obtain ⟨rfl, rfl⟩ := TypeM.pure_eq_ok.mp h
      exact .wildcard (hpart (List.mem_singleton_self _) hrun)
  | metaType arg isConstructor =>
    obtain ⟨arg', T₁, hrun, h⟩ := TypeM.bind_eq_ok.mp h
    obtain ⟨rfl, rfl⟩ := TypeM.pure_eq_ok.mp h
    exact .metaType (hpart (List.mem_singleton_self _) hrun)
  | _ =>
    obtain ⟨rfl, rfl⟩ := TypeM.pure_eq_ok.mp h
    exact .leaf rfl

theorem TypeData.Alike.mono {R R' : TypeId → TypeId → Prop} {data data' : TypeData}
    (h : data.Alike R data') (hR : ∀ s u, R s u → R' s u) : data.Alike R' data' := by
  cases h with
  | nominal h => exact .nominal (h.imp hR)
  | union h => exact .union (h.imp hR)
  | intersection h => exact .intersection (h.imp hR)
  | function => exact .function
  | structural => exact .structural
  | thisType h => exact .thisType (hR _ _ h)
  | wildcard h => exact .wildcard (hR _ _ h)
  | metaType h => exact .metaType (hR _ _ h)
  | leaf h => exact .leaf h

/-- A layer that is no type variable and no unbound `this` comes out with traversed parts. -/
theorem Traversal.alike_of_apply {r : Traversal} {room : Nat} {T T' : TypeTable} {t u : TypeId}
    (hT : T.WellFormed) (hr : r.Within T) (ht : T.Has t) (hintrinsic : t.isIntrinsic = false)
    (hvariable : ∀ d, T.lookup t ≠ .typeVariable d) (hthis : T.lookup t ≠ .thisType none)
    (h : r.apply (room + 1) t T = .ok u T') :
    (T.lookup t).Alike (fun s u => TypeM.Recalls (r.apply room s) T' u) (T'.lookup u) := by
  obtain ⟨hg, -, -⟩ := stable_apply (room + 1) hT hr ht u T' h
  rw [apply_succ, if_neg (by simp [hintrinsic])] at h
  obtain ⟨data, T₁, hread, h⟩ := TypeM.bind_eq_ok.mp h
  obtain ⟨rfl, rfl⟩ := TypeM.pure_eq_ok.mp hread
  rw [visit_of_not_site hvariable hthis] at h
  obtain ⟨data', T₁, hrebuild, h⟩ := TypeM.bind_eq_ok.mp h
  have halike := TypeData.alike_of_rebuild hT (fun s hs T₂ hg₂ =>
    (stable_apply room hg₂.wellFormed (hr.of_le hg₂.le)
      ((hT.hasAll_parts t s hs).of_le hg₂.le)).mono fun _ _ _ _ => trivial) hrebuild
  split at h
  · rename_i hsame
    obtain ⟨rfl, rfl⟩ := TypeM.pure_eq_ok.mp h
    rw [TypeTable.lookup_of_le hg.le ht, ← hsame]
    exact hsame ▸ halike
  · have hintern : EStateM.Result.ok (T₁.intern data').1 (T₁.intern data').2 = .ok u T' := h
    injection hintern with hu hT'
    subst hu hT'
    rw [TypeTable.lookup_eq (hg.wellFormed.handles_sound _ _ (TypeTable.handles_intern T₁ data'))]
    exact halike.mono fun s u hrecalls => hrecalls.of_le (TypeTable.le_intern T₁ data')

/-- A reference comes out as a reference to the same declaration. -/
theorem Traversal.lookup_apply_nominal {r : Traversal} {room : Nat} {T T' : TypeTable}
    {t u : TypeId} {d : DeclId} {args : List TypeId} (hT : T.WellFormed) (hr : r.Within T)
    (hHas : T.Has t) (ht : T.lookup t = .nominal d args) (h : r.apply room t T = .ok u T') :
    ∃ args', T'.lookup u = .nominal d args' := by
  cases room with
  | zero =>
    obtain ⟨rfl, rfl⟩ := TypeM.pure_eq_ok.mp h
    exact ⟨args, ht⟩
  | succ room =>
    by_cases hintrinsic : t.isIntrinsic = true
    · rw [Traversal.apply_succ, if_pos hintrinsic] at h
      obtain ⟨rfl, rfl⟩ := TypeM.pure_eq_ok.mp h
      exact ⟨args, ht⟩
    have halike := Traversal.alike_of_apply hT hr hHas (by simpa using hintrinsic)
      (by rw [ht]; exact nofun) (by rw [ht]; exact nofun) h
    rw [ht] at halike
    generalize T'.lookup u = data at halike
    cases halike with
    | nominal => exact ⟨_, rfl⟩
    | leaf => exact ⟨args, rfl⟩

/-! ### What a type mentions -/

namespace TypeTable

/-- The second type stands in the first, at any depth. -/
def Occurs (T : TypeTable) : TypeId → TypeId → Prop :=
  Relation.ReflTransGen fun t s => s ∈ (T.lookup t).parts

/-- The declaration stands in the type, as a type variable or as an open type parameter. -/
def Mentions (T : TypeTable) (t : TypeId) (d : DeclId) : Prop :=
  ∃ s, T.Occurs t s ∧ (T.lookup s = .typeVariable d ∨ d ∈ (T.lookup s).opens)

/-- An unbound `this` stands in the type. -/
def MentionsThis (T : TypeTable) (t : TypeId) : Prop :=
  ∃ s, T.Occurs t s ∧ T.lookup s = .thisType none

variable {T : TypeTable} {t s u : TypeId} {d : DeclId}

theorem Occurs.of_part (hs : s ∈ (T.lookup t).parts) (h : T.Occurs s u) : T.Occurs t u :=
  .head hs h

/-- What stands in a type is in every list that holds the type and the parts of its elements. -/
theorem Occurs.mem {l : List TypeId} (h : T.Occurs t s) (ht : t ∈ l)
    (hl : ∀ u ∈ l, ∀ part ∈ (T.lookup u).parts, part ∈ l) : s ∈ l := by
  induction h with
  | refl => exact ht
  | tail _ hpart ih => exact hl _ ih _ hpart

theorem mentions_variable (h : T.lookup t = .typeVariable d) : T.Mentions t d :=
  ⟨t, .refl, .inl h⟩

theorem mentions_opens (h : d ∈ (T.lookup t).opens) : T.Mentions t d := ⟨t, .refl, .inr h⟩

theorem Mentions.of_part (hs : s ∈ (T.lookup t).parts) (h : T.Mentions s d) : T.Mentions t d := by
  obtain ⟨u, hu, hd⟩ := h
  exact ⟨u, hu.of_part hs, hd⟩

theorem MentionsThis.of_part (hs : s ∈ (T.lookup t).parts) (h : T.MentionsThis s) :
    T.MentionsThis t := by
  obtain ⟨u, hu, hthis⟩ := h
  exact ⟨u, hu.of_part hs, hthis⟩

end TypeTable

namespace Traversal

variable {r : Traversal} {T : TypeTable}

/-- Nothing happens to a type in which nothing is replaced. -/
theorem recalls_apply (hT : T.WellFormed) (room : Nat) : ∀ {t : TypeId}, T.Has t →
    (∀ d, T.Mentions t d → r.resolve d = none) → (r.thisType = none ∨ ¬T.MentionsThis t) →
    TypeM.Recalls (r.apply room t) T t := by
  induction room with
  | zero => exact fun _ _ _ => .pure _
  | succ room ih =>
    intro t ht hmentions hthis
    have hparts : ∀ s ∈ (T.lookup t).parts, TypeM.Coincide T (r.apply room s) (pure s) Eq :=
      fun s hs => (ih (hT.hasAll_parts t s hs) (fun d hd => hmentions d (hd.of_part hs))
        (hthis.imp_right fun hfree hs' => hfree (hs'.of_part hs))).coincide
    have hopens : ∀ param ∈ (T.lookup t).opens, (r.resolve param).isNone = true :=
      fun param hparam => by rw [hmentions param (TypeTable.mentions_opens hparam)]; rfl
    have hrebuild := (TypeM.coincidence T).rebuild (T.lookup t) hparts hopens
    rw [TypeData.rebuild_pure] at hrebuild
    rw [apply_succ]
    split
    · exact .pure t
    intro T' hle
    change r.visit room t (T'.lookup t) T' = _
    rw [TypeTable.lookup_of_le hle ht]
    revert T'
    obtain ⟨d, hd⟩ | hd | hvisit := visit_cases (T.lookup t)
    · simp only [hd, visit, hmentions d (TypeTable.mentions_variable hd)]
      exact TypeM.Recalls.pure t
    · have hnone : r.thisType = none := hthis.resolve_right fun hfree => hfree ⟨t, .refl, hd⟩
      simp only [hd, visit, hnone]
      exact TypeM.Recalls.pure t
    · rw [hvisit]
      exact hrebuild.recalls.bind (by simp only [↓reduceIte]; exact .pure t)

theorem coincide_bindThis (receiver : TypeId) :
    TypeM.Coincide T (bindThis receiver) (bindThis receiver) Eq := by
  intro T' _
  by_cases hbound : (T'.lookup receiver).isBoundThis = true
  · have hrun : bindThis receiver T' = .ok receiver T' := by
      change (if (T'.lookup receiver).isBoundThis = true then _ else _ : TypeM TypeId) T' = _
      rw [if_pos hbound]
      rfl
    exact ⟨_, _, T', hrun, hrun, le_rfl, rfl⟩
  · have hrun : bindThis receiver T' = .ok (T'.intern (.thisType (some receiver))).1
        (T'.intern (.thisType (some receiver))).2 := by
      change (if (T'.lookup receiver).isBoundThis = true then _ else _ : TypeM TypeId) T' = _
      rw [if_neg hbound]
      rfl
    exact ⟨_, _, _, hrun, hrun, TypeTable.le_intern T' _, rfl⟩

/-- Two traversals that do the same with the type variables and the open type parameters in a type
do the same with the type. -/
theorem coincide_apply {r' : Traversal} (hT : T.WellFormed) (hthis : r'.thisType = r.thisType)
    (room : Nat) : ∀ {t : TypeId}, T.Has t →
    (∀ s d, T.Occurs t s → s.isIntrinsic = false → T.lookup s = .typeVariable d → ∀ room,
      TypeM.Coincide T (r.visit room s (.typeVariable d)) (r'.visit room s (.typeVariable d)) Eq) →
    (∀ s, T.Occurs t s → ∀ d ∈ (T.lookup s).opens,
      (r.resolve d).isNone = (r'.resolve d).isNone) →
    TypeM.Coincide T (r.apply room t) (r'.apply room t) Eq := by
  induction room with
  | zero => exact fun _ _ _ => (TypeM.coincidence T).same _
  | succ room ih =>
    intro t ht hvariables hopens
    have hparts : ∀ s ∈ (T.lookup t).parts,
        TypeM.Coincide T (r.apply room s) (r'.apply room s) Eq := fun s hs =>
      ih (hT.hasAll_parts t s hs) (fun u d hu => hvariables u d (hu.of_part hs))
        fun u hu => hopens u (hu.of_part hs)
    have hrebuild := (TypeM.coincidence T).rebuild (T.lookup t) hparts (hopens t .refl)
    rw [apply_succ, apply_succ]
    split
    · exact (TypeM.coincidence T).same t
    rename_i hintrinsic
    refine .lookup ht ?_
    obtain ⟨d, hd⟩ | hd | hvisit := visit_cases (T.lookup t)
    · rw [hd]
      exact hvariables t d .refl (Bool.eq_false_iff.mpr hintrinsic) hd room
    · simp only [hd, visit, hthis]
      cases r.thisType with
      | none => exact (TypeM.coincidence T).same t
      | some receiver => exact coincide_bindThis receiver
    · rw [hvisit, hvisit]
      -- A layer whose parts are unchanged stands for itself; otherwise it is stored with new parts.
      refine (TypeM.coincidence T).bindEq hrebuild fun data' => ?_
      split
      · exact (TypeM.coincidence T).same t
      · exact TypeM.coincide_intern data'

end Traversal

/-! ### The two substitutions -/

variable {T T' : TypeTable} {t : TypeId}

namespace Substitution

theorem thisType_ofArgs (params : List DeclId) (args : List TypeId) :
    (ofArgs params args).thisType = none := by
  have hfold : ∀ (pairs : List (DeclId × TypeId)) (s : Substitution),
      (pairs.foldl (fun s pair => s.insert pair.1 pair.2) s).thisType = s.thisType := by
    intro pairs
    induction pairs with
    | nil => exact fun _ => rfl
    | cons pair pairs ih => exact fun s => ih _
  exact hfold _ _

/-- Only arguments stand for type parameters. -/
theorem mem_zip_of_get?_ofArgs {params : List DeclId} {args : List TypeId} {d : DeclId} {a : TypeId}
    (h : (ofArgs params args).get? d = some a) : (d, a) ∈ params.zip args := by
  have hfold : ∀ (pairs : List (DeclId × TypeId)) (s : Substitution),
      (pairs.foldl (fun s pair => s.insert pair.1 pair.2) s).replacements ⊆
        s.replacements ++ pairs := by
    intro pairs
    induction pairs with
    | nil => exact fun s => (List.append_nil s.replacements).symm ▸ List.Subset.refl _
    | cons pair pairs ih =>
      intro s entry hentry
      rcases List.mem_append.mp (ih _ hentry) with hmem | hmem
      · rcases List.mem_append.mp hmem with hmem | hmem
        · exact List.mem_append_left _ (List.mem_of_mem_filter hmem)
        · exact List.mem_append_right _ (List.mem_singleton.mp hmem ▸ List.mem_cons_self ..)
      · exact List.mem_append_right _ (List.mem_cons_of_mem _ hmem)
  obtain ⟨before, after, hlist, -⟩ := List.lookup_eq_some_iff.mp h
  refine hfold (params.zip args) {} (?_ : (d, a) ∈ (ofArgs params args).replacements)
  rw [hlist]
  exact List.mem_append_right _ (List.mem_cons_self ..)

end Substitution

/-- An explicit substitution is its traversal, also when there is nothing to replace. -/
theorem Substitution.instantiate_eq_run (s : Substitution) (hT : T.WellFormed) (ht : T.Has t)
    (hle : T ≤ T') : s.instantiate t T' = s.traversal.run t T' := by
  rw [instantiate]
  split
  · rename_i hempty
    obtain ⟨hreplacements, hthis⟩ := Bool.and_eq_true_iff.mp hempty
    refine (Traversal.recalls_apply hT _ ht (fun d _ => ?_) (.inl ?_) T' hle).symm
    · change s.get? d = none
      rw [get?, List.isEmpty_iff.mp hreplacements, List.lookup_nil]
    · exact Option.isNone_iff_eq_none.mp hthis
  · rfl

/-- What an environment substitutes is its traversal, also when there is nothing to replace. -/
theorem Environment.substitute_eq_run (env : Environment) (hT : T.WellFormed) (ht : T.Has t)
    (hle : T ≤ T') : env.substitute t T' = env.traversal.run t T' := by
  rw [substitute]
  split
  · rename_i hempty
    obtain ⟨hthis, hnone⟩ := Bool.and_eq_true_iff.mp hempty
    exact (Traversal.recalls_apply hT _ ht
      (fun d _ => substitution?_eq_none (Bool.not_eq_true' _ |>.mp hnone) d)
      (.inl (Option.isNone_iff_eq_none.mp hthis)) T' hle).symm
  · rfl

/-- What an environment replaces in a reference leaves a reference to the same declaration. -/
theorem Environment.lookup_substitute_nominal {env : Environment} {u : TypeId} {d : DeclId}
    {args : List TypeId} (hT : T.WellFormed) (henv : env.Within T) (ht : T.Has t)
    (hrow : T.lookup t = .nominal d args) (h : env.substitute t T = .ok u T') :
    ∃ args', T'.lookup u = .nominal d args' := by
  rw [substitute_eq_run env hT ht le_rfl] at h
  exact Traversal.lookup_apply_nominal hT ⟨henv.substitution, henv.this⟩ ht hrow h

/-- The unknown type holds nothing to replace. -/
theorem Environment.substitute_unknown (env : Environment) :
    env.substitute .unknown = pure .unknown := by
  rw [substitute]
  split
  · rfl
  · rfl

end ScriptTyping
