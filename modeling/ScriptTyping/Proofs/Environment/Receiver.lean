import ScriptTyping.Proofs.Environment.Congruence
import ScriptTyping.Proofs.Hierarchy.Closure

/-!
# The type arguments of a receiver

An environment for the members of a receiver is written from a list of pairs: for each reference
among the receiver and its super types, the type parameters with the arguments.  The first pair of a
type parameter decides, and it is left out when the argument is the parameter itself.

## Main definitions

* `World.argumentPairs` — the pairs that a reference contributes.
* `World.RecordedFrom` — the replacements recorded from a list of pairs.

## Main results

* `World.yields_receiverBindings` — what a receiver passes on.
* `Environment.substitution?_extend` — what an environment replaces after several writes.
-/

namespace ScriptTyping

/-! ### Writing several replacements -/

theorem lookup_eq_none_of_notMem {pairs : List (DeclId × TypeId)} {d : DeclId}
    (h : d ∉ pairs.map Prod.fst) : pairs.lookup d = none := by
  rw [List.lookup_eq_none_iff]
  intro pair hpair
  simp only [bne_iff_ne, ne_eq]
  rintro rfl
  exact h (List.mem_map_of_mem hpair)

namespace Environment

theorem substitution?_addSubstitution (env : Environment) (param : DeclId) (replacement : TypeId)
    (d : DeclId) : (env.addSubstitution param replacement).substitution? d =
      if d = param then some replacement else env.substitution? d := by
  rw [addSubstitution, substitution?, get?_put]
  by_cases h : d = param
  · simp [h, EnvValue.type?]
  · simp [h, substitution?]

/-- The pairs of an association list with different keys are written in any order. -/
theorem substitution?_extend {bindings : List (DeclId × TypeId)} (d : DeclId) :
    ∀ {env : Environment}, (bindings.map Prod.fst).Nodup →
      (env.extend bindings).substitution? d = (bindings.lookup d).or (env.substitution? d) := by
  induction bindings with
  | nil => exact fun _ => rfl
  | cons binding bindings ih =>
    intro env hnodup
    rw [List.map_cons, List.nodup_cons] at hnodup
    change ((env.addSubstitution binding.1 binding.2).extend bindings).substitution? d = _
    rw [ih hnodup.2, substitution?_addSubstitution, lookup_cons_pair]
    by_cases h : d = binding.1
    · have hnone : bindings.lookup binding.1 = none := lookup_eq_none_of_notMem hnodup.1
      simp [h, hnone]
    · simp [h]

theorem this?_extend (bindings : List (DeclId × TypeId)) :
    ∀ env : Environment, (env.extend bindings).this? = env.this? := by
  induction bindings with
  | nil => exact fun _ => rfl
  | cons binding bindings ih =>
    intro env
    change ((env.addSubstitution binding.1 binding.2).extend bindings).this? = _
    rw [ih, addSubstitution, this?, get?_put, if_neg (by simp), this?]

end Environment

namespace World

variable {w : World} {T T' : TypeTable} {pairs : List (DeclId × TypeId)}
  {state : List (DeclId × TypeId) × List DeclId}

/-- The type parameters with the arguments of a reference to a declared type. -/
def argumentPairs (w : World) : TypeData → List (DeclId × TypeId)
  | .nominal decl args =>
    match w.decl? decl with
    | some info => info.typeParams.zip args
    | none => []
  | _ => []

/-- The state after a list of pairs: all type parameters of the list were met, and the first
argument of each is recorded unless it is the type parameter itself. -/
structure RecordedFrom (T : TypeTable) (pairs : List (DeclId × TypeId))
    (state : List (DeclId × TypeId) × List DeclId) : Prop where
  seen : ∀ p, p ∈ state.2 ↔ (pairs.lookup p).isSome
  nodup : (state.1.map Prod.fst).Nodup
  unmet : ∀ p, pairs.lookup p = none → state.1.lookup p = none
  own : ∀ p a, pairs.lookup p = some a → ∃ own, T.handles[TypeData.typeVariable p]? = some own ∧
    state.1.lookup p = if a = own then none else some a

theorem recordedFrom_nil (T : TypeTable) : RecordedFrom T [] ([], []) where
  seen p := by simp
  nodup := List.nodup_nil
  unmet _ _ := rfl
  own _ _ h := by cases h

/-- One more pair. -/
theorem RecordedFrom.yields_recordBinding (hT : T.WellFormed) (h : RecordedFrom T pairs state)
    (pair : DeclId × TypeId) :
    TypeM.Yields (recordBinding state pair) T fun T' state' =>
      RecordedFrom T' (pairs ++ [pair]) state' := by
  obtain ⟨param, arg⟩ := pair
  have hlookup (p : DeclId) : (pairs ++ [(param, arg)]).lookup p =
      (pairs.lookup p).or (if p = param then some arg else none) := by
    rw [List.lookup_append, lookup_cons_pair, List.lookup_nil]
  by_cases hseen : param ∈ state.2
  · -- A further argument of a type parameter changes nothing.
    obtain ⟨first, hfirst⟩ := Option.isSome_iff_exists.mp ((h.seen param).mp hseen)
    have hsame (p : DeclId) : (pairs ++ [(param, arg)]).lookup p = pairs.lookup p := by
      rw [hlookup]
      by_cases hp : p = param
      · simp [hp, hfirst]
      · simp [hp]
    rw [recordBinding, if_pos (by simpa using hseen)]
    exact .pure hT ⟨by simpa only [hsame] using h.seen, h.nodup,
      by simpa only [hsame] using h.unmet, by simpa only [hsame] using h.own⟩
  · have hnew : pairs.lookup param = none := by
      rw [← Option.not_isSome_iff_eq_none, ← h.seen]
      exact hseen
    rw [recordBinding, if_neg (by simpa using hseen)]
    refine (TypeM.yields_intern (.typeVariable param) hT TypeTable.hasAll_nil).bind
      fun own T₁ hg₁ hown => .pure hg₁.wellFormed ?_
    have hother {p : DeclId} (hp : p ≠ param) :
        (if arg = own then state.1 else state.1 ++ [(param, arg)]).lookup p = state.1.lookup p := by
      split
      · rfl
      · simp [List.lookup_append, lookup_cons_pair, hp]
    have hthis : (if arg = own then state.1 else state.1 ++ [(param, arg)]).lookup param =
        if arg = own then none else some arg := by
      split
      · exact h.unmet param hnew
      · simp [List.lookup_append, h.unmet param hnew]
    refine ⟨fun p => ?_, ?_, fun p hp => ?_, fun p a hp => ?_⟩
    · rw [hlookup, List.mem_cons, h.seen]
      by_cases hp : p = param <;> simp [hp]
    · dsimp only
      split
      · exact h.nodup
      · rw [List.map_append, List.nodup_append]
        refine ⟨h.nodup, List.nodup_singleton _, fun p hp q hq => ?_⟩
        obtain rfl := List.mem_singleton.mp hq
        rintro rfl
        obtain ⟨entry, hentry, rfl⟩ := List.mem_map.mp hp
        have hnone := h.unmet _ hnew
        rw [List.lookup_eq_none_iff] at hnone
        simpa using hnone entry hentry
    · rw [hlookup] at hp
      by_cases heq : p = param
      · simp [heq, hnew] at hp
      · rw [hother heq]
        exact h.unmet p (by simpa [heq] using hp)
    · rw [hlookup] at hp
      by_cases heq : p = param
      · subst heq
        obtain rfl : arg = a := by simpa [hnew] using hp
        exact ⟨own, hown, hthis⟩
      · rw [hother heq]
        obtain ⟨own', hown', hvalue⟩ := h.own p a (by simpa [heq] using hp)
        exact ⟨own', hg₁.le.handles _ _ hown', hvalue⟩

/-- Several more pairs. -/
theorem RecordedFrom.yields_foldlM (more : List (DeclId × TypeId)) :
    ∀ {T : TypeTable} {pairs : List (DeclId × TypeId)}
      {state : List (DeclId × TypeId) × List DeclId}, T.WellFormed → RecordedFrom T pairs state →
      TypeM.Yields (more.foldlM recordBinding state) T fun T' state' =>
        RecordedFrom T' (pairs ++ more) state' := by
  induction more with
  | nil =>
    intro T pairs state hT h
    rw [List.append_nil]
    exact .pure hT h
  | cons pair more ih =>
    intro T pairs state hT h
    rw [List.foldlM_cons, List.append_cons]
    exact (h.yields_recordBinding hT pair).bind fun _ _ hg₁ h₁ => ih hg₁.wellFormed h₁

/-- The pairs of one more reference. -/
theorem RecordedFrom.yields_recordBindings (hT : T.WellFormed) (h : RecordedFrom T pairs state)
    (t : TypeId) :
    TypeM.Yields (w.recordBindings state t) T fun T' state' =>
      RecordedFrom T' (pairs ++ w.argumentPairs (T.lookup t)) state' := by
  rw [recordBindings]
  refine .lookup ?_
  cases hd : T.lookup t with
  | nominal decl args =>
    simp only [argumentPairs]
    by_cases hempty : args = []
    · subst hempty
      have hnone : (match w.decl? decl with
          | some info => info.typeParams.zip ([] : List TypeId)
          | none => []) = [] := by
        cases w.decl? decl <;> simp
      rw [hnone, List.append_nil]
      exact .pure hT h
    · rw [if_neg (by simpa using hempty)]
      cases w.decl? decl with
      | some info => exact yields_foldlM _ hT h
      | none =>
        rw [List.append_nil]
        exact .pure hT h
  | _ =>
    simp only [argumentPairs, List.append_nil]
    exact .pure hT h

/-- The pairs of several more references. -/
theorem RecordedFrom.yields_foldlM_recordBindings (ts : List TypeId) :
    ∀ {T : TypeTable} {pairs : List (DeclId × TypeId)}
      {state : List (DeclId × TypeId) × List DeclId}, T.WellFormed → T.HasAll ts →
      RecordedFrom T pairs state →
      TypeM.Yields (ts.foldlM w.recordBindings state) T fun T' state' =>
        RecordedFrom T' (pairs ++ ts.flatMap fun t => w.argumentPairs (T.lookup t)) state' := by
  induction ts with
  | nil =>
    intro T pairs state hT _ h
    rw [List.flatMap_nil, List.append_nil]
    exact .pure hT h
  | cons t ts ih =>
    intro T pairs state hT hts h
    rw [List.foldlM_cons, List.flatMap_cons, ← List.append_assoc]
    refine (h.yields_recordBindings hT t).bind fun state₁ T₁ hg₁ h₁ => ?_
    have hrest : T.HasAll ts := fun s hs => hts s (List.mem_cons_of_mem _ hs)
    have hsame : (ts.flatMap fun s => w.argumentPairs (T₁.lookup s)) =
        ts.flatMap fun s => w.argumentPairs (T.lookup s) :=
      List.flatMap_congr fun s hs => by rw [TypeTable.lookup_of_le hg₁.le (hrest s hs)]
    rw [← hsame]
    exact ih hg₁.wellFormed (hrest.of_le hg₁.le) h₁

/-- What a receiver passes on: the pairs of the receiver and of its super types are recorded. -/
theorem yields_receiverBindings {receiver : TypeId} (hT : T.WellFormed) (hw : w.Within T)
    (hreceiver : T.Has receiver) :
    TypeM.Yields (w.receiverBindings receiver) T fun T' bindings => ∃ above seen,
      w.IsClosure T' receiver above ∧ TypeM.Recalls (w.supertypes receiver) T' above ∧
      RecordedFrom T' (above.flatMap fun t => w.argumentPairs (T'.lookup t)) (bindings, seen) := by
  rw [receiverBindings]
  refine (yields_supertypes_isClosure hT hw hreceiver).bind fun above T₁ hg₁ hclosure => ?_
  refine (RecordedFrom.yields_foldlM_recordBindings above hg₁.wellFormed hclosure.1.has
    (recordedFrom_nil T₁)).bind fun state T₂ hg₂ hstate => .pure hg₂.wellFormed ?_
  refine ⟨above, state.2, hclosure.1.of_le hg₂.le, hclosure.2.of_le hg₂.le, ?_⟩
  rw [List.nil_append] at hstate
  rw [List.flatMap_congr fun t ht => by rw [TypeTable.lookup_of_le hg₂.le (hclosure.1.has t ht)]]
  exact hstate

end World

end ScriptTyping
