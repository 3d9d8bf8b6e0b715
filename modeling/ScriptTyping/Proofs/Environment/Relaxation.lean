import Mathlib.Data.List.Basic
import ScriptTyping.Substitution

/-!
# Environments with fewer guards

Two environments that replace the same type variables and bind the same `this` can still differ in
their recursion guards.  One *relaxes* the other if it has no guard that the other does not have.
Relaxing is kept by everything that inference does with an environment: opening a frame, setting a
guard, binding `this` and adding replacements.

## Main definitions

* `Environment.extend` — several replacements at once.
* `Environment.ReplacesNothing` — no type variable is replaced and `this` is unbound.
* `Environment.Relaxes` — the same replacements and no further guard.

## Main results

* `Environment.get?_put` — what a written entry changes.
* `Environment.Relaxes.put` — writing the same entry into both environments.
* `Environment.ReplacesNothing.relaxes_empty` — nothing but guards tells such an environment from
  the empty one.
-/

namespace ScriptTyping

/-! ### Writing and reading -/

/-- The first pair of an association list decides about its own key only. -/
theorem lookup_cons_pair {κ ν : Type} [BEq κ] [LawfulBEq κ] [DecidableEq κ] (pair : κ × ν)
    (pairs : List (κ × ν)) (k : κ) :
    (pair :: pairs).lookup k = if k = pair.1 then some pair.2 else pairs.lookup k := by
  rw [List.lookup_cons]
  by_cases h : k = pair.1
  · simp [h]
  · rw [beq_false_of_ne h, if_neg h]

namespace Frame

variable {key : EnvKey} {value : EnvValue}

theorem lookup_put (frame : Frame) (k : EnvKey) :
    (put key value frame).lookup k = if k = key then some value else frame.lookup k := by
  induction frame with
  | nil => rw [put, lookup_cons_pair]
  | cons entry frame ih =>
    obtain ⟨k', v'⟩ := entry
    rw [put]
    split
    · rename_i heq
      have heq : k' = key := heq
      rw [lookup_cons_pair, lookup_cons_pair, heq]
      split <;> rfl
    · rename_i hne
      have hne : k' ≠ key := hne
      rw [lookup_cons_pair, lookup_cons_pair, ih]
      by_cases h : k = k'
      · rw [if_pos h, if_pos h, if_neg (h ▸ hne)]
      · rw [if_neg h, if_neg h]

theorem any_isSubstitution_put (frame : Frame) :
    (put key value frame).any (fun entry => entry.1.isSubstitution) =
      (key.isSubstitution || frame.any fun entry => entry.1.isSubstitution) := by
  induction frame with
  | nil => simp [put]
  | cons entry frame ih =>
    rw [put]
    split
    · rename_i heq
      simp only [List.any_cons, heq]
      cases key.isSubstitution <;> rfl
    · rw [List.any_cons, ih, List.any_cons, Bool.or_left_comm]

end Frame

namespace Environment

variable {env env' : Environment}

theorem get?_wrap (env : Environment) (k : EnvKey) : env.wrap.get? k = env.get? k := rfl

theorem hasSubstitutions_wrap (env : Environment) :
    env.wrap.hasSubstitutions = env.hasSubstitutions := rfl

theorem get?_put (env : Environment) (key : EnvKey) (value : EnvValue) (k : EnvKey) :
    (env.put key value).get? k = if k = key then some value else env.get? k := by
  obtain ⟨frames⟩ := env
  cases frames with
  | nil =>
    simp only [put, get?, List.findSome?_cons, Frame.lookup_put]
    by_cases h : k = key <;> simp [h]
  | cons frame frames =>
    simp only [put, get?, List.findSome?_cons, Frame.lookup_put]
    by_cases h : k = key <;> simp [h]

theorem hasSubstitutions_put (env : Environment) (key : EnvKey) (value : EnvValue) :
    (env.put key value).hasSubstitutions = (key.isSubstitution || env.hasSubstitutions) := by
  obtain ⟨frames⟩ := env
  cases frames with
  | nil => simp [put, hasSubstitutions, Frame.any_isSubstitution_put]
  | cons frame frames =>
    simp only [put, hasSubstitutions, List.any_cons, Frame.any_isSubstitution_put, Bool.or_assoc]

/-- Replaces several type variables, from the first pair to the last. -/
def extend (env : Environment) (bindings : List (DeclId × TypeId)) : Environment :=
  bindings.foldl (fun env binding => env.addSubstitution binding.1 binding.2) env

/-! ### Relaxing -/

/-- No type variable is replaced and `this` is unbound; guards may be set. -/
structure ReplacesNothing (env : Environment) : Prop where
  hasSubstitutions : env.hasSubstitutions = false
  this : env.this? = none

instance (env : Environment) : Decidable env.ReplacesNothing :=
  decidable_of_iff (env.hasSubstitutions = false ∧ env.this? = none)
    ⟨fun h => ⟨h.1, h.2⟩, fun h => ⟨h.1, h.2⟩⟩

/-- The second environment has the same replacements and the same `this`, and no guard that the
first does not have. -/
structure Relaxes (env env' : Environment) : Prop where
  substitution : env'.substitution? = env.substitution?
  this : env'.this? = env.this?
  hasSubstitutions : env'.hasSubstitutions = env.hasSubstitutions
  guard : ∀ key, env'.guardState key = .absent ∨ env'.guardState key = env.guardState key

theorem Relaxes.refl (env : Environment) : env.Relaxes env :=
  ⟨rfl, rfl, rfl, fun _ => .inr rfl⟩

theorem Relaxes.put (h : env.Relaxes env') (key : EnvKey) (value : EnvValue) :
    (env.put key value).Relaxes (env'.put key value) where
  substitution := by
    funext d
    have hd := congrFun h.substitution d
    simp only [substitution?, get?_put] at hd ⊢
    split
    · rfl
    · exact hd
  this := by
    have ht := h.this
    simp only [this?, get?_put] at ht ⊢
    split
    · rfl
    · exact ht
  hasSubstitutions := by rw [hasSubstitutions_put, hasSubstitutions_put, h.hasSubstitutions]
  guard := by
    intro k
    by_cases hk : .guard k = key
    · right
      simp only [guardState, get?_put, if_pos hk]
    · simpa only [guardState, get?_put, if_neg hk] using h.guard k

theorem Relaxes.wrap (h : env.Relaxes env') : env.wrap.Relaxes env'.wrap :=
  ⟨h.substitution, h.this, h.hasSubstitutions, h.guard⟩

/-- A new frame holds nothing yet. -/
theorem relaxes_unwrap (env : Environment) : env.wrap.Relaxes env :=
  ⟨rfl, rfl, rfl, fun _ => .inr rfl⟩

theorem Relaxes.withGuard (h : env.Relaxes env') (key : GuardKey) :
    (env.withGuard key).Relaxes (env'.withGuard key) :=
  h.wrap.put _ _

theorem Relaxes.withProvisional (h : env.Relaxes env') (key : GuardKey) (preliminary : TypeId) :
    (env.withProvisional key preliminary).Relaxes (env'.withProvisional key preliminary) :=
  h.wrap.put _ _

theorem Relaxes.setThis (h : env.Relaxes env') (t : TypeId) :
    (env.setThis t).Relaxes (env'.setThis t) :=
  h.put _ _

theorem Relaxes.extend (bindings : List (DeclId × TypeId)) :
    ∀ {env env' : Environment}, env.Relaxes env' →
      (env.extend bindings).Relaxes (env'.extend bindings) := by
  induction bindings with
  | nil => exact fun h => h
  | cons binding bindings ih => exact fun h => ih (h.put _ _)

/-- A guard that is set may be dropped again. -/
theorem relaxes_of_withProvisional {key : GuardKey} (h : env.guardState key = .absent)
    (preliminary : TypeId) : (env.withProvisional key preliminary).Relaxes env where
  substitution := by
    funext d
    rw [withProvisional, substitution?, substitution?, get?_put, if_neg (by simp), get?_wrap]
  this := by rw [withProvisional, this?, this?, get?_put, if_neg (by simp), get?_wrap]
  hasSubstitutions := by
    rw [withProvisional, hasSubstitutions_put, hasSubstitutions_wrap]
    rfl
  guard k := by
    by_cases hk : k = key
    · exact .inl (hk ▸ h)
    · right
      rw [withProvisional, guardState, guardState, get?_put, if_neg (by simpa using hk), get?_wrap]

/-- The same in a frame of its own. -/
theorem relaxes_wrap_of_withProvisional {key : GuardKey} (h : env.guardState key = .absent)
    (preliminary : TypeId) : (env.withProvisional key preliminary).Relaxes env.wrap := by
  have hrelaxes := relaxes_of_withProvisional h preliminary
  exact ⟨hrelaxes.substitution, hrelaxes.this, hrelaxes.hasSubstitutions, hrelaxes.guard⟩

/-- A guard that is not set stays unset when guards are dropped. -/
theorem Relaxes.isGuarded_eq_false (h : env.Relaxes env') {key : GuardKey}
    (hkey : env.isGuarded key = false) : env'.isGuarded key = false := by
  simp only [isGuarded, bne_eq_false_iff_eq] at hkey ⊢
  rcases h.guard key with habsent | hsame
  · exact habsent
  · rw [hsame, hkey]

/-- A guard without a preliminary result gets none when guards are dropped. -/
theorem Relaxes.guardState_ne_provisional (h : env.Relaxes env') {key : GuardKey}
    (hkey : ∀ t, env.guardState key ≠ .provisional t) (t : TypeId) :
    env'.guardState key ≠ .provisional t := by
  rcases h.guard key with habsent | hsame
  · rw [habsent]
    exact fun h => by cases h
  · rw [hsame]
    exact hkey t

private theorem mem_of_lookup {k : EnvKey} {v : EnvValue} {frame : Frame}
    (h : frame.lookup k = some v) : (k, v) ∈ frame := by
  induction frame with
  | nil => cases h
  | cons entry frame ih =>
    rw [List.lookup_cons] at h
    split at h
    · rename_i heq
      rw [eq_of_beq heq, ← Option.some.inj h]
      exact List.mem_cons_self ..
    · exact List.mem_cons_of_mem _ (ih h)

/-- Without entries for type variables there is no replacement. -/
theorem substitution?_eq_none (h : env.hasSubstitutions = false) (d : DeclId) :
    env.substitution? d = none := by
  cases hget : env.get? (.substitution d) with
  | none => rw [substitution?, hget, Option.bind_none]
  | some value =>
    obtain ⟨frame, hframe, hlookup⟩ := List.exists_of_findSome?_eq_some hget
    have : env.hasSubstitutions = true :=
      List.any_eq_true.mpr ⟨frame, hframe, List.any_eq_true.mpr ⟨_, mem_of_lookup hlookup, rfl⟩⟩
    rw [h] at this
    cases this

/-- Of an environment that replaces nothing, only the guards are left to drop. -/
theorem ReplacesNothing.relaxes_empty (h : env.ReplacesNothing) : env.Relaxes .empty where
  substitution := funext fun d => (substitution?_eq_none h.hasSubstitutions d).symm
  this := h.this.symm
  hasSubstitutions := h.hasSubstitutions.symm
  guard := fun _ => .inl rfl

theorem Relaxes.replacesNothing (h : env.Relaxes env') (henv : env.ReplacesNothing) :
    env'.ReplacesNothing :=
  ⟨h.hasSubstitutions.trans henv.hasSubstitutions, h.this.trans henv.this⟩

theorem Relaxes.substitute (h : env.Relaxes env') : env'.substitute = env.substitute := by
  funext t
  rw [Environment.substitute, Environment.substitute, h.this, h.hasSubstitutions, traversal,
    traversal, h.this, h.substitution]

end Environment

end ScriptTyping
