import ScriptTyping.Proofs.Judgment.Recursion

/-!
# Guards and depth do not show without a fallback

Inference looks at a guard, or at the room that is left, only to fall back on a preliminary answer,
and it notes every fallback.  So an inference that noted none would have gone the same way without
the guards of its environment and with more room: it gives the same type, stores the same types and
writes the same memo cells.  This is what makes it sound to write its result to a memo cell.

## Main definitions

* `Comparison.sameRun` — the second run does what the first one did, unless that fell back.
* `Program.inferFrom` — inference that starts at a given depth.

## Main results

* `Comparison.asks_judge` — the judgment with more room and fewer guards.
* `Program.infer_eq_of_no_fallback` — guards and depth are irrelevant without a fallback.
-/

namespace ScriptTyping

namespace Comparison

/-- The second inference runs from the same memory.  If the first one returns without noting a
fallback, then the second one leaves the same memory and returns something related. -/
def sameRun : Comparison where
  tracked := False
  rel T x y V := ∀ s a s', s.types = T → x s = .ok a s' →
    s.fallbacks ≤ s'.fallbacks ∧ (∃ b, V s'.types a b) ∧
      (s'.fallbacks = s.fallbacks → ∀ i, ∃ b, y i s = .ok b s' ∧ V s'.types a b)
  return' := by
    intro α β T V a b _ hab s a' s' hT h
    obtain ⟨rfl, rfl⟩ := InferM.pure_eq_ok.mp h
    rw [hT]
    exact ⟨Nat.le_refl _, ⟨b, hab⟩, fun _ _ => ⟨b, rfl, hab⟩⟩
  bind := by
    intro α β γ δ T V W x y f g hx hf s r s' hT h
    obtain ⟨a, s₁, ha, hr⟩ := InferM.bind_eq_ok.mp h
    obtain ⟨hle₁, ⟨b₀, hb₀⟩, hsame₁⟩ := hx s a s₁ hT ha
    obtain ⟨hle₂, hW, -⟩ := hf a b₀ s₁.types False.elim hb₀ s₁ r s' rfl hr
    refine ⟨Nat.le_trans hle₁ hle₂, hW, fun hfall i => ?_⟩
    -- No fallback in the whole means none in either part.
    obtain ⟨b, hb, hab⟩ := hsame₁ (by omega) i
    obtain ⟨-, -, hsame₂⟩ := hf a b s₁.types False.elim hab s₁ r s' rfl hr
    obtain ⟨r', hr', hrr'⟩ := hsame₂ (by omega) i
    exact ⟨r', InferM.bind_eq_ok.mpr ⟨b, s₁, hb, hr'⟩, hrr'⟩
  lift := by
    intro α T V z _ s a s' _ h
    obtain ⟨T', -, rfl⟩ := InferM.liftM_eq_ok.mp h
    exact ⟨Nat.le_refl _, ⟨a, rfl, False.elim⟩, fun _ _ => ⟨a, h, rfl, False.elim⟩⟩
  fallback := by
    intro α β T V x y y' hx s a s' hT h
    obtain ⟨⟨⟩, s₁, hs₁, ha⟩ := InferM.bind_eq_ok.mp h
    cases hs₁
    obtain ⟨hle, hV, -⟩ := hx { s with fallbacks := s.fallbacks + 1 } a s' hT ha
    exact ⟨Nat.le_of_succ_le hle, hV, fun hfall => absurd hle (by simp only [hfall]; omega)⟩
  fail := by
    intro α β T V fault s a s' _ h
    cases h

/-- The judgment with more room and fewer guards does the same, unless there is a fallback. -/
theorem asks_judge (p : Program) (room : Nat) :
    ∀ room', room ≤ room' → sameRun.Asks p (p.judge room) fun _ => p.judge room' := by
  refine asks_of_remembers (remembers_of_inert id fun hx s a s' _ h => ?_) room
  obtain ⟨b, s₁, hb, hfall⟩ := hx s
  cases h.symm.trans hb
  exact ⟨Nat.le_of_eq hfall.symm, ⟨a, rfl, False.elim⟩, fun _ _ => ⟨a, h, rfl, False.elim⟩⟩

end Comparison

namespace Program

/-- The type of a node or declaration, when inference is already `depth` judgments deep. -/
def inferFrom (p : Program) (depth : Nat) (env : Environment) : Typable → InferM TypeId
  | .node n => (p.judge (p.options.maxInferenceDepth - depth)).node env n
  | .decl d => (p.judge (p.options.maxInferenceDepth - depth)).decl env d

/-- At depth zero it is the program's own inference. -/
theorem inferFrom_zero (p : Program) (env : Environment) : p.inferFrom 0 env = p.infer env := by
  funext target
  cases target <;> rfl

/-- An inference at any depth, under any guards, in an environment that replaces nothing, that
returns without noting a fallback would have given the same type and the same memory under the empty
environment at depth zero. -/
theorem infer_eq_of_no_fallback (p : Program) {depth : Nat} {env : Environment}
    (henv : env.ReplacesNothing) {target : Typable} {s s' : Memory} {t : TypeId}
    (hrun : p.inferFrom depth env target s = .ok t s') (hnone : s'.fallbacks = s.fallbacks) :
    p.infer .empty target s = .ok t s' := by
  have hasks := Comparison.asks_judge p (p.options.maxInferenceDepth - depth)
    p.options.maxInferenceDepth (Nat.sub_le ..)
  have hscope : Comparison.sameRun.Scope p s.types env .empty := ⟨henv.relaxes_empty, False.elim⟩
  cases target with
  | node n =>
    obtain ⟨-, -, hsame⟩ := hasks.node hscope n s t s' rfl hrun
    obtain ⟨_, hok, rfl, -⟩ := hsame hnone 0
    exact hok
  | decl d =>
    obtain ⟨-, -, hsame⟩ := hasks.decl hscope d s t s' rfl hrun
    obtain ⟨_, hok, rfl, -⟩ := hsame hnone 0
    exact hok

/-- A variable without annotation whose initializer names an annotated one. -/
def copiedVariable : Program where
  world.declarations := ⟨#[{ kind := .var, name := .none, declaredType := some .number }]⟩
  world.builtins := default
  world.fuel := 0
  tree := ⟨#[⟨.identifier .none (some ⟨1⟩), some ⟨1⟩⟩,
    ⟨.variableDecl none none (some ⟨0⟩) false, none⟩]⟩
  flow := .empty
  options := {}

/-- The copied variable is a number, since it is one at depth seven and under a guard. -/
theorem infer_eq_of_no_fallback_copiedVariable :
    copiedVariable.infer .empty (.node ⟨1⟩) ⟨.initial, .empty, 0⟩ =
      .ok .number ⟨.initial, .empty, 0⟩ := by
  have hrun : copiedVariable.inferFrom 7 (Environment.empty.withGuard ⟨.functionReturn, ⟨5⟩⟩)
      (.node ⟨1⟩) ⟨.initial, .empty, 0⟩ = .ok .number ⟨.initial, .empty, 0⟩ := rfl
  exact copiedVariable.infer_eq_of_no_fallback (by decide) hrun rfl

end Program

end ScriptTyping
