import ScriptTyping.Proofs.Judgment.GuardIndependence
import ScriptTyping.Proofs.Judgment.Inquiry
import ScriptTyping.Proofs.Judgment.MemoTransparency

/-!
# What inference leaves alone

Inference extends its memory and changes nothing else.  Handles and symbols keep what they stand
for.  A memo cell is written at most once, and only for a declaration whose type is inferred.  The
fallback counter counts up.

## Main definitions

* `Memory.Framed` — what a run of inference may have changed.
* `Correspondence.framed` — every step is framed.
* `Program.judgeAt` — the judge at a given depth.

## Main results

* `Program.inferFrom_framed` — every inference that returns is framed, and asks for all its parts at
  the next depth.
-/

namespace ScriptTyping

namespace Memory

/-- The second memory is the first one with more types, more memo cells and more fallbacks.  A cell
that becomes set is that of a declaration that stands for itself: an element without annotation, or
a function or method whose return type is left open. -/
structure Framed (p : Program) (s s' : Memory) : Prop where
  types : s.types ≤ s'.types
  kept : ∀ d t, s.memo.get? d = some t → s'.memo.get? d = some t
  filled : ∀ d t, s.memo.get? d = none → s'.memo.get? d = some t →
    ∃ e info, d = p.world.declarations.canonical e ∧ p.decl? d = some info ∧
      info.isInferred = true
  fallbacks : s.fallbacks ≤ s'.fallbacks

namespace Framed

variable {p : Program} {s s' s'' : Memory}

theorem refl (p : Program) (s : Memory) : Framed p s s where
  types := le_refl _
  kept _ _ h := h
  filled d t hnone h := by
    rw [hnone] at h
    cases h
  fallbacks := Nat.le_refl _

theorem trans (h : Framed p s s') (h' : Framed p s' s'') : Framed p s s'' where
  types := le_trans h.types h'.types
  kept d t hd := h'.kept d t (h.kept d t hd)
  filled d t hnone hd := by
    -- The cell was set by the first step or by the second one.
    cases hcell : s'.memo.get? d with
    | none => exact h'.filled d t hcell hd
    | some u => exact h.filled d u hnone hcell
  fallbacks := Nat.le_trans h.fallbacks h'.fallbacks

/-- Steps that leave the memo alone. -/
theorem of_memo (hmemo : s'.memo = s.memo) (htypes : s.types ≤ s'.types)
    (hfallbacks : s.fallbacks ≤ s'.fallbacks) : Framed p s s' where
  types := htypes
  kept d t hd := hmemo ▸ hd
  filled d t hnone hd := by
    rw [hmemo, hnone] at hd
    cases hd
  fallbacks := hfallbacks

theorem write (s : Memory) (t : TypeId) {e : DeclId} {info : Declaration}
    (hinfo : p.decl? (p.world.declarations.canonical e) = some info)
    (hinferred : info.isInferred = true) :
    Framed p s { s with memo := s.memo.write (p.world.declarations.canonical e) t } where
  types := le_refl _
  kept d u hd := by
    rw [Memo.get?_write, if_neg]
    · exact hd
    · rintro ⟨rfl, hnone⟩
      rw [hd] at hnone
      cases hnone
  filled d u hnone hd := by
    rw [Memo.get?_write] at hd
    split at hd
    · rename_i hcell
      exact ⟨e, info, hcell.1.symm, hcell.1 ▸ hinfo, hinferred⟩
    · rw [hnone] at hd
      cases hd
  fallbacks := Nat.le_refl _

end Framed

end Memory

namespace Correspondence

/-- Every step of the first inference is framed; the second one only names related results. -/
def framed (p : Program) : Correspondence .transparent where
  rel x _ V := ∀ s a s', x s = .ok a s' → s.Framed p s' ∧ ∃ b, V a b
  return' := by
    intro α β V a b hab s a' s' h
    obtain ⟨rfl, rfl⟩ := InferM.pure_eq_ok.mp h
    exact ⟨.refl p s, b, hab⟩
  bind := by
    intro α β γ δ V W x y f g hx hf s c s' h
    obtain ⟨a, s₁, ha, hc⟩ := InferM.bind_eq_ok.mp h
    obtain ⟨hframed₁, b, hab⟩ := hx s a s₁ ha
    obtain ⟨hframed₂, hW⟩ := hf a b hab s₁ c s' hc
    exact ⟨hframed₁.trans hframed₂, hW⟩
  lift := by
    intro α β V z z' hz s a s' h
    obtain ⟨T', hT', rfl⟩ := InferM.liftM_eq_ok.mp h
    obtain ⟨hle, -, b, -, hab⟩ := hz s.types s.types.hides_transparent a T' hT'
    exact ⟨.of_memo rfl hle (Nat.le_refl _), b, hab⟩
  noteFallback := by
    intro s a s' h
    cases h
    exact ⟨.of_memo rfl (le_refl _) (Nat.le_succ _), (), rfl⟩
  fallbackCount := by
    intro s a s' h
    cases h
    exact ⟨.refl p s, _, rfl⟩
  memoized? := by
    intro d s a s' h
    cases h
    exact ⟨.refl p s, _, rfl⟩
  writable d := ∃ e info, d = p.world.declarations.canonical e ∧ p.decl? d = some info ∧
    info.isInferred = true
  memoize := by
    rintro _ t ⟨e, info, rfl, hinfo, hinferred⟩ s a s' h
    cases h
    exact ⟨.write s t hinfo hinferred, (), rfl⟩

end Correspondence

namespace Program

variable (p : Program)

/-- The judge that is asked for the parts when inference is `depth` judgments deep. -/
def judgeAt (depth : Nat) : Judge where
  node env n := p.inferFrom depth env (.node n)
  decl env d := p.inferFrom depth env (.decl d)

/-- What one judgment does, with a judge for the parts. -/
def judgment (judge : Judge) (env : Environment) : Typable → InferM TypeId
  | .node n =>
    match p.content? n with
    | some content => p.nodeType judge env n content
    | none => pure .unknown
  | .decl d => p.declarationType judge env d

theorem judgeAt_eq (depth : Nat) :
    p.judgeAt depth = p.judge (p.options.maxInferenceDepth - depth) := rfl

/-- Within the limit, all parts of a judgment are judged one deeper than the judgment itself. -/
theorem inferFrom_eq_judgment {depth : Nat} (hdepth : depth < p.options.maxInferenceDepth)
    (env : Environment) (target : Typable) :
    p.inferFrom depth env target = p.judgment (p.judgeAt (depth + 1)) env target := by
  have hroom : p.options.maxInferenceDepth - depth =
      p.options.maxInferenceDepth - (depth + 1) + 1 := by omega
  cases target with
  | node n =>
    simp only [inferFrom, hroom, judge, judgment, judgeAt_eq, content?, Tree.content?]
    cases p.tree.get? n <;> rfl
  | decl d => simp only [inferFrom, hroom, judge, judgment, judgeAt_eq]

/-- The rules compared with themselves, step by step. -/
theorem mirror_framed :
    Mirror (.framed p) p p id (fun _ => True) (fun _ => True) fun _ => True :=
  p.asksOnly_true.self fun hinfo hinferred => ⟨_, _, rfl, hinfo, hinferred⟩

/-- The judgment with any room is framed. -/
theorem asks_framed (room : Nat) : (Correspondence.framed p).Asks p p id (fun _ => True)
    (fun _ => True) (p.judge room) (p.judge room) :=
  Correspondence.asks_judge p.mirror_framed (fun _ _ _ fault s a s' h => by cases h) room

/-- Inference that returns, at any depth and in any memory, grows the table, keeps the memo cells
that are set, sets only those of declarations with an inferred type, and does not lower the number
of fallbacks.  The depth is that of the judgment again for each of its parts: all of them are judged
one deeper, whatever was judged before. -/
theorem inferFrom_framed {depth : Nat} {env : Environment} {target : Typable} {s s' : Memory}
    {t : TypeId} (hrun : p.inferFrom depth env target s = .ok t s') :
    s.Framed p s' ∧ (depth < p.options.maxInferenceDepth →
      p.inferFrom depth env target = p.judgment (p.judgeAt (depth + 1)) env target) := by
  have hasks := p.asks_framed (p.options.maxInferenceDepth - depth)
  refine ⟨?_, fun hdepth => p.inferFrom_eq_judgment hdepth env target⟩
  cases target with
  | node n => exact (hasks.node env n trivial s t s' hrun).1
  | decl d => exact (hasks.decl env d id s t s' hrun).1

/-- Asking for a variable without annotation sets its memo cell, and its initializer is judged one
deeper. -/
theorem inferFrom_framed_usedVariable :
    Memory.Framed usedVariable ⟨.initial, .empty, 0⟩
      ⟨.initial, Memo.empty.write ⟨2⟩ .number, 0⟩ ∧
    usedVariable.inferFrom 3 .empty (.decl ⟨2⟩) =
      usedVariable.judgment (usedVariable.judgeAt 4) .empty (.decl ⟨2⟩) := by
  have hrun : usedVariable.inferFrom 3 .empty (.decl ⟨2⟩) ⟨.initial, .empty, 0⟩ =
      .ok .number ⟨.initial, Memo.empty.write ⟨2⟩ .number, 0⟩ :=
    usedVariable.declarationType_of_none (by decide) (Memo.get?_empty _) rfl
  obtain ⟨hframed, hparts⟩ := usedVariable.inferFrom_framed hrun
  exact ⟨hframed, hparts (by decide)⟩

end Program

end ScriptTyping
