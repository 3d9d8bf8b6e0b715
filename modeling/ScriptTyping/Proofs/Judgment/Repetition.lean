import ScriptTyping.Proofs.Judgment.MemoTransparency
import ScriptTyping.Proofs.Judgment.Recursion

/-!
# Repeating an inference

An inference that was not cut short can be repeated.  From a later table with the memo cells that it
started from, it returns the same type, stores nothing and writes the same cells.  And from the same
memory, it ends in the same way without some of its guards, also if it fails.

## Main definitions

* `InferM.NotesNoFallback` — nothing was cut short, whether the inference returned or failed.
* `Comparison.sameEnd` — the second inference ends like the first one.
* `Comparison.repeating` — the second inference repeats the first one later on.

## Main results

* `Comparison.asks_sameEnd`, `Comparison.asks_repeating` — the judgment.
-/

namespace ScriptTyping

namespace InferM

variable {α β γ δ : Type} {x : InferM α} {y : InferM β} {f : α → InferM γ} {g : β → InferM δ}
  {s s' : Memory} {V : TypeTable → α → β → Prop} {W : TypeTable → γ → δ → Prop}

/-- The memory that an inference leaves behind, whether it returns or fails. -/
def leaves (x : InferM α) (s : Memory) : Memory :=
  match x s with
  | .ok _ s' => s'
  | .error _ s' => s'

/-- The inference returns or fails without having noted a fallback. -/
def NotesNoFallback (x : InferM α) (s : Memory) : Prop := (x.leaves s).fallbacks = s.fallbacks

theorem leaves_of_ok {a : α} (h : x s = .ok a s') : x.leaves s = s' := by rw [leaves, h]

theorem leaves_of_error {e : Fault} (h : x s = .error e s') : x.leaves s = s' := by rw [leaves, h]

theorem leaves_bind_of_ok {a : α} (h : x s = .ok a s') : (x >>= f).leaves s = (f a).leaves s' := by
  rw [leaves, bind_of_ok h]
  rfl

theorem bind_of_error {e : Fault} (h : x s = .error e s') : (x >>= f) s = .error e s' :=
  bind_eq_error.mpr (.inl h)

/-! ### The same end -/

/-- Two inferences return related results or fail for the same reason, and leave the same memory. -/
inductive SameEnd (V : TypeTable → α → β → Prop) :
    EStateM.Result Fault Memory α → EStateM.Result Fault Memory β → Prop
  | returns {a : α} {b : β} {s : Memory} : V s.types a b → SameEnd V (.ok a s) (.ok b s)
  | fails {e : Fault} {s : Memory} : SameEnd V (.error e s) (.error e s)

/-- The number of fallbacks does not go down in the first inference, and the second one ends in the
same way, unless the first one was cut short. -/
structure EndsAlike (x : InferM α) (y : InferM β) (V : TypeTable → α → β → Prop)
    (s : Memory) : Prop where
  counts : s.fallbacks ≤ (x.leaves s).fallbacks
  related : ∀ a s', x s = .ok a s' → ∃ b, V s'.types a b
  sameEnd : x.NotesNoFallback s → SameEnd V (x s) (y s)

/-- If the second one returns, then so does the first one. -/
theorem EndsAlike.of_ok {b : β} (h : EndsAlike x y V s) (hnone : x.NotesNoFallback s)
    (hy : y s = .ok b s') : ∃ a, x s = .ok a s' ∧ V s'.types a b := by
  have hend := h.sameEnd hnone
  rw [hy] at hend
  generalize x s = r at hend
  cases hend with
  | returns hab => exact ⟨_, rfl, hab⟩

/-- An inference compared with itself. -/
theorem EndsAlike.same {P : TypeTable → α → Prop} (h : s.fallbacks ≤ (x.leaves s).fallbacks) :
    EndsAlike x x (fun T a b => a = b ∧ (False → P T a)) s := by
  refine ⟨h, fun a _ _ => ⟨a, rfl, False.elim⟩, fun _ => ?_⟩
  cases x s with
  | ok a s' => exact .returns ⟨rfl, False.elim⟩
  | error e s' => exact .fails

theorem EndsAlike.bind (hx : EndsAlike x y V s)
    (hf : ∀ a b s', V s'.types a b → EndsAlike (f a) (g b) W s') :
    EndsAlike (x >>= f) (y >>= g) W s := by
  have hcounts := hx.counts
  cases hrun : x s with
  | error e s₁ =>
    have hstop := leaves_of_error hrun
    have hstop' := leaves_of_error (bind_of_error (f := f) hrun)
    refine ⟨by rw [hstop', ← hstop]; exact hcounts, fun c s' h => ?_, fun hnone => ?_⟩
    · cases (bind_of_error hrun).symm.trans h
    · have hend := hx.sameEnd (by rw [NotesNoFallback, hstop, ← hstop']; exact hnone)
      rw [hrun] at hend
      rw [bind_of_error hrun]
      generalize hy : y s = r at hend
      cases hend
      rw [bind_of_error hy]
      exact .fails
  | ok a s₁ =>
    obtain ⟨b₀, hb₀⟩ := hx.related a s₁ hrun
    have hfirst := hf a b₀ s₁ hb₀
    have hcounts₁ := hfirst.counts
    have hstop := leaves_bind_of_ok (f := f) hrun
    rw [leaves_of_ok hrun] at hcounts
    refine ⟨by rw [hstop]; omega, fun c s' h => hfirst.related c s' ?_, fun hnone => ?_⟩
    · exact (bind_of_ok hrun).symm.trans h
    · -- No fallback in the whole means none in either part.
      rw [NotesNoFallback, hstop] at hnone
      have hend := hx.sameEnd (by rw [NotesNoFallback, leaves_of_ok hrun]; omega)
      rw [hrun] at hend
      rw [bind_of_ok hrun]
      generalize hy : y s = r at hend
      cases hend with
      | returns hab =>
        rw [bind_of_ok hy]
        exact (hf a _ s₁ hab).sameEnd (by rw [NotesNoFallback]; omega)

/-- A fallback ends the comparison. -/
theorem EndsAlike.fallback (hx : EndsAlike x y V { s with fallbacks := s.fallbacks + 1 })
    (y' : InferM β) : EndsAlike (noteFallback >>= fun _ => x) y' V s := by
  have hnote : noteFallback s = .ok () { s with fallbacks := s.fallbacks + 1 } := rfl
  have hstop := leaves_bind_of_ok (f := fun _ => x) hnote
  have hcounts : s.fallbacks + 1 ≤ _ := hx.counts
  refine ⟨by rw [hstop]; omega, fun a s' h => hx.related a s' ?_, fun hnone => ?_⟩
  · exact (bind_of_ok hnote).symm.trans h
  · rw [NotesNoFallback, hstop] at hnone
    omega

end InferM

/-- The types written to memo cells belong to the table. -/
def Memo.Within (memo : Memo) (T : TypeTable) : Prop := ∀ d t, memo.get? d = some t → T.Has t

theorem Memo.within_empty (T : TypeTable) : Memo.empty.Within T := by
  intro d t hd
  rw [Memo.get?_empty] at hd
  cases hd

theorem Memo.Within.of_le {memo : Memo} {T T' : TypeTable} (hle : T ≤ T') (h : memo.Within T) :
    memo.Within T' := fun d t ht => (h d t ht).of_le hle

theorem Memo.Within.write {memo : Memo} {T : TypeTable} (h : memo.Within T) (d : DeclId)
    {t : TypeId} (ht : T.Has t) : (memo.write d t).Within T := by
  intro e u hu
  rw [Memo.get?_write] at hu
  split at hu
  · exact Option.some.inj hu ▸ ht
  · exact h e u hu

namespace Comparison

/-- From the same memory the second inference ends like the first one, unless that was cut short. -/
def sameEnd : Comparison where
  tracked := False
  rel T x y V := ∀ s, s.types = T → ∀ i, x.EndsAlike (y i) V s
  return' := by
    rintro α β T V a b _ hab s rfl i
    refine ⟨Nat.le_refl _, fun a' s' h => ?_, fun _ => .returns hab⟩
    obtain ⟨rfl, rfl⟩ := InferM.pure_eq_ok.mp h
    exact ⟨b, hab⟩
  bind := by
    intro α β γ δ T V W x y f g hx hf s hT i
    exact (hx s hT i).bind fun a b s' hab => hf a b s'.types False.elim hab s' rfl i
  lift := by
    intro α T V z _ s _ i
    refine .same (Nat.le_of_eq ?_)
    cases hrun : (liftM z : InferM α) s with
    | ok a s' =>
      obtain ⟨T', -, rfl⟩ := InferM.liftM_eq_ok.mp hrun
      rw [InferM.leaves_of_ok hrun]
    | error e s' =>
      obtain ⟨e', T', -, -, rfl⟩ := InferM.liftM_eq_error.mp hrun
      rw [InferM.leaves_of_error hrun]
  fallback := by
    intro α β T V x y y' hx s hT i
    exact .fallback (hx { s with fallbacks := s.fallbacks + 1 } hT i) _
  fail := by
    intro α β T V fault s _ i
    refine ⟨Nat.le_refl _, fun a s' h => ?_, fun _ => .fails⟩
    cases h

/-- The judgment with fewer guards ends in the same way, unless there is a fallback. -/
theorem asks_sameEnd (p : Program) (room : Nat) :
    sameEnd.Asks p (p.judge room) fun _ => p.judge room := by
  refine asks_of_remembers (remembers_of_inert id fun {α T x P} hx s _ _ => .same ?_) room room
    le_rfl
  obtain ⟨a, s', hrun, hfall⟩ := hx s
  rw [InferM.leaves_of_ok hrun]
  exact Nat.le_of_eq hfall.symm

/-! ### Later on -/

/-- The second inference starts from the same memo cells and from a later table than the one that
the first inference left.  Unless that one was cut short, the second one leaves the table as it is,
writes the same cells and returns something related. -/
def repeating : Comparison where
  tracked := True
  rel T x y V := ∀ s a s', s.types = T → s.memo.Within T → x s = .ok a s' →
    s.fallbacks ≤ s'.fallbacks ∧ T.GrowsTo s'.types ∧ s'.memo.Within s'.types ∧
      (∃ b, V s'.types a b) ∧ (s'.fallbacks = s.fallbacks → ∀ i U f, s'.types ≤ U →
        ∃ b, V s'.types a b ∧ y i ⟨U, s.memo, f⟩ = .ok b ⟨U, s'.memo, f⟩)
  return' := by
    intro α β T V a b hwf hab s a' s' hT hs h
    obtain ⟨rfl, rfl⟩ := InferM.pure_eq_ok.mp h
    subst hT
    exact ⟨Nat.le_refl _, .refl (hwf trivial), hs, ⟨b, hab⟩, fun _ _ _ _ _ => ⟨b, hab, rfl⟩⟩
  bind := by
    intro α β γ δ T V W x y f g hx hf s c s' hT hs h
    obtain ⟨a, s₁, ha, hc⟩ := InferM.bind_eq_ok.mp h
    obtain ⟨hle₁, hg₁, hs₁, ⟨b₀, hb₀⟩, hrepeat₁⟩ := hx s a s₁ hT hs ha
    obtain ⟨hle₂, hg₂, hs', hW, -⟩ := hf a b₀ s₁.types (fun _ => hg₁) hb₀ s₁ c s' rfl hs₁ hc
    refine ⟨Nat.le_trans hle₁ hle₂, hg₁.trans hg₂, hs', hW, fun hfall i U n hU => ?_⟩
    -- No fallback in the whole means none in either part.
    have hfall₁ : s₁.fallbacks = s.fallbacks := Nat.le_antisymm (hfall ▸ hle₂) hle₁
    have hfall₂ : s'.fallbacks = s₁.fallbacks := hfall.trans hfall₁.symm
    obtain ⟨b, hb, hy⟩ := hrepeat₁ hfall₁ i U n (le_trans hg₂.le hU)
    obtain ⟨-, -, -, -, hrepeat₂⟩ := hf a b s₁.types (fun _ => hg₁) hb s₁ c s' rfl hs₁ hc
    obtain ⟨d, hd, hgd⟩ := hrepeat₂ hfall₂ i U n hU
    exact ⟨d, hd, InferM.bind_eq_ok.mpr ⟨b, _, hy, hgd⟩⟩
  lift := by
    intro α T V z hz s a s' hT hs h
    obtain ⟨T', hrun, rfl⟩ := InferM.liftM_eq_ok.mp h
    obtain ⟨hg, hV, hlater⟩ := hz trivial a T' (hT ▸ hrun)
    refine ⟨Nat.le_refl _, hg, hs.of_le hg.le, ⟨a, rfl, fun _ => hV⟩, fun _ _ U _ hU => ?_⟩
    exact ⟨a, ⟨rfl, fun _ => hV⟩, InferM.liftM_eq_ok.mpr ⟨U, hlater U hU, rfl⟩⟩
  fallback := by
    intro α β T V x y y' hx s a s' hT hs h
    obtain ⟨⟨⟩, s₁, hs₁, ha⟩ := InferM.bind_eq_ok.mp h
    cases hs₁
    obtain ⟨hle, hg, hs', hV, -⟩ := hx { s with fallbacks := s.fallbacks + 1 } a s' hT hs ha
    have hlt : s.fallbacks + 1 ≤ s'.fallbacks := hle
    exact ⟨Nat.le_of_succ_le hlt, hg, hs', hV, fun hfall => absurd hfall (Nat.ne_of_gt hlt)⟩
  fail := by
    intro α β T V fault s a s' _ _ h
    cases h

/-- A memo cell that is read is read again, and one that is written is written again. -/
theorem remembers_repeating (p : Program) : repeating.Remembers p := by
  intro T env env' judge judge' hJ h d info hinfo s t s' hT hs hrun
  subst hT
  cases hcell : s.memo.get? d with
  | some u =>
    rw [Program.rememberedType_of_cell hcell] at hrun
    cases hrun
    exact ⟨Nat.le_refl _, .refl (h.table trivial), hs, ⟨t, rfl, fun _ => hs d t hcell⟩,
      fun _ i U f _ => ⟨t, ⟨rfl, fun _ => hs d t hcell⟩, Program.rememberedType_of_cell hcell⟩⟩
  | none =>
    rw [Program.rememberedType_of_none hcell] at hrun
    obtain ⟨result, s₁, hresult, hremember⟩ := InferM.bind_eq_ok.mp hrun
    obtain ⟨hle, hg, hs₁, ⟨_, rfl, hhas⟩, hrepeat⟩ := repeating.inferredType p hJ h
      (fun _ t ht => (h.world trivial).declaredType hinfo (Option.mem_toList.mp ht)) s result s₁ rfl
      hs hresult
    rw [Program.remember_eq] at hremember
    cases hremember
    have hagain (hfall : s₁.fallbacks = s.fallbacks) (i : Nat) (U : TypeTable) (f : Nat)
        (hU : s₁.types ≤ U) : p.rememberedType (judge' i) env' d info ⟨U, s.memo, f⟩ =
          .ok result.1 (if result.2 = true ∧ env'.ReplacesNothing then
            ⟨U, s₁.memo.write d result.1, f⟩ else ⟨U, s₁.memo, f⟩) := by
      obtain ⟨_, ⟨rfl, -⟩, hresult'⟩ := hrepeat hfall i U f hU
      refine (Program.rememberedType_of_none (s := ⟨U, s.memo, f⟩) hcell).trans ?_
      rw [InferM.bind_of_ok hresult', Program.remember_eq]
      simp only [true_and]
    have hcond : env'.ReplacesNothing ↔ env.ReplacesNothing :=
      ⟨fun henv => ⟨h.relaxes.hasSubstitutions ▸ henv.hasSubstitutions,
        h.relaxes.this ▸ henv.this⟩, h.relaxes.replacesNothing⟩
    simp only [hcond] at hagain
    split
    · rename_i hkept
      refine ⟨hle, hg, hs₁.write d (hhas trivial), ⟨_, rfl, hhas⟩, fun hfall i U f hU => ?_⟩
      refine ⟨_, ⟨rfl, hhas⟩, (hagain hfall i U f hU).trans ?_⟩
      rw [if_pos ⟨hkept.1, hkept.2.2⟩]
    · rename_i hkept
      refine ⟨hle, hg, hs₁, ⟨_, rfl, hhas⟩, fun hfall i U f hU => ?_⟩
      refine ⟨_, ⟨rfl, hhas⟩, (hagain hfall i U f hU).trans ?_⟩
      rw [if_neg fun hboth => hkept ⟨hboth.1, hfall, hboth.2⟩]

/-- The judgment with fewer guards repeats later on what it did, unless there was a fallback. -/
theorem asks_repeating (p : Program) (room : Nat) :
    repeating.Asks p (p.judge room) fun _ => p.judge room :=
  asks_of_remembers (remembers_repeating p) room room le_rfl

end Comparison

end ScriptTyping
