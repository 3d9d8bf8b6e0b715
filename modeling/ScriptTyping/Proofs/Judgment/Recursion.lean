import ScriptTyping.Proofs.Judgment.Rules

/-!
# From the rules to the judgment

A comparison of the rules becomes one of the judgment by induction on the room, once it covers the
declarations whose type is remembered.  A comparison that does not look at the table covers them as
soon as reading and writing memo cells is compared with itself.

## Main definitions

* `Comparison.Remembers` — declarations with a memo cell are compared.
* `InferM.Inert` — a computation that neither fails nor falls back.

## Main results

* `Comparison.asks_of_remembers` — the judgment, with at least as much room.
* `Comparison.remembers_of_inert` — comparisons that do not look at the table.
-/

namespace ScriptTyping

/-- The computation returns from every memory without noting a fallback. -/
def InferM.Inert {α : Type} (x : InferM α) : Prop :=
  ∀ s, ∃ a s', x s = .ok a s' ∧ s'.fallbacks = s.fallbacks

namespace Comparison

variable {c : Comparison} {p : Program}

/-- Two related judges give related types to a declaration with a memo cell. -/
def Remembers (c : Comparison) (p : Program) : Prop :=
  ∀ {T : TypeTable} {env env' : Environment} {judge : Judge} {judge' : Nat → Judge},
    c.Asks p judge judge' → c.Scope p T env env' → ∀ {d : DeclId} {info : Declaration},
      p.decl? d = some info →
        c.rel T (p.rememberedType judge env d info)
          (fun i => p.rememberedType (judge' i) env' d info) (c.Same TypeTable.Has)

/-- The judgment with at least as much room and fewer guards. -/
theorem asks_of_remembers (h : c.Remembers p) (room : Nat) :
    ∀ room', room ≤ room' → c.Asks p (p.judge room) fun _ => p.judge room' := by
  have hunknown {T : TypeTable} {env env' : Environment} (h : c.Scope p T env env') :
      c.rel T (pure .unknown) (fun _ => pure .unknown) (c.Same TypeTable.Has) :=
    c.reserved (by decide) h.table
  induction room with
  | zero =>
    -- Without room the answer is a fallback, except for a node that does not exist.
    refine fun room' _ => ⟨fun {T env env'} hs n => ?_, fun hs d => c.fallback (hunknown hs)⟩
    cases hn : p.tree.get? n with
    | some node =>
      simp only [Program.judge, hn]
      exact c.fallback (hunknown hs)
    | none =>
      cases room' with
      | zero =>
        simp only [Program.judge, hn]
        exact hunknown hs
      | succ room' =>
        simp only [Program.judge, hn]
        exact hunknown hs
  | succ room ih =>
    intro room' hroom
    obtain ⟨room', rfl⟩ : ∃ k, room' = k + 1 := ⟨room' - 1, by omega⟩
    have hJ := ih room' (by omega)
    refine ⟨fun {T env env'} hs n => ?_, fun {T env env'} hs d => ?_⟩
    · cases hn : p.tree.get? n with
      | none =>
        simp only [Program.judge, hn]
        exact hunknown hs
      | some node =>
        simp only [Program.judge, hn]
        refine c.nodeType p hJ hs ?_
        rw [Program.content?, Tree.content?, hn, Option.map_some]
    · rcases p.declarationType_cases d with ⟨z, hz, hstable⟩ | ⟨info, hinfo, -, hinferred⟩
      · simp only [Program.judge, hz]
        exact c.lift fun tr => hstable T (hs.table tr) (hs.world tr)
      · simp only [Program.judge, hinferred]
        exact h hJ hs hinfo

/-- Reading and writing memo cells need no more than a comparison with itself. -/
theorem remembers_of_inert (hfree : ¬c.tracked)
    (hself : ∀ {α : Type} {T : TypeTable} {x : InferM α} {P : TypeTable → α → Prop},
      x.Inert → c.rel T x (fun _ => x) (c.Same P)) : c.Remembers p := by
  have huntracked {P : Prop} (tr : c.tracked) : P := absurd tr hfree
  have hreads {α : Type} {T : TypeTable} (f : Memory → α) :
      c.rel T (fun s => .ok (f s) s) (fun _ s => .ok (f s) s) (c.Same fun _ _ => True) :=
    hself fun s => ⟨f s, s, rfl, rfl⟩
  intro T env env' judge judge' hJ h d info _
  unfold Program.rememberedType
  refine c.bindSame (hreads fun s => s.memo.get? d) fun cell T₁ _ _ => ?_
  cases cell with
  | some t => exact c.same t huntracked huntracked
  | none =>
    refine c.bindSame (hreads fun s => s.fallbacks) fun before T₂ _ _ => ?_
    refine c.bindSame (c.inferredType p hJ ⟨h.relaxes, huntracked⟩ huntracked)
      fun result T₃ _ _ => ?_
    obtain ⟨t, isKept⟩ := result
    dsimp only
    split
    · have hwrites : c.rel T₃ (Program.memoize env before d t)
          (fun _ => Program.memoize env' before d t) (c.Same fun _ _ => True) := by
        simp only [Program.memoize, h.relaxes.hasSubstitutions, h.relaxes.this]
        refine c.bindSame (hreads fun s => s.fallbacks) fun count _ _ _ => ?_
        split
        · exact hself fun s => ⟨(), { s with memo := s.memo.write d t }, rfl, rfl⟩
        · exact c.same _ huntracked huntracked
      exact c.bindSame hwrites fun _ _ _ _ => c.same t huntracked huntracked
    · exact c.same t huntracked huntracked

end Comparison

end ScriptTyping
