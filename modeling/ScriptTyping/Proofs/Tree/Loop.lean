/-!
# Loops

A loop without a limit goes from state to state until it stops with a result.  Whether it stops is
part of what is claimed of it here: the relation between a state and the result is inductive, and it
counts the rounds in which the loop goes on.

## Main definitions

* `Loop` — the body of a loop.
* `Loop.Returns` — the loop stops with a result after a number of rounds.

## Main results

* `Loop.returns_of_climbs` — a loop whose states climb in a bounded rank stops.
-/

namespace ScriptTyping

/-- The body of a loop: from a state it goes on with the next one or stops with a result. -/
abbrev Loop (σ ρ : Type) := σ → σ ⊕ ρ

namespace Loop

variable {σ ρ : Type}

/-- From a state the loop goes on for a number of rounds and then stops with a result. -/
inductive Returns (body : Loop σ ρ) : Nat → σ → ρ → Prop
  | stop {s r} (h : body s = .inr r) : Returns body 0 s r
  | goOn {rounds s s' r} (h : body s = .inl s') (hrest : Returns body rounds s' r) :
      Returns body (rounds + 1) s r

/-- A loop whose states climb in a bounded rank stops, after no more rounds than there are ranks
above the state, with the value of every function that the rounds keep. -/
theorem returns_of_climbs (body : Loop σ ρ) (f : σ → ρ) (rank : σ → Nat) {bound : Nat}
    (hclimbs : ∀ s s', body s = .inl s' → rank s < rank s' ∧ rank s' < bound)
    (hkeeps : ∀ s, f s = (body s).elim f id) (s : σ) :
    ∃ rounds ≤ bound - 1 - rank s, Returns body rounds s (f s) := by
  induction hroom : bound - rank s using Nat.strongRecOn generalizing s with
  | ind room ih =>
    rw [hkeeps]
    cases hbody : body s with
    | inr r => exact ⟨0, Nat.zero_le _, .stop hbody⟩
    | inl s' =>
      obtain ⟨hlt, hbound⟩ := hclimbs s s' hbody
      obtain ⟨rounds, hle, hreturns⟩ := ih (bound - rank s') (by omega) s' rfl
      exact ⟨rounds + 1, by omega, .goOn hbody hreturns⟩

end Loop

end ScriptTyping
