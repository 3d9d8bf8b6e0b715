import ScriptTyping.Proofs.Table.Growth

/-!
# Upper bounds

Wildcards and `this` types mention their bounds, so where rows mention earlier handles only, the
chain of bounds comes to an end.  The end is neither a wildcard nor a `this` type with a receiver.

## Main results

* `TypeTable.exists_upperBound?` — every type has an upper bound, where the chain has ended.
-/

namespace ScriptTyping.TypeTable

variable {T : TypeTable}

/-- Where rows mention earlier handles only, the bounds of wildcards and of `this` come to an end
before the fuel does. -/
theorem exists_boundFrom? (hT : initial.GrowsTo T) (fuel : Nat) : ∀ {t : TypeId}, T.Has t →
    t.index ≤ fuel → ∃ u, T.boundFrom? fuel t = some u ∧ T.Has u ∧
      (T.lookup u).isWildcard = false ∧ (T.lookup u).isBoundThis = false := by
  have hdesc := descending_initial.growsTo hT
  have hany : T.Has .any ∧ (T.lookup .any).isWildcard = false ∧
      (T.lookup .any).isBoundThis = false := by
    rw [lookup_of_le hT.le (by decide)]
    exact ⟨hT.wellFormed.has_reserved (by decide), rfl, rfl⟩
  have hbound {t bound : TypeId} (ht : T.Has t) (hd : bound ∈ (T.lookup t).parts) :
      T.Has bound ∧ bound.index < t.index :=
    ⟨hT.wellFormed.hasAll_parts t bound hd, hdesc t _ ht.lookup? bound hd⟩
  induction fuel with
  | zero =>
    intro t ht hfuel
    have hnone : (T.lookup t).parts = [] :=
      List.eq_nil_iff_forall_not_mem.mpr fun bound hd => by
        have := (hbound ht hd).2
        omega
    rw [boundFrom?]
    cases hd : T.lookup t with
    | wildcard bound kind =>
      rw [hd] at hnone
      obtain rfl : bound = none := Option.toList_eq_nil_iff.mp hnone
      exact ⟨.any, rfl, hany⟩
    | thisType bound =>
      rw [hd] at hnone
      obtain rfl : bound = none := Option.toList_eq_nil_iff.mp hnone
      exact ⟨t, rfl, ht, by rw [hd]; exact ⟨rfl, rfl⟩⟩
    | _ => exact ⟨t, rfl, ht, by rw [hd]; exact ⟨rfl, rfl⟩⟩
  | succ fuel ih =>
    intro t ht hfuel
    have hnext {bound : TypeId} (hd : bound ∈ (T.lookup t).parts) :
        ∃ u, T.boundFrom? fuel bound = some u ∧ T.Has u ∧ (T.lookup u).isWildcard = false ∧
          (T.lookup u).isBoundThis = false := by
      obtain ⟨hhas, hlt⟩ := hbound ht hd
      exact ih hhas (by omega)
    rw [boundFrom?]
    cases hd : T.lookup t with
    | wildcard bound kind =>
      rw [hd] at hnext
      cases bound with
      | none => exact ⟨.any, rfl, hany⟩
      | some bound =>
        cases kind with
        | upper => exact hnext (List.mem_singleton_self bound)
        | lower => exact ⟨.any, rfl, hany⟩
    | thisType bound =>
      rw [hd] at hnext
      cases bound with
      | none => exact ⟨t, rfl, ht, by rw [hd]; exact ⟨rfl, rfl⟩⟩
      | some bound => exact hnext (List.mem_singleton_self bound)
    | _ => exact ⟨t, rfl, ht, by rw [hd]; exact ⟨rfl, rfl⟩⟩

/-- Every type has an upper bound, which is neither a wildcard nor a `this` type with a receiver. -/
theorem exists_upperBound? (hT : initial.GrowsTo T) {t : TypeId} (ht : T.Has t) :
    ∃ u, T.upperBound? t = some u ∧ T.Has u ∧ (T.lookup u).isWildcard = false ∧
      (T.lookup u).isBoundThis = false :=
  exists_boundFrom? hT T.rows.size ht (Nat.le_of_lt ht)

end ScriptTyping.TypeTable
