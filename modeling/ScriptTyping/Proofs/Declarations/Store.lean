import ScriptTyping.Declarations.Store

/-!
# Reading the declaration store after changes

What stands under a number after a declaration is changed or registered.

## Main results

* `Declarations.get?_update`, `Declarations.get?_register` — reading after a change.
-/

namespace ScriptTyping.Declarations

theorem get?_update (ds : Declarations) (d e : DeclId) (f : Declaration → Declaration) :
    (ds.update d f).get? e = if e = d then (ds.get? e).map f else ds.get? e := by
  obtain ⟨i⟩ := d
  obtain ⟨j⟩ := e
  cases i with
  | zero =>
    cases j with
    | zero => rfl
    | succ j => rfl
  | succ i =>
    cases j with
    | zero => rfl
    | succ j =>
      simp only [update, get?, Array.getElem?_modify, DeclId.mk.injEq, Nat.add_right_cancel_iff,
        eq_comm]

theorem get?_update_of_some {ds : Declarations} {e : DeclId} {info : Declaration}
    (h : ds.get? e = some info) (d : DeclId) (f : Declaration → Declaration) :
    (ds.update d f).get? e = some (if e = d then f info else info) := by
  rw [get?_update, h]
  split <;> rfl

theorem size_update (ds : Declarations) (d : DeclId) (f : Declaration → Declaration) :
    (ds.update d f).size = ds.size := by
  obtain ⟨_ | i⟩ := d
  · rfl
  · exact Array.size_modify ..

theorem get?_register (ds : Declarations) (decl : Declaration) (e : DeclId) :
    (ds.register decl).2.get? e = if e.index = ds.size + 1 then some decl else ds.get? e := by
  obtain ⟨_ | j⟩ := e
  · rfl
  · simp [register, get?, size, Array.getElem?_push]

theorem size_register (ds : Declarations) (decl : Declaration) :
    (ds.register decl).2.size = ds.size + 1 :=
  Array.size_push ..

/-- Only numbers up to the size belong to declarations. -/
theorem index_le_of_get? {ds : Declarations} {d : DeclId} {info : Declaration}
    (h : ds.get? d = some info) : d.index ≤ ds.size := by
  obtain ⟨_ | i⟩ := d
  · cases h
  · exact (Array.getElem?_eq_some_iff.mp h).choose

end ScriptTyping.Declarations
