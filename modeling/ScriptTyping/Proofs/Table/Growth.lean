import Mathlib.Order.Defs.PartialOrder
import ScriptTyping.Types.Table

/-!
# Growth of the type table

A computation over types only adds rows to the table.  Tables are ordered by what they store: a
later table keeps every row, handle and symbol of an earlier one.  A well-formed table is one whose
reverse index is right and whose rows mention only handles of the table; storing a value that
mentions such handles keeps it well-formed, and the new row mentions earlier handles only.

## Main definitions

* `TypeData.parts` — the handles that a layer mentions.
* `TypeTable.Extends` — the order of tables, written `≤`.
* `TypeTable.WellFormed` — the representation invariant.
* `TypeTable.GrowsTo` — an extension that keeps the invariant and adds descending rows.

## Main results

* `TypeTable.lookup_of_le` — a handle of the table reads the same in every later table.
* `TypeTable.growsTo_intern`, `TypeTable.intern_of_le` — storing a value, now and later.
-/

namespace ScriptTyping

/-- The type handles that a layer mentions. -/
def TypeData.parts : TypeData → List TypeId
  | nominal _ args => args
  | structural members => members.map (·.type)
  | union members | intersection members => members
  | function signature =>
    signature.params.map (·.type) ++ signature.returnType :: signature.thisType.toList
  | thisType bound | wildcard bound _ => bound.toList
  | metaType arg _ => [arg]
  | unknown | dynamicAny | primitive _ | literal _ | typeVariable _ => []

namespace TypeTable

/-- The second table keeps all rows, handles and symbols of the first. -/
structure Extends (T T' : TypeTable) : Prop where
  rows : ∀ (i : Nat) data, T.rows[i]? = some data → T'.rows[i]? = some data
  handles : ∀ (data : TypeData) t, T.handles[data]? = some t → T'.handles[data]? = some t
  texts : ∀ (i : Nat) text, T.symbols.texts[i]? = some text → T'.symbols.texts[i]? = some text
  positions : ∀ (text : String) s, T.symbols.positions[text]? = some s →
    T'.symbols.positions[text]? = some s

instance : LE TypeTable := ⟨Extends⟩

instance : Preorder TypeTable where
  le_refl _ := ⟨fun _ _ h => h, fun _ _ h => h, fun _ _ h => h, fun _ _ h => h⟩
  le_trans _ _ _ h₁ h₂ :=
    ⟨fun i d h => h₂.rows i d (h₁.rows i d h), fun d t h => h₂.handles d t (h₁.handles d t h),
      fun i s h => h₂.texts i s (h₁.texts i s h),
      fun s i h => h₂.positions s i (h₁.positions s i h)⟩

/-- The handle belongs to a row of the table. -/
def Has (T : TypeTable) (t : TypeId) : Prop := t.index < T.rows.size

/-- All handles of a list belong to rows of the table. -/
def HasAll (T : TypeTable) (ts : List TypeId) : Prop := ∀ t ∈ ts, T.Has t

instance (T : TypeTable) (t : TypeId) : Decidable (T.Has t) :=
  inferInstanceAs (Decidable (t.index < T.rows.size))

instance (T : TypeTable) (ts : List TypeId) : Decidable (T.HasAll ts) :=
  inferInstanceAs (Decidable (∀ t ∈ ts, T.Has t))

/-- The symbol has a text in the table. -/
def Names (T : TypeTable) (s : Symbol) : Prop := s.index < T.symbols.texts.size

/-- The representation invariant: the reverse index is right, rows mention only handles of the
table, and the reserved rows are there. -/
structure WellFormed (T : TypeTable) : Prop where
  handles_sound : ∀ (data : TypeData) t, T.handles[data]? = some t → T.lookup? t = some data
  parts_has : ∀ t data, T.lookup? t = some data → T.HasAll data.parts
  reserved : TypeId.firstDynamic ≤ T.rows.size

/-- Every row mentions only handles before its own. -/
def Descending (T : TypeTable) : Prop :=
  ∀ t data, T.lookup? t = some data → ∀ s ∈ data.parts, s.index < t.index

/-- An extension that is well-formed and whose new rows mention earlier handles only. -/
structure GrowsTo (T T' : TypeTable) : Prop where
  le : T ≤ T'
  wellFormed : T'.WellFormed
  descends : ∀ t data, T.rows.size ≤ t.index → T'.lookup? t = some data →
    ∀ s ∈ data.parts, s.index < t.index

variable {T T' T'' : TypeTable} {t : TypeId} {data : TypeData}

/-! ### The order -/

theorem lookup?_of_le (h : T ≤ T') (ht : T.lookup? t = some data) : T'.lookup? t = some data :=
  h.rows _ _ ht

theorem has_iff : T.Has t ↔ ∃ data, T.lookup? t = some data := by
  simp only [Has, lookup?]
  constructor
  · intro h
    exact ⟨_, Array.getElem?_eq_getElem h⟩
  · rintro ⟨data, h⟩
    exact (Array.getElem?_eq_some_iff.mp h).choose

theorem lookup_eq (ht : T.lookup? t = some data) : T.lookup t = data := by
  rw [lookup, ht, Option.getD_some]

theorem Has.lookup? (ht : T.Has t) : T.lookup? t = some (T.lookup t) := by
  obtain ⟨data, h⟩ := has_iff.mp ht
  rw [h, lookup_eq h]

theorem Has.of_le (h : T ≤ T') (ht : T.Has t) : T'.Has t :=
  has_iff.mpr ⟨_, lookup?_of_le h ht.lookup?⟩

theorem hasAll_nil : T.HasAll [] := fun _ h => by cases h

theorem Has.hasAll (ht : T.Has t) : T.HasAll [t] := fun s hs => by
  rw [List.mem_singleton.mp hs]
  exact ht

theorem HasAll.append {ts us : List TypeId} (hts : T.HasAll ts) (hus : T.HasAll us) :
    T.HasAll (ts ++ us) := fun t ht => by
  rcases List.mem_append.mp ht with ht | ht
  · exact hts t ht
  · exact hus t ht

theorem HasAll.of_le {ts : List TypeId} (h : T ≤ T') (hts : T.HasAll ts) : T'.HasAll ts :=
  fun t ht => (hts t ht).of_le h

/-- A handle of the table reads the same in every later table. -/
theorem lookup_of_le (h : T ≤ T') (ht : T.Has t) : T'.lookup t = T.lookup t :=
  lookup_eq (lookup?_of_le h ht.lookup?)

/-- Only a handle outside the table or a reserved one reads as unknown. -/
theorem has_of_lookup_ne (h : T.lookup t ≠ .unknown) : T.Has t := by
  refine Nat.lt_of_not_le fun hle => h ?_
  have hnone : T.lookup? t = none := Array.getElem?_eq_none hle
  rw [lookup, hnone, Option.getD_none]

theorem rows_size_le (h : T ≤ T') : T.rows.size ≤ T'.rows.size := by
  refine Nat.le_of_not_lt fun hlt => ?_
  have hHas : T.Has ⟨T'.rows.size⟩ := hlt
  exact Nat.lt_irrefl _ (hHas.of_le h)

theorem Names.of_le {s : Symbol} (h : T ≤ T') (hs : T.Names s) : T'.Names s := by
  have := h.texts _ _ (Array.getElem?_eq_getElem hs)
  exact (Array.getElem?_eq_some_iff.mp this).choose

/-- A symbol of the table reads the same in every later table. -/
theorem resolve_of_le {s : Symbol} (h : T ≤ T') (hs : T.Names s) :
    T'.symbols.resolve s = T.symbols.resolve s := by
  have hT := Array.getElem?_eq_getElem hs
  rw [SymbolTable.resolve, SymbolTable.resolve, h.texts _ _ hT, hT]

/-! ### The invariant -/

theorem WellFormed.hasAll_parts (hT : T.WellFormed) (t : TypeId) :
    T.HasAll (T.lookup t).parts := by
  intro s hs
  cases h : T.lookup? t with
  | none =>
    rw [lookup, h, Option.getD_none] at hs
    cases hs
  | some data =>
    rw [lookup_eq h] at hs
    exact hT.parts_has t data h s hs

theorem WellFormed.hasAll_of_lookup (hT : T.WellFormed) (ht : T.lookup t = data) :
    T.HasAll data.parts :=
  ht ▸ hT.hasAll_parts t

/-- A value that stands in no row has no handle. -/
theorem WellFormed.handles_eq_none (hT : T.WellFormed) (h : data ∉ T.rows.toList) :
    T.handles[data]? = none := by
  cases hfound : T.handles[data]? with
  | none => rfl
  | some t =>
    have hmem := Array.mem_of_getElem? (hT.handles_sound data t hfound)
    exact absurd (Array.mem_toList_iff.mpr hmem) h

theorem WellFormed.has_reserved (hT : T.WellFormed) (ht : t.index < TypeId.firstDynamic) :
    T.Has t :=
  Nat.lt_of_lt_of_le ht hT.reserved

theorem GrowsTo.refl (hT : T.WellFormed) : T.GrowsTo T where
  le := le_rfl
  wellFormed := hT
  descends t data hsize ht := by
    have : T.Has t := has_iff.mpr ⟨data, ht⟩
    simp only [Has] at this
    omega

theorem GrowsTo.trans (h₁ : T.GrowsTo T') (h₂ : T'.GrowsTo T'') : T.GrowsTo T'' where
  le := le_trans h₁.le h₂.le
  wellFormed := h₂.wellFormed
  descends t data hsize ht s hs := by
    rcases Nat.lt_or_ge t.index T'.rows.size with hlt | hge
    · have hHas : T'.Has t := hlt
      have hsame : T'.lookup t = data :=
        (lookup_of_le h₂.le hHas).symm.trans (lookup_eq ht)
      exact h₁.descends t data hsize (hsame ▸ hHas.lookup?) s hs
    · exact h₂.descends t data hge ht s hs

/-- Growth keeps rows descending. -/
theorem Descending.growsTo (h : T.GrowsTo T') (hT : T.Descending) : T'.Descending := by
  intro t data ht s hs
  rcases Nat.lt_or_ge t.index T.rows.size with hlt | hge
  · have hHas : T.Has t := hlt
    have hsame : T.lookup t = data := (lookup_of_le h.le hHas).symm.trans (lookup_eq ht)
    exact hT t data (hsame ▸ hHas.lookup?) s hs
  · exact h.descends t data hge ht s hs

/-! ### Storing a value -/

theorem intern_of_handle (h : T.handles[data]? = some t) : T.intern data = (t, T) := by
  obtain ⟨rows, handles, symbols⟩ := T
  simp only at h
  simp only [intern, h]

/-- The table with a value in its next row. -/
def store (T : TypeTable) (data : TypeData) : TypeTable :=
  ⟨T.rows.push data, T.handles.insert data ⟨T.rows.size⟩, T.symbols⟩

theorem intern_of_new (h : T.handles[data]? = none) :
    T.intern data = (⟨T.rows.size⟩, T.store data) := by
  obtain ⟨rows, handles, symbols⟩ := T
  simp only at h
  simp only [intern, h, store]

theorem le_store (h : T.handles[data]? = none) : T ≤ T.store data where
  rows i d hi := by
    have hlt := (Array.getElem?_eq_some_iff.mp hi).choose
    rw [store, Array.getElem?_push_lt hlt, ← hi, Array.getElem?_eq_getElem hlt]
  handles d t ht := by
    have hne : data ≠ d := by
      rintro rfl
      rw [h] at ht
      cases ht
    rw [store, Std.HashMap.getElem?_insert]
    simp only [beq_iff_eq, hne, ↓reduceIte, ht]
  texts _ _ hi := hi
  positions _ _ hi := hi

theorem lookup?_store (t : TypeId) :
    (T.store data).lookup? t = if t.index = T.rows.size then some data else T.lookup? t := by
  simp only [store, lookup?, Array.getElem?_push]

theorem handles_store (T : TypeTable) (data : TypeData) :
    (T.store data).handles[data]? = some ⟨T.rows.size⟩ := by
  rw [store, Std.HashMap.getElem?_insert_self]

theorem handles_store_of_ne {d : TypeData} (hne : data ≠ d) :
    (T.store data).handles[d]? = T.handles[d]? := by
  rw [store, Std.HashMap.getElem?_insert]
  simp only [beq_iff_eq, hne, ↓reduceIte]

private theorem Has.store (data : TypeData) (ht : T.Has t) : (T.store data).Has t := by
  simp only [Has, TypeTable.store, Array.size_push] at ht ⊢
  omega

/-- A further row that mentions handles of the table keeps the table well-formed. -/
theorem wellFormed_store (hT : T.WellFormed) (hdata : T.HasAll data.parts) :
    (T.store data).WellFormed where
  handles_sound d t ht := by
    rw [store, Std.HashMap.getElem?_insert] at ht
    rw [lookup?_store]
    split at ht
    · rename_i heq
      obtain rfl := Option.some.inj ht
      simp only [↓reduceIte, Option.some.injEq]
      exact eq_of_beq heq
    · have hlook := hT.handles_sound d t ht
      have hHas : T.Has t := has_iff.mpr ⟨d, hlook⟩
      rw [if_neg (Nat.ne_of_lt hHas), hlook]
  parts_has t d ht := by
    rw [lookup?_store] at ht
    split at ht
    · obtain rfl := Option.some.inj ht
      exact fun s hs => (hdata s hs).store data
    · exact fun s hs => (hT.parts_has t d ht s hs).store data
  reserved := by
    simp only [store, Array.size_push]
    exact Nat.le_succ_of_le hT.reserved

/-- A stored value has a handle, and the handle reads as the value. -/
theorem handles_intern (T : TypeTable) (data : TypeData) :
    (T.intern data).2.handles[data]? = some (T.intern data).1 := by
  cases h : T.handles[data]? with
  | some t => rw [intern_of_handle h, h]
  | none => rw [intern_of_new h, store, Std.HashMap.getElem?_insert_self]

/-- Storing a value extends every table. -/
theorem le_intern (T : TypeTable) (data : TypeData) : T ≤ (T.intern data).2 := by
  cases h : T.handles[data]? with
  | some t => rw [intern_of_handle h]
  | none =>
    rw [intern_of_new h]
    exact le_store h

/-- Storing a value that mentions handles of the table keeps the table well-formed. -/
theorem growsTo_intern (hT : T.WellFormed) (hdata : T.HasAll data.parts) :
    T.GrowsTo (T.intern data).2 := by
  cases h : T.handles[data]? with
  | some t =>
    rw [intern_of_handle h]
    exact .refl hT
  | none =>
    rw [intern_of_new h]
    refine ⟨le_store h, wellFormed_store hT hdata, fun t d hsize ht s hs => ?_⟩
    rw [lookup?_store] at ht
    split at ht
    · obtain rfl := Option.some.inj ht
      exact Nat.lt_of_lt_of_le (hdata s hs) hsize
    · have hHas : T.Has t := has_iff.mpr ⟨d, ht⟩
      exact absurd hHas (Nat.not_lt_of_le hsize)

/-- A table that grew may be given another row. -/
theorem GrowsTo.store (h : T.GrowsTo T') (hparts : T'.HasAll data.parts)
    (hnew : data ∉ T'.rows.toList) : T.GrowsTo (T'.store data) := by
  have hg := growsTo_intern h.wellFormed hparts
  rw [intern_of_new (h.wellFormed.handles_eq_none hnew)] at hg
  exact h.trans hg

/-- A value that was stored once is found again in every later table. -/
theorem intern_of_le (h : (T.intern data).2 ≤ T') : T'.intern data = ((T.intern data).1, T') :=
  intern_of_handle (h.handles _ _ (handles_intern T data))

theorem lookup_intern (hT : T.WellFormed) (hdata : T.HasAll data.parts) :
    (T.intern data).2.lookup? (T.intern data).1 = some data :=
  (growsTo_intern hT hdata).wellFormed.handles_sound _ _ (handles_intern T data)

theorem has_intern (hT : T.WellFormed) (hdata : T.HasAll data.parts) :
    (T.intern data).2.Has (T.intern data).1 :=
  has_iff.mpr ⟨data, lookup_intern hT hdata⟩

/-! ### The initial table -/

private theorem mem_of_foldl_insert {l : List (TypeId × TypeData)} :
    ∀ {m : Std.HashMap TypeData TypeId},
      (l.foldl (fun handles row => handles.insert row.2 row.1) m)[data]? = some t →
      m[data]? = some t ∨ (t, data) ∈ l := by
  induction l with
  | nil => exact fun h => .inl h
  | cons row l ih =>
    intro m h
    rcases ih h with h | h
    · rw [Std.HashMap.getElem?_insert] at h
      split at h
      · rename_i heq
        obtain rfl := Option.some.inj h
        obtain rfl := eq_of_beq heq
        exact .inr (List.mem_cons_self ..)
      · exact .inl h
    · exact .inr (List.mem_cons_of_mem _ h)

private theorem foldl_insert_of_mem {l : List (TypeId × TypeData)} :
    ∀ {m : Std.HashMap TypeData TypeId}, (l.map Prod.snd).Nodup → (t, data) ∈ l ∨
      (∀ row ∈ l, row.2 ≠ data) ∧ m[data]? = some t →
      (l.foldl (fun handles row => handles.insert row.2 row.1) m)[data]? = some t := by
  induction l with
  | nil =>
    rintro m - (h | ⟨-, h⟩)
    · cases h
    · exact h
  | cons row l ih =>
    intro m hnodup h
    rw [List.map_cons, List.nodup_cons] at hnodup
    refine ih hnodup.2 ?_
    rcases h with h | ⟨hne, h⟩
    · rcases List.mem_cons.mp h with rfl | h
      · refine .inr ⟨fun row hrow heq =>
        hnodup.1 (List.mem_map.mpr ⟨row, hrow, heq⟩), ?_⟩
        rw [Std.HashMap.getElem?_insert_self]
      · exact .inl h
    · refine .inr ⟨fun row' hrow' => hne row' (List.mem_cons_of_mem _ hrow'), ?_⟩
      rw [Std.HashMap.getElem?_insert]
      simpa only [beq_iff_eq, hne row (List.mem_cons_self ..), ↓reduceIte] using h

private theorem initial_parts (t : TypeId) (h : initial.lookup? t = some data) :
    data.parts = [] := by
  have hrows : ∀ row ∈ initial.rows.toList, row.parts = [] := by decide
  exact hrows data (Array.mem_toList_iff.mpr (Array.mem_of_getElem? h))

theorem lookup?_intrinsic : ∀ row ∈ intrinsics, initial.lookup? row.1 = some row.2 := by
  decide

/-- The table of the intrinsic types is well-formed. -/
theorem wellFormed_initial : initial.WellFormed where
  handles_sound data t h := by
    rcases mem_of_foldl_insert h with h | h
    · simp at h
    · exact lookup?_intrinsic (t, data) h
  parts_has t data h := by
    rw [initial_parts t h]
    exact fun _ h => by cases h
  reserved := by decide

/-- The intrinsic types have their reserved handles, and nothing else has one. -/
theorem handles_initial : initial.handles[data]? = some t ↔ (t, data) ∈ intrinsics := by
  constructor
  · intro h
    rcases mem_of_foldl_insert h with hempty | hmem
    · simp at hempty
    · exact hmem
  · exact fun h => foldl_insert_of_mem (by decide) (.inl h)

/-- Other values than the intrinsic types have no handle yet. -/
theorem handles_initial_of_ne (h : ∀ row ∈ intrinsics, row.2 ≠ data) :
    initial.handles[data]? = none := by
  cases hfound : initial.handles[data]? with
  | none => rfl
  | some t => exact absurd rfl (h (t, data) (handles_initial.mp hfound))

/-- The intrinsic types mention no handles. -/
theorem descending_initial : initial.Descending := by
  intro t data h s hs
  rw [initial_parts t h] at hs
  cases hs

/-! ### Symbols -/

/-- Storing a text extends every table. -/
theorem le_internSymbol (T : TypeTable) (text : String) : T ≤ (T.internSymbol text).2 := by
  obtain ⟨rows, handles, ⟨texts, positions⟩⟩ := T
  cases h : positions[text]? with
  | some s =>
    simp only [internSymbol, SymbolTable.intern, h, le_refl]
  | none =>
    simp only [internSymbol, SymbolTable.intern, h]
    refine ⟨fun _ _ hi => hi, fun _ _ hi => hi, ?_, ?_⟩
    · intro i s hi
      have hlt := (Array.getElem?_eq_some_iff.mp hi).choose
      rw [Array.getElem?_push_lt hlt, ← hi, Array.getElem?_eq_getElem hlt]
    · intro other s hs
      have hne : text ≠ other := by
        rintro rfl
        rw [h] at hs
        cases hs
      rw [Std.HashMap.getElem?_insert]
      simp only [beq_iff_eq, hne, ↓reduceIte, hs]

/-- Storing a text changes no row. -/
theorem growsTo_internSymbol (hT : T.WellFormed) (text : String) :
    T.GrowsTo (T.internSymbol text).2 := by
  have hle := le_internSymbol T text
  obtain ⟨rows, handles, symbols⟩ := T
  exact ⟨hle, ⟨hT.handles_sound, hT.parts_has, hT.reserved⟩, (GrowsTo.refl hT).descends⟩

/-- A stored text has a symbol. -/
theorem positions_internSymbol (T : TypeTable) (text : String) :
    (T.internSymbol text).2.symbols.positions[text]? = some (T.internSymbol text).1 := by
  obtain ⟨rows, handles, ⟨texts, positions⟩⟩ := T
  cases hp : positions[text]? with
  | some s => simp only [internSymbol, SymbolTable.intern, hp]
  | none => simp only [internSymbol, SymbolTable.intern, hp, Std.HashMap.getElem?_insert_self]

/-- A text that was stored once is found again in every later table. -/
theorem internSymbol_of_le {text : String} (h : (T.internSymbol text).2 ≤ T') :
    T'.internSymbol text = ((T.internSymbol text).1, T') := by
  have hpos := h.positions _ _ (positions_internSymbol T text)
  obtain ⟨rows, handles, ⟨texts, positions⟩⟩ := T'
  simp only at hpos
  simp only [internSymbol, SymbolTable.intern, hpos]

end TypeTable

end ScriptTyping
