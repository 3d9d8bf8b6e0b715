import Mathlib.Data.List.Forall2
import Mathlib.Data.List.Infix
import ScriptTyping.Proofs.Decimal.NormalForm
import ScriptTyping.Proofs.Table.Stable

/-!
# Calls that store types

Types come into the table through one call for each kind of layer.  The table keeps two views of
what is stored, the rows and the reverse index, which every call updates together; and the call for
numbers stores a normal form.  So two calls return one handle exactly when they were given the same
data, decimals being compared by value.

Nothing is asked of the components: a call may mention handles that the table does not have yet.

## Main definitions

* `Construction`, `Construction.run` — a call with its data.
* `Construction.data` — the layer that a call is given, with a decimal as written.
* `TypeData.SameValue` — equality of layers, decimals being compared by value.
* `TypeTable.Indexed` — rows and reverse index agree outside the rows held back.

## Main results

* `TypeTable.Indexed.intern`, `TypeTable.Indexed.internSymbol` — storing keeps the index right.
* `Construction.run_known`, `Construction.runs_known` — calls return handles of their data.
* `Construction.Known.eq_iff` — two calls return one handle exactly when their data are equal.
-/

namespace ScriptTyping

/-- A call that stores a type, with the data given to it. -/
inductive Construction where
  | nominal (decl : DeclId) (args : List TypeId)
  | simple (decl : DeclId)
  | structural (members : List Property)
  | union (members : List TypeId)
  | intersection (members : List TypeId)
  | function (signature : Signature)
  | booleanLiteral (value : Bool)
  | numberLiteral (value : Decimal)
  | stringLiteral (value : Symbol)
  | textLiteral (value : String)
  | enumLiteral (enumDecl member : DeclId)
  | literal (value : LiteralValue)
  | thisType (bound : Option TypeId)
  | typeVariable (decl : DeclId)
  | wildcard (bound : Option TypeId) (kind : WildcardKind)
  | metaType (arg : TypeId)
  | constructorType (arg : TypeId)
  deriving DecidableEq, Repr

/-- The layer with a decimal in normal form. -/
def TypeData.normalized : TypeData → TypeData
  | literal (.number value) => literal (.number value.normalize)
  | data => data

/-- The layers are equal, decimals being compared by value. -/
def TypeData.SameValue : TypeData → TypeData → Prop
  | literal (.number a), literal (.number b) => a.SameValue b
  | a, b => a = b

/-- The layer is that of an intrinsic type. -/
def TypeData.isIntrinsic : TypeData → Bool
  | unknown | dynamicAny | primitive _ => true
  | _ => false

/-- Layers have one normal form exactly when they are equal up to the form of decimals. -/
theorem TypeData.normalized_eq_iff {a b : TypeData} :
    a.normalized = b.normalized ↔ a.SameValue b := by
  cases a with
  | literal x =>
    cases b with
    | literal y =>
      cases x <;> cases y <;> simp [normalized, SameValue, Decimal.normalize_eq_iff]
    | _ => cases x <;> simp [normalized, SameValue]
  | _ =>
    cases b with
    | literal y => cases y <;> simp [normalized, SameValue]
    | _ => simp [normalized, SameValue]

namespace Construction

/-- Makes the call. -/
def run : Construction → TypeM TypeId
  | nominal decl args => TypeM.nominal decl args
  | simple decl => TypeM.simple decl
  | structural members => TypeM.structural members
  | union members => TypeM.union members
  | intersection members => TypeM.intersection members
  | function signature => TypeM.function signature
  | booleanLiteral value => TypeM.booleanLiteral value
  | numberLiteral value => TypeM.numberLiteral value
  | stringLiteral value => TypeM.stringLiteral value
  | textLiteral value => TypeM.textLiteral value
  | enumLiteral enumDecl member => TypeM.enumLiteral enumDecl member
  | literal value => TypeM.literal value
  | thisType bound => TypeM.thisType bound
  | typeVariable decl => TypeM.typeVariable decl
  | wildcard bound kind => TypeM.wildcard bound kind
  | metaType arg => TypeM.metaType arg
  | constructorType arg => TypeM.constructorType arg

/-- The layer that the call is given.  A text stands in it as its symbol in the table. -/
def data (T : TypeTable) : Construction → TypeData
  | nominal decl args => .nominal decl args
  | simple decl => .nominal decl []
  | structural members => .structural members
  | union members => .union members
  | intersection members => .intersection members
  | function signature => .function signature
  | booleanLiteral value => .literal (.boolean value)
  | numberLiteral value => .literal (.number value)
  | stringLiteral value => .literal (.string value)
  | textLiteral value => .literal (.string (T.internSymbol value).1)
  | enumLiteral enumDecl member => .literal (.enumMember enumDecl member)
  | literal value => .literal value
  | thisType bound => .thisType bound
  | typeVariable decl => .typeVariable decl
  | wildcard bound kind => .wildcard bound kind
  | metaType arg => .metaType arg false
  | constructorType arg => .metaType arg true

/-- The type handles among the data. -/
def components (c : Construction) : List TypeId := (c.data .initial).parts

/-- The text among the data, which the call stores first. -/
def text? : Construction → Option String
  | textLiteral value => some value
  | _ => none

/-- The table once the text among the data is stored. -/
def named (T : TypeTable) (c : Construction) : TypeTable :=
  match c.text? with
  | some text => (T.internSymbol text).2
  | none => T

variable {T T' : TypeTable} {c : Construction}

theorem parts_normalized (data : TypeData) : data.normalized.parts = data.parts := by
  cases data with
  | literal value => cases value <;> rfl
  | _ => rfl

theorem parts_data (T : TypeTable) (c : Construction) : (c.data T).parts = c.components := by
  cases c <;> rfl

/-- A call stores the text among its data and then the layer. -/
theorem run_eq (c : Construction) (T : TypeTable) :
    c.run T = .ok ((c.named T).intern (c.data T).normalized).1
      ((c.named T).intern (c.data T).normalized).2 := by
  cases c with
  | literal value => cases value <;> rfl
  | _ => rfl

/-- No call is given an intrinsic type. -/
theorem isIntrinsic_data (T : TypeTable) (c : Construction) :
    (c.data T).normalized.isIntrinsic = false := by
  cases c with
  | literal value => cases value <;> rfl
  | _ => rfl

end Construction

/-! ### The reverse index -/

namespace TypeTable

/-- The rows and the reverse index agree: every row but those held back has its own handle, the
symbols agree with the texts, and no handle held back was given out. -/
structure Indexed (T : TypeTable) : Prop where
  intrinsic : ∀ row ∈ intrinsics,
    T.lookup? row.1 = some row.2 ∧ T.handles[row.2]? = some row.1
  stored : ∀ t data, TypeId.firstDynamic ≤ t.index → T.lookup? t = some data →
    T.handles[data]? = some t
  sound : ∀ (data : TypeData) t, T.handles[data]? = some t → T.lookup? t = some data
  given : ∀ (data : TypeData) t, T.handles[data]? = some t →
    t.index < intrinsics.length ∨ TypeId.firstDynamic ≤ t.index
  reserved : TypeId.firstDynamic ≤ T.rows.size
  held : ∀ t : TypeId, intrinsics.length ≤ t.index → t.index < TypeId.firstDynamic →
    T.lookup? t = some .unknown
  texts : ∀ (text : String) s, T.symbols.positions[text]? = some s →
    T.symbols.texts[s.index]? = some text

variable {T T' : TypeTable} {data : TypeData} {t : TypeId}

theorem indexed_initial : initial.Indexed where
  intrinsic row hrow := ⟨lookup?_intrinsic row hrow, handles_initial.mpr hrow⟩
  stored t data hle ht := by
    have hHas : initial.Has t := has_iff.mpr ⟨data, ht⟩
    exact absurd hHas (Nat.not_lt_of_le hle)
  sound := wellFormed_initial.handles_sound
  given data t h := by
    have hrows : ∀ row ∈ intrinsics, row.1.index < intrinsics.length := by decide
    exact .inl (hrows (t, data) (handles_initial.mp h))
  reserved := wellFormed_initial.reserved
  held t hle hlt := by
    have hrows : ∀ i < TypeId.firstDynamic, intrinsics.length ≤ i →
        initial.lookup? ⟨i⟩ = some .unknown := by decide
    exact hrows t.index hlt hle
  texts text s h := by
    simp only [initial, SymbolTable.initial, Std.HashMap.getElem?_insert] at h ⊢
    split at h
    · rename_i heq
      obtain rfl := Option.some.inj h
      obtain rfl := eq_of_beq heq
      rfl
    · simp at h

/-- Storing a layer keeps the index right. -/
theorem Indexed.store (hT : T.Indexed) (hnew : T.handles[data]? = none) :
    (T.store data).Indexed where
  intrinsic row hrow := by
    obtain ⟨hlook, hhandle⟩ := hT.intrinsic row hrow
    exact ⟨lookup?_of_le (le_store hnew) hlook, (le_store hnew).handles _ _ hhandle⟩
  stored t d hle ht := by
    rw [lookup?_store] at ht
    split at ht
    · rename_i heq
      obtain rfl := Option.some.inj ht
      rw [handles_store, ← heq]
    · exact (le_store hnew).handles _ _ (hT.stored t d hle ht)
  sound d t h := by
    by_cases heq : data = d
    · subst heq
      rw [handles_store] at h
      obtain rfl := Option.some.inj h
      rw [lookup?_store, if_pos rfl]
    · rw [handles_store_of_ne heq] at h
      exact lookup?_of_le (le_store hnew) (hT.sound d t h)
  given d t h := by
    by_cases heq : data = d
    · subst heq
      rw [handles_store] at h
      obtain rfl := Option.some.inj h
      exact .inr hT.reserved
    · rw [handles_store_of_ne heq] at h
      exact hT.given d t h
  reserved := Nat.le_trans hT.reserved (rows_size_le (le_store hnew))
  held t hle hlt := lookup?_of_le (le_store hnew) (hT.held t hle hlt)
  texts := hT.texts

theorem Indexed.intern (hT : T.Indexed) (data : TypeData) : (T.intern data).2.Indexed := by
  cases h : T.handles[data]? with
  | some t =>
    rw [intern_of_handle h]
    exact hT
  | none =>
    rw [intern_of_new h]
    exact hT.store h

/-- Storing a text keeps the index right. -/
theorem Indexed.internSymbol (hT : T.Indexed) (text : String) :
    (T.internSymbol text).2.Indexed := by
  have htexts := hT.texts
  obtain ⟨rows, handles, ⟨texts, positions⟩⟩ := T
  cases h : positions[text]? with
  | some s =>
    simp only [TypeTable.internSymbol, SymbolTable.intern, h]
    exact hT
  | none =>
    simp only [TypeTable.internSymbol, SymbolTable.intern, h]
    refine ⟨hT.intrinsic, hT.stored, hT.sound, hT.given, hT.reserved, hT.held,
      fun other s hs => ?_⟩
    simp only [Std.HashMap.getElem?_insert] at hs
    split at hs
    · rename_i heq
      obtain rfl := Option.some.inj hs
      obtain rfl := eq_of_beq heq
      simp only [Array.getElem?_push_size]
    · have hold := htexts other s hs
      have hlt := (Array.getElem?_eq_some_iff.mp hold).choose
      simp only at hold
      simp only [Array.getElem?_push_lt hlt, ← hold, Array.getElem?_eq_getElem hlt]

/-- In an indexed table, a handle below the intrinsic count stands for an intrinsic type. -/
theorem Indexed.isIntrinsic (hT : T.Indexed) (ht : t.index < intrinsics.length)
    (h : T.lookup? t = some data) : data.isIntrinsic = true := by
  have hrows : ∀ i < intrinsics.length, ∃ row ∈ intrinsics,
      row.1.index = i ∧ row.2.isIntrinsic = true := by decide
  obtain ⟨row, hrow, hindex, hintrinsic⟩ := hrows t.index ht
  obtain rfl : row.1 = t := congrArg TypeId.mk hindex
  rw [(hT.intrinsic row hrow).1] at h
  exact Option.some.inj h ▸ hintrinsic

/-- In an indexed table, the row of any other layer has its own handle. -/
theorem Indexed.handles_lookup (hT : T.Indexed) (h : (T.lookup t).isIntrinsic = false) :
    T.handles[T.lookup t]? = some t := by
  have hHas : T.Has t := by
    refine has_of_lookup_ne fun hunknown => ?_
    rw [hunknown] at h
    cases h
  refine hT.stored t _ (Nat.le_of_not_lt fun hlt => ?_) hHas.lookup?
  rcases Nat.lt_or_ge t.index intrinsics.length with hlt' | hge
  · rw [hT.isIntrinsic hlt' hHas.lookup?] at h
    cases h
  · rw [lookup_eq (hT.held t hge hlt)] at h
    cases h

end TypeTable

/-! ### Calls in a row -/

namespace Construction

variable {T T' : TypeTable} {c c' : Construction} {t t' : TypeId}

/-- The table knows the call by a handle: it stores the text among the data, and the row of the
handle, which is not a reserved one, holds the layer. -/
structure Known (c : Construction) (T : TypeTable) (t : TypeId) : Prop where
  named : c.named T = T
  lookup? : T.lookup? t = some (c.data T).normalized
  fresh : TypeId.firstDynamic ≤ t.index

theorem le_named (c : Construction) (T : TypeTable) : T ≤ c.named T := by
  cases c with
  | textLiteral text => exact TypeTable.le_internSymbol T text
  | _ => exact le_rfl

/-- A text that is stored keeps its symbol. -/
theorem named_of_le (h : c.named T ≤ T') : c.named T' = T' ∧ c.data T' = c.data T := by
  cases c with
  | textLiteral text =>
    have htext := TypeTable.internSymbol_of_le h
    exact ⟨congrArg Prod.snd htext, by rw [data, data, htext]⟩
  | _ => exact ⟨rfl, rfl⟩

theorem Known.of_le (hle : T ≤ T') (h : c.Known T t) : c.Known T' t := by
  obtain ⟨hnamed, hdata⟩ := named_of_le (c := c) (h.named.symm ▸ hle)
  exact ⟨hnamed, hdata ▸ TypeTable.lookup?_of_le hle h.lookup?, h.fresh⟩

/-- What a text stands for is read back from its symbol. -/
theorem Known.text (hT : T.Indexed) {text : String} (h : (textLiteral text).Known T t) :
    T.text (T.internSymbol text).1 = text := by
  have hnamed : (T.internSymbol text).2 = T := h.named
  have hpos := TypeTable.positions_internSymbol T text
  rw [hnamed] at hpos
  rw [TypeTable.text, SymbolTable.resolve, hT.texts _ _ hpos, Option.getD_some]

/-- One call keeps the index right, only extends the table, and is known by what it returns. -/
theorem run_known (hT : T.Indexed) (c : Construction) :
    ∃ t T', c.run T = .ok t T' ∧ T'.Indexed ∧ T ≤ T' ∧ c.Known T' t := by
  have hnamed : (c.named T).Indexed := by
    cases c with
    | textLiteral text => exact hT.internSymbol text
    | _ => exact hT
  have hle := TypeTable.le_intern (c.named T) (c.data T).normalized
  have hindexed := hnamed.intern (c.data T).normalized
  have hlookup := hindexed.sound _ _ (TypeTable.handles_intern (c.named T) (c.data T).normalized)
  obtain ⟨hsame, hdata⟩ := named_of_le hle
  refine ⟨_, _, run_eq c T, hindexed, le_trans (le_named c T) hle, hsame,
    by rw [hdata]; exact hlookup, ?_⟩
  -- A handle below the reserved ones would stand for an intrinsic type.
  rcases hindexed.given _ _ (TypeTable.handles_intern (c.named T) (c.data T).normalized) with
    hlt | hge
  · have hintrinsic := hindexed.isIntrinsic hlt hlookup
    rw [isIntrinsic_data] at hintrinsic
    cases hintrinsic
  · exact hge

/-- Two known calls have one handle exactly when their data are equal. -/
theorem Known.eq_iff (hT : T.Indexed) (h : c.Known T t) (h' : c'.Known T t') :
    t = t' ↔ (c.data T).SameValue (c'.data T) := by
  rw [← TypeData.normalized_eq_iff]
  constructor
  · rintro rfl
    exact Option.some.inj (h.lookup?.symm.trans h'.lookup?)
  · intro hdata
    have hhandle := hT.stored _ _ h.fresh h.lookup?
    rw [hdata, hT.stored _ _ h'.fresh h'.lookup?] at hhandle
    exact (Option.some.inj hhandle).symm

/-- A sequence of calls keeps the index right and is known by what it returns. -/
theorem runs_known (calls : List Construction) : ∀ {T : TypeTable}, T.Indexed →
    ∃ ids T', calls.mapM run T = .ok ids T' ∧ T'.Indexed ∧ T ≤ T' ∧
      List.Forall₂ (fun c t => c.Known T' t) calls ids := by
  induction calls with
  | nil => exact fun {T} hT => ⟨[], T, rfl, hT, le_rfl, .nil⟩
  | cons c calls ih =>
    intro T hT
    obtain ⟨t, T₁, hrun, hT₁, hle₁, hknown⟩ := run_known hT c
    obtain ⟨ids, T₂, hruns, hT₂, hle₂, hall⟩ := ih hT₁
    refine ⟨t :: ids, T₂, ?_, hT₂, le_trans hle₁ hle₂, .cons (hknown.of_le hle₂) hall⟩
    rw [List.mapM_cons]
    exact TypeM.bind_eq_ok.mpr ⟨t, T₁, hrun, TypeM.bind_eq_ok.mpr ⟨ids, T₂, hruns, rfl⟩⟩

/-- A call whose components belong to the table only adds descending rows. -/
theorem growsTo_run (hT : T.WellFormed) (hc : T.HasAll c.components)
    (h : c.run T = .ok t T') : T.GrowsTo T' := by
  rw [run_eq] at h
  injection h with _ h
  subst h
  have hnamed : T.GrowsTo (c.named T) := by
    cases c with
    | textLiteral text => exact TypeTable.growsTo_internSymbol hT text
    | _ => exact .refl hT
  refine hnamed.trans (TypeTable.growsTo_intern hnamed.wellFormed ?_)
  rw [parts_normalized, parts_data]
  exact hc.of_le hnamed.le

end Construction

end ScriptTyping
