import Mathlib.Data.List.Forall2
import ScriptTyping.Proofs.Table.Total

/-!
# Computations that agree

Two programs that differ in one place are compared run by run.  Away from that place their
computations over types agree: from the same table, whenever the first one returns, so does the
second one, with the same table and a related result.  Along the way the table only grows.

What the two programs differ in may be *hidden*: declarations that no type mentions, neither as a
type variable nor behind a member of an object shape.  Agreement keeps them hidden.  With nothing
hidden and the same computation on both sides, agreement says that the table grows.

## Main definitions

* `RunLogic` — a relation between computations that sequencing respects.
* `Veil`, `TypeTable.Hides` — hidden declarations, which no row mentions.
* `TypeM.Agrees` — two computations do the same, as far as the hidden declarations stay hidden.
* `TypeM.agreement`, `RunLogic.stateT`, `RunLogic.optionT` — agreement as such relations.

## Main results

* `RunLogic.mapM`, `RunLogic.filterM`, `RunLogic.anyM`, `RunLogic.allM`, `RunLogic.findM?`,
  `RunLogic.findSomeM?`, `RunLogic.foldlM` — loops over lists.
* `TypeM.agrees_intern` — storing a type.
-/

namespace ScriptTyping

/-- A relation between two computations, for a relation between what they return. -/
structure RunLogic (m : Type → Type) [Monad m] where
  rel : ∀ {α β : Type}, m α → m β → (α → β → Prop) → Prop
  return' : ∀ {α β : Type} {V : α → β → Prop} {a : α} {b : β}, V a b → rel (pure a) (pure b) V
  bind : ∀ {α β γ δ : Type} {V : α → β → Prop} {W : γ → δ → Prop} {x : m α} {y : m β}
    {f : α → m γ} {g : β → m δ}, rel x y V → (∀ a b, V a b → rel (f a) (g b) W) →
    rel (x >>= f) (y >>= g) W

namespace RunLogic

variable {m : Type → Type} [Monad m] (L : RunLogic m) {α β γ δ : Type}

theorem mono [LawfulMonad m] {V V' : α → β → Prop} {x : m α} {y : m β} (h : L.rel x y V)
    (hV : ∀ a b, V a b → V' a b) : L.rel x y V' := by
  rw [← bind_pure x, ← bind_pure y]
  exact L.bind h fun a b hab => L.return' (hV a b hab)

/-- Equal results are passed on. -/
theorem bindEq {W : γ → δ → Prop} {x y : m α} {f : α → m γ} {g : α → m δ} (h : L.rel x y Eq)
    (hf : ∀ a, L.rel (f a) (g a) W) : L.rel (x >>= f) (y >>= g) W :=
  L.bind h fun a _ hab => hab ▸ hf a

theorem same (a : α) : L.rel (pure a) (pure a) Eq := L.return' rfl

/-- The same function of equal results. -/
theorem mapEq [LawfulMonad m] {x y : m α} (f : α → β) (h : L.rel x y Eq) :
    L.rel (f <$> x) (f <$> y) Eq := by
  rw [map_eq_pure_bind, map_eq_pure_bind]
  exact L.bindEq h fun a => L.same (f a)

theorem mapM [LawfulMonad m] {R : α → β → Prop} {W : γ → δ → Prop} {f : α → m γ} {g : β → m δ}
    {l : List α} {l' : List β} (hl : List.Forall₂ R l l')
    (hf : ∀ a b, R a b → L.rel (f a) (g b) W) :
    L.rel (l.mapM f) (l'.mapM g) (List.Forall₂ W) := by
  induction hl with
  | nil =>
    rw [List.mapM_nil, List.mapM_nil]
    exact L.return' .nil
  | cons hab _ ih =>
    rw [List.mapM_cons, List.mapM_cons]
    exact L.bind (hf _ _ hab) fun _ _ hc => L.bind ih fun _ _ hcs => L.return' (.cons hc hcs)

theorem mapMEq [LawfulMonad m] {f g : α → m β} (l : List α)
    (hf : ∀ a ∈ l, L.rel (f a) (g a) Eq) : L.rel (l.mapM f) (l.mapM g) Eq := by
  refine L.mono (L.mapM (R := fun a b => a = b ∧ a ∈ l) (W := Eq) ?_ ?_) fun bs cs h => ?_
  · exact List.forall₂_same.mpr fun a ha => ⟨rfl, ha⟩
  · rintro a _ ⟨rfl, ha⟩
    exact hf a ha
  · exact List.forall₂_eq_eq_eq ▸ h

theorem anyM {p q : α → m Bool} (l : List α) (hp : ∀ a ∈ l, L.rel (p a) (q a) Eq) :
    L.rel (l.anyM p) (l.anyM q) Eq := by
  induction l with
  | nil => exact L.same false
  | cons a l ih =>
    rw [List.anyM_cons, List.anyM_cons]
    refine L.bindEq (hp a (List.mem_cons_self ..)) fun b => ?_
    cases b with
    | true => exact L.same true
    | false => exact ih fun a' ha' => hp a' (List.mem_cons_of_mem _ ha')

theorem allM {p q : α → m Bool} (l : List α) (hp : ∀ a ∈ l, L.rel (p a) (q a) Eq) :
    L.rel (l.allM p) (l.allM q) Eq := by
  induction l with
  | nil => exact L.same true
  | cons a l ih =>
    rw [List.allM_cons, List.allM_cons]
    refine L.bindEq (hp a (List.mem_cons_self ..)) fun b => ?_
    cases b with
    | true => exact ih fun a' ha' => hp a' (List.mem_cons_of_mem _ ha')
    | false => exact L.same false

theorem filterM [LawfulMonad m] {p q : α → m Bool} (l : List α)
    (hp : ∀ a ∈ l, L.rel (p a) (q a) Eq) : L.rel (l.filterM p) (l.filterM q) Eq := by
  have hloop : ∀ kept : List α, L.rel (l.filterAuxM p kept) (l.filterAuxM q kept) Eq := by
    induction l with
    | nil => exact fun kept => L.same kept
    | cons a l ih =>
      intro kept
      rw [List.filterAuxM, List.filterAuxM]
      exact L.bindEq (hp a (List.mem_cons_self ..)) fun b =>
        ih (fun a' ha' => hp a' (List.mem_cons_of_mem _ ha')) _
  exact L.bindEq (hloop []) fun kept => L.same kept.reverse

theorem findSomeM? {f g : α → m (Option β)} {V : Option β → Option β → Prop} (hnone : V none none)
    (l : List α) (hf : ∀ a ∈ l, L.rel (f a) (g a) fun o o' => o = o' ∧ V o o') :
    L.rel (l.findSomeM? f) (l.findSomeM? g) fun o o' => o = o' ∧ V o o' := by
  induction l with
  | nil => exact L.return' ⟨rfl, hnone⟩
  | cons a l ih =>
    rw [List.findSomeM?_cons, List.findSomeM?_cons]
    refine L.bind (hf a (List.mem_cons_self ..)) ?_
    rintro o _ ⟨rfl, ho⟩
    cases o with
    | some b => exact L.return' ⟨rfl, ho⟩
    | none => exact ih fun a' ha' => hf a' (List.mem_cons_of_mem _ ha')

theorem findSomeMEq? [LawfulMonad m] {f g : α → m (Option β)} (l : List α)
    (hf : ∀ a ∈ l, L.rel (f a) (g a) Eq) : L.rel (l.findSomeM? f) (l.findSomeM? g) Eq :=
  L.mono (L.findSomeM? (V := fun _ _ => True) trivial l fun a ha =>
    L.mono (hf a ha) fun _ _ h => ⟨h, trivial⟩) fun _ _ h => h.1

theorem findM? [LawfulMonad m] {p q : α → m Bool} (l : List α)
    (hp : ∀ a ∈ l, L.rel (p a) (q a) Eq) : L.rel (l.findM? p) (l.findM? q) Eq := by
  rw [List.findM?_eq_findSomeM?, List.findM?_eq_findSomeM?]
  exact L.findSomeMEq? l fun a ha => L.bindEq (hp a ha) fun b => L.same _

theorem foldlM {f g : β → α → m β} (l : List α) (hf : ∀ b, ∀ a ∈ l, L.rel (f b a) (g b a) Eq) :
    ∀ b, L.rel (l.foldlM f b) (l.foldlM g b) Eq := by
  induction l with
  | nil => exact L.same
  | cons a l ih =>
    intro b
    rw [List.foldlM_cons, List.foldlM_cons]
    exact L.bindEq (hf b a (List.mem_cons_self ..))
      (ih fun b a' ha' => hf b a' (List.mem_cons_of_mem _ ha'))

/-! ### State and failure on top -/

/-- Computations with a state of their own are related if they are from every state, and end in the
same one. -/
def stateT (L : RunLogic m) (σ : Type) : RunLogic (StateT σ m) where
  rel x y V := ∀ s, L.rel (x.run s) (y.run s) fun a b => V a.1 b.1 ∧ a.2 = b.2
  return' h s := L.return' ⟨h, rfl⟩
  bind := by
    intro α β γ δ V W x y f g hx hf s
    refine L.bind (hx s) ?_
    rintro ⟨a, s₁⟩ ⟨b, _⟩ ⟨hab, rfl⟩
    exact hf a b hab s₁

theorem stateT_lift [LawfulMonad m] {σ : Type} {x : m α} {y : m β} {V : α → β → Prop}
    (h : L.rel x y V) : (L.stateT σ).rel (liftM x) (liftM y) V :=
  fun _ => L.bind h fun _ _ hab => L.return' ⟨hab, rfl⟩

theorem stateT_modifyGet {σ : Type} (f : σ → α × σ) :
    (L.stateT σ).rel (modifyGet f) (modifyGet f) Eq :=
  fun _ => L.return' ⟨rfl, rfl⟩

/-- Computations without result are related to each other. -/
def optionT (L : RunLogic m) : RunLogic (OptionT m) where
  rel x y V := L.rel x.run y.run (Option.Rel V)
  return' h := L.return' (.some h)
  bind := by
    intro α β γ δ V W x y f g hx hf
    refine L.bind hx fun o o' ho => ?_
    cases ho with
    | none => exact L.return' .none
    | some hab => exact hf _ _ hab

end RunLogic

/-! ### Hidden declarations -/

/-- What two programs may differ in: declarations that no type mentions, in all tables beyond a
given one. -/
structure Veil where
  hidden : DeclId → Prop
  base : TypeTable

/-- Nothing is hidden, in any table. -/
def Veil.transparent : Veil := ⟨fun _ => False, ⟨#[], ∅, ⟨#[], ∅⟩⟩⟩

/-- No open type parameter of the signature is hidden. -/
def Signature.Hides (v : Veil) (s : Signature) : Prop :=
  ∀ param ∈ s.typeParams, ¬v.hidden param

/-- The layer does not mention a hidden declaration, as a type variable or behind a member. -/
def TypeData.Hides (v : Veil) : TypeData → Prop
  | typeVariable d => ¬v.hidden d
  | function signature => signature.Hides v
  | structural members => ∀ member ∈ members, ∀ d, member.decl = some d → ¬v.hidden d
  | _ => True

theorem TypeData.Hides.signature {v : Veil} {data : TypeData} {s : Signature}
    (h : data.Hides v) (hs : data.signature? = some s) : s.Hides v := by
  cases data with
  | function signature => exact Option.some.inj hs ▸ h
  | _ => cases hs

namespace TypeTable

variable {v : Veil} {T : TypeTable}

/-- The table lies beyond the given one, and no row mentions a hidden declaration. -/
structure Hides (T : TypeTable) (v : Veil) : Prop where
  beyond : v.base ≤ T
  rows : ∀ (i : Nat) data, T.rows[i]? = some data → data.Hides v

theorem Hides.lookup (hT : T.Hides v) (t : TypeId) : (T.lookup t).Hides v := by
  rw [TypeTable.lookup, TypeTable.lookup?]
  cases hrow : T.rows[t.index]? with
  | none => exact trivial
  | some data => exact hT.rows t.index data hrow

theorem Hides.intern (hT : T.Hides v) {data : TypeData} (hdata : data.Hides v) :
    (T.intern data).2.Hides v := by
  refine ⟨le_trans hT.beyond (le_intern T data), ?_⟩
  cases hnew : T.handles[data]? with
  | some t =>
    rw [intern_of_handle hnew]
    exact hT.rows
  | none =>
    rw [intern_of_new hnew]
    intro i data' hrow
    simp only [store, Array.getElem?_push] at hrow
    split at hrow
    · exact Option.some.inj hrow ▸ hdata
    · exact hT.rows i data' hrow

theorem Hides.internSymbol (hT : T.Hides v) (text : String) : (T.internSymbol text).2.Hides v :=
  ⟨le_trans hT.beyond (le_internSymbol T text), hT.rows⟩

theorem hides_transparent (T : TypeTable) : T.Hides .transparent where
  beyond := ⟨by simp [Veil.transparent], by simp [Veil.transparent], by simp [Veil.transparent],
    by simp [Veil.transparent]⟩
  rows _ data _ := by cases data <;> simp [TypeData.Hides, Signature.Hides, Veil.transparent]

end TypeTable

namespace TypeM

variable {v : Veil} {α β γ δ : Type} {V : α → β → Prop} {W : γ → δ → Prop}

/-- Whenever the first computation returns, the second one returns something related and leaves the
same table; the table grows, and what is hidden stays so. -/
def Agrees (v : Veil) (x : TypeM α) (y : TypeM β) (V : α → β → Prop) : Prop :=
  ∀ T : TypeTable, T.Hides v → ∀ a T', x T = .ok a T' →
    T ≤ T' ∧ T'.Hides v ∧ ∃ b, y T = .ok b T' ∧ V a b

theorem Agrees.pure {a : α} {b : β} (h : V a b) : Agrees v (pure a) (pure b) V := by
  intro T hT a' T' ha
  cases ha
  exact ⟨le_refl T, hT, b, rfl, h⟩

theorem Agrees.bind {x : TypeM α} {y : TypeM β} {f : α → TypeM γ} {g : β → TypeM δ}
    (hx : Agrees v x y V) (hf : ∀ a b, V a b → Agrees v (f a) (g b) W) :
    Agrees v (x >>= f) (y >>= g) W := by
  intro T hT c T' hc
  obtain ⟨a, T₁, ha, hc⟩ := bind_eq_ok.mp hc
  obtain ⟨hle₁, hT₁, b, hb, hab⟩ := hx T hT a T₁ ha
  obtain ⟨hle₂, hT₂, d, hd, hcd⟩ := hf a b hab T₁ hT₁ c T' hc
  exact ⟨le_trans hle₁ hle₂, hT₂, d, bind_eq_ok.mpr ⟨b, T₁, hb, hd⟩, hcd⟩

/-- Agreement as a relation that sequencing respects. -/
def agreement (v : Veil) : RunLogic TypeM where
  rel := Agrees v
  return' := .pure
  bind := .bind

theorem Agrees.bindEq {x y : TypeM α} {f : α → TypeM γ} {g : α → TypeM δ}
    (hx : Agrees v x y Eq) (hf : ∀ a, Agrees v (f a) (g a) W) :
    Agrees v (x >>= f) (y >>= g) W :=
  (agreement v).bindEq hx hf

theorem Agrees.mono {V' : α → β → Prop} {x : TypeM α} {y : TypeM β} (hx : Agrees v x y V)
    (hV : ∀ a b, V a b → V' a b) : Agrees v x y V' :=
  (agreement v).mono hx hV

theorem Agrees.mapEq {x y : TypeM α} (f : α → β) (hx : Agrees v x y Eq) :
    Agrees v (f <$> x) (f <$> y) Eq :=
  (agreement v).mapEq f hx

theorem agrees_same (a : α) : Agrees v (Pure.pure a : TypeM α) (Pure.pure a) Eq := .pure rfl

theorem agrees_diverge : Agrees v (diverge : TypeM α) (diverge : TypeM β) V := by
  intro T _ a T' ha
  cases ha

theorem agrees_ofOption (o : Option α) : Agrees v (ofOption o) (ofOption o) Eq := by
  cases o with
  | none => exact agrees_diverge
  | some a => exact agrees_same a

/-- Reading a row. -/
theorem Agrees.lookup {t : TypeId} {f : TypeData → TypeM γ} {g : TypeData → TypeM δ}
    (h : ∀ data, data.Hides v → Agrees v (f data) (g data) W) :
    Agrees v (TypeM.lookup t >>= f) (TypeM.lookup t >>= g) W :=
  fun T hT => h (T.lookup t) (hT.lookup t) T hT

/-- Reading the whole table. -/
theorem Agrees.get {f : TypeTable → TypeM γ} {g : TypeTable → TypeM δ}
    (h : ∀ T : TypeTable, T.Hides v → Agrees v (f T) (g T) W) :
    Agrees v (MonadState.get >>= f) (MonadState.get >>= g) W :=
  fun T hT => h T hT T hT

theorem agrees_text (s : Symbol) : Agrees v (text s) (text s) Eq :=
  .get fun T _ => agrees_same (T.text s)

theorem agrees_upperBound (t : TypeId) : Agrees v (upperBound t) (upperBound t) Eq :=
  .get fun T _ => agrees_ofOption (T.upperBound? t)

/-- Storing a type that mentions nothing hidden. -/
theorem agrees_intern {data : TypeData} (hdata : data.Hides v) :
    Agrees v (intern data) (intern data) Eq := by
  intro T hT t T' ht
  obtain ⟨rfl, rfl⟩ : (T.intern data).1 = t ∧ (T.intern data).2 = T' := by
    injection ht with h₁ h₂
    exact ⟨h₁, h₂⟩
  exact ⟨TypeTable.le_intern T data, hT.intern hdata, _, rfl, rfl⟩

theorem agrees_typeVariable {d : DeclId} (hd : ¬v.hidden d) :
    Agrees v (typeVariable d) (typeVariable d) Eq :=
  @agrees_intern v (.typeVariable d) hd

theorem agrees_internSymbol (text : String) :
    Agrees v (internSymbol text) (internSymbol text) Eq := by
  intro T hT s T' hs
  obtain ⟨rfl, rfl⟩ : (T.internSymbol text).1 = s ∧ (T.internSymbol text).2 = T' := by
    injection hs with h₁ h₂
    exact ⟨h₁, h₂⟩
  exact ⟨TypeTable.le_internSymbol T text, hT.internSymbol text, _, rfl, rfl⟩

end TypeM

end ScriptTyping
