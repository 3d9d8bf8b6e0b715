import ScriptTyping.Declarations.Builtins
import ScriptTyping.Proofs.Declarations.Store
import ScriptTyping.Proofs.Table.Construction

/-!
# Installing the built-in declarations

The built-in declarations are registered one after the other, and each step changes only what was
registered by the same step.  So what is known about a declaration when it is complete still holds
when all of them are there.

## Main definitions

* `Builtins.Draft.Extends` — a later draft, in which the first declarations are as they were.
* `Builtins.DraftM.Leads`, `Builtins.DraftM.Adds` — what a step leads to, and that it only adds.

## Main results

* `Builtins.install_array` — the declaration of arrays: a class with one type parameter, below
  `Object` and the iterables of the parameter.
* `Builtins.indexed_install` — the table of the installed types is indexed.
-/

namespace ScriptTyping.Builtins

variable {α β : Type}

/-- The second draft has more types and declarations, and the same first `n` declarations. -/
structure Draft.Extends (n : Nat) (draft draft' : Draft) : Prop where
  types : draft.types ≤ draft'.types
  indexed : draft.types.Indexed → draft'.types.Indexed
  size : draft.declarations.size ≤ draft'.declarations.size
  kept : ∀ d : DeclId, d.index ≤ n →
    draft'.declarations.get? d = draft.declarations.get? d

namespace Draft.Extends

variable {n : Nat} {draft draft' draft'' : Draft}

theorem refl (n : Nat) (draft : Draft) : Extends n draft draft :=
  ⟨le_refl _, id, Nat.le_refl _, fun _ _ => rfl⟩

theorem trans (h : Extends n draft draft') (h' : Extends n draft' draft'') :
    Extends n draft draft'' :=
  ⟨le_trans h.types h'.types, h'.indexed ∘ h.indexed, Nat.le_trans h.size h'.size,
    fun d hd => (h'.kept d hd).trans (h.kept d hd)⟩

end Draft.Extends

namespace DraftM

/-- What a step returns, with the draft that it leaves. -/
def Leads (m : DraftM α) (draft : Draft) (Q : α → Draft → Prop) : Prop :=
  Q (m draft).1 (m draft).2

theorem Leads.returns {m : DraftM α} {draft : Draft} {Q : α → Draft → Prop} (h : Leads m draft Q) :
    Q (m draft).1 (m draft).2 := h

theorem Leads.bind {m : DraftM α} {f : α → DraftM β} {draft : Draft} {Q : α → Draft → Prop}
    {R : β → Draft → Prop} (hm : Leads m draft Q)
    (hf : ∀ a draft', Q a draft' → Leads (f a) draft' R) : Leads (m >>= f) draft R :=
  hf _ _ hm

theorem Leads.mono {m : DraftM α} {draft : Draft} {Q R : α → Draft → Prop} (hm : Leads m draft Q)
    (h : ∀ a draft', Q a draft' → R a draft') : Leads m draft R :=
  h _ _ hm

theorem Leads.both {m : DraftM α} {draft : Draft} {Q R : α → Draft → Prop} (hQ : Leads m draft Q)
    (hR : Leads m draft R) : Leads m draft fun a draft' => Q a draft' ∧ R a draft' :=
  ⟨hQ, hR⟩

/-- From every draft with `n` declarations, the step adds to the draft and changes only
declarations after these. -/
def Adds (n : Nat) (m : DraftM α) (V : α → Prop) : Prop :=
  ∀ draft, n ≤ draft.declarations.size → Leads m draft fun a draft' => draft.Extends n draft' ∧ V a

variable {n : Nat} {V : α → Prop} {W : β → Prop}

theorem Adds.leads {m : DraftM α} {draft : Draft} {Q : α → Draft → Prop} (hm : Adds n m V)
    (hn : n ≤ draft.declarations.size) (h : ∀ a draft', draft.Extends n draft' → V a → Q a draft') :
    Leads m draft Q :=
  (hm draft hn).mono fun a draft' ⟨hext, ha⟩ => h a draft' hext ha

theorem Adds.pure {a : α} (h : V a) : Adds n (pure a) V :=
  fun draft _ => ⟨.refl n draft, h⟩

theorem Adds.bind {m : DraftM α} {f : α → DraftM β} (hm : Adds n m V)
    (hf : ∀ a, V a → Adds n (f a) W) : Adds n (m >>= f) W := by
  intro draft hn
  refine (hm draft hn).bind fun a draft' ⟨hext, ha⟩ => ?_
  refine (hf a ha draft' (Nat.le_trans hn hext.size)).mono fun b draft'' ⟨hext', hb⟩ => ?_
  exact ⟨hext.trans hext', hb⟩

/-! ### Single steps -/

/-- Storing a type changes no declaration, and gives the type its handle. -/
theorem leads_intern (data : TypeData) (draft : Draft) : Leads (intern data) draft fun t draft' =>
    (∀ n, draft.Extends n draft') ∧ draft'.types.handles[data]? = some t :=
  ⟨fun _ => ⟨TypeTable.le_intern .., fun hT => hT.intern data, Nat.le_refl _, fun _ _ => rfl⟩,
    TypeTable.handles_intern ..⟩

theorem adds_intern (n : Nat) (data : TypeData) : Adds n (intern data) fun _ => True :=
  fun draft _ => ⟨(leads_intern data draft).1 n, trivial⟩

theorem adds_nominal (n : Nat) (decl : DeclId) (args : List TypeId) :
    Adds n (nominal decl args) fun _ => True :=
  adds_intern n _

theorem adds_internSymbol (n : Nat) (text : String) : Adds n (internSymbol text) fun _ => True :=
  fun _ _ => ⟨⟨TypeTable.le_internSymbol .., fun hT => hT.internSymbol text, Nat.le_refl _,
    fun _ _ => rfl⟩, trivial⟩

/-- A new declaration stands after the ones that are there. -/
theorem adds_register (n : Nat) (decl : Declaration) : Adds n (register decl) (n < ·.index) := by
  intro draft hn
  refine ⟨⟨le_refl _, id, ?_, fun d hd => ?_⟩, Nat.lt_succ_of_le hn⟩
  · exact Nat.le_trans (Nat.le_succ _) (Nat.le_of_eq (Declarations.size_register ..).symm)
  · refine (Declarations.get?_register ..).trans (if_neg ?_)
    omega

/-- The declaration store is changed after its first `n` declarations only. -/
private theorem adds_modify (g : Declarations → Declarations)
    (hsize : ∀ ds, (g ds).size = ds.size)
    (hkept : ∀ ds d, d.index ≤ n → (g ds).get? d = ds.get? d) :
    Adds n (modify fun draft : Draft => ⟨draft.types, g draft.declarations⟩) fun _ => True :=
  fun _ _ => ⟨⟨le_refl _, id, Nat.le_of_eq (hsize _).symm, hkept _⟩, trivial⟩

private theorem get?_update_of_lt {ds : Declarations} {d e : DeclId} (f : Declaration → Declaration)
    (hd : n < d.index) (he : e.index ≤ n) : (ds.update d f).get? e = ds.get? e := by
  rw [Declarations.get?_update, if_neg]
  rintro rfl
  omega

theorem adds_update {d : DeclId} (hd : n < d.index) (f : Declaration → Declaration) :
    Adds n (update d f) fun _ => True :=
  adds_modify (·.update d f) (fun _ => Declarations.size_update ..)
    fun _ _ => get?_update_of_lt f hd

theorem adds_addMember {owner member : DeclId} (howner : n < owner.index)
    (hmember : n < member.index) : Adds n (modify fun draft : Draft =>
      ⟨draft.types, draft.declarations.addMember owner member⟩) fun _ => True := by
  refine adds_modify (·.addMember owner member) (fun ds => ?_) fun ds d hd => ?_
  · rw [Declarations.addMember, Declarations.size_update, Declarations.size_update]
  · rw [Declarations.addMember, get?_update_of_lt _ hmember hd, get?_update_of_lt _ howner hd]

/-! ### Registrations -/

theorem adds_typeParam (n : Nat) (name : String) (variance : Variance) :
    Adds n (typeParam name variance) (n < ·.index) :=
  (adds_internSymbol n name).bind fun _ _ => adds_register n _

theorem adds_classifier (kind : DeclKind) (name : String) {typeParams : List DeclId}
    (hparams : ∀ param ∈ typeParams, n < param.index) :
    Adds n (classifier kind name typeParams) (n < ·.index) := by
  refine (adds_internSymbol n name).bind fun name _ => (adds_register n _).bind fun d hd => ?_
  have hloop : Adds n (typeParams.forM fun param =>
      update param fun decl => { decl with owner := some d }) fun _ => True := by
    clear hd
    induction typeParams with
    | nil => exact .pure trivial
    | cons param typeParams ih =>
      refine Adds.bind (adds_update (hparams param (List.mem_cons_self ..)) _) fun _ _ => ih ?_
      exact fun param hparam => hparams param (List.mem_cons_of_mem _ hparam)
  exact hloop.bind fun _ _ => .pure hd

theorem adds_member {owner : DeclId} (howner : n < owner.index) (kind : DeclKind) (name : String)
    (type : TypeId) (flags : List Flag) :
    Adds n (member owner kind name type flags) (n < ·.index) := by
  refine (adds_internSymbol n name).bind fun name _ => (adds_register n _).bind fun d hd => ?_
  exact (adds_addMember howner hd).bind fun _ _ => .pure hd

theorem adds_setSuper {d : DeclId} (hd : n < d.index) (superType : TypeId) :
    Adds n (setSuper d superType) fun _ => True :=
  adds_update hd _

theorem adds_iterableInterface (n : Nat) (name : String) :
    Adds n (iterableInterface name) (n < ·.index) := by
  refine (adds_typeParam n "T" .covariant).bind fun param hparam => ?_
  refine (adds_classifier _ name (by simpa using hparam)).bind fun d hd => ?_
  exact (adds_intern n _).bind fun _ _ => (adds_update hd _).bind fun _ _ => .pure hd

theorem adds_generatorInterface (n : Nat) (name : String) (base : DeclId) :
    Adds n (generatorInterface name base) (n < ·.index) := by
  refine (adds_typeParam n "TYield" .covariant).bind fun yielded hyielded => ?_
  refine (adds_typeParam n "TReturn" .covariant).bind fun returned hreturned => ?_
  refine (adds_typeParam n "TNext" .contravariant).bind fun sent hsent => ?_
  refine (adds_classifier _ name (by simp [hyielded, hreturned, hsent])).bind fun d hd => ?_
  refine (adds_intern n _).bind fun _ _ => (adds_nominal n base _).bind fun _ _ => ?_
  exact (adds_setSuper hd _).bind fun _ _ => .pure hd

theorem adds_valueEnumBase (n : Nat) (name : String) (superType : TypeId) (array : DeclId)
    (value : TypeId) : Adds n (valueEnumBase name superType array value) fun _ => True := by
  refine (adds_classifier _ name (by simp)).bind fun d hd => (adds_update hd _).bind fun _ _ => ?_
  refine (adds_nominal n array _).bind fun _ _ => ?_
  exact (adds_member hd _ _ _ _).bind fun _ _ => .pure trivial

/-! ### Arrays -/

/-- A classifier is registered with its kind and its type parameters. -/
theorem leads_classifier (kind : DeclKind) (name : String) (typeParams : List DeclId)
    (draft : Draft) : Leads (classifier kind name typeParams) draft fun d draft' =>
      ∃ info, draft'.declarations.get? d = some info ∧ info.kind = kind ∧
        info.typeParams = typeParams := by
  have hloop {d : DeclId} (params : List DeclId) (draft : Draft)
      (h : ∃ info, draft.declarations.get? d = some info ∧ info.kind = kind ∧
        info.typeParams = typeParams) :
      Leads (params.forM fun param => update param fun decl => { decl with owner := some d }) draft
        fun _ draft' => ∃ info, draft'.declarations.get? d = some info ∧ info.kind = kind ∧
          info.typeParams = typeParams := by
    induction params generalizing draft with
    | nil => exact h
    | cons param params ih =>
      refine ih _ ?_
      obtain ⟨info, hinfo, hrest⟩ := h
      refine ⟨_, Declarations.get?_update_of_some hinfo _ _, ?_⟩
      split <;> exact hrest
  have hnew (name : Symbol) (draft : Draft) : Leads (register { kind, name, typeParams }) draft
      fun d draft' => ∃ info, draft'.declarations.get? d = some info ∧ info.kind = kind ∧
        info.typeParams = typeParams :=
    ⟨_, (Declarations.get?_register ..).trans (if_pos rfl), rfl, rfl⟩
  refine Leads.bind (Q := fun _ _ => True) trivial fun name draft _ => ?_
  refine (hnew name draft).bind fun d draft' h => ?_
  exact (hloop typeParams draft' h).bind fun _ _ h => h

/-- The owner of a new member changes in its members only. -/
theorem leads_member {owner : DeclId} (kind : DeclKind) (name : String) (type : TypeId)
    (flags : List Flag) {draft : Draft} {info : Declaration}
    (h : draft.declarations.get? owner = some info) :
    Leads (member owner kind name type flags) draft fun _ draft' =>
      ∃ members, draft'.declarations.get? owner = some { info with members } := by
  refine Leads.bind (Q := fun _ draft' => draft'.declarations = draft.declarations) rfl
    fun name draft₁ h₁ => ?_
  rw [← h₁] at h
  have hle := Declarations.index_le_of_get? h
  refine Leads.bind (Q := fun d draft' => draft'.declarations.get? owner = some info ∧ owner ≠ d)
    ⟨?_, ?_⟩ fun d draft₂ ⟨h₂, hne⟩ => ?_
  · refine (Declarations.get?_register ..).trans (if_neg ?_) |>.trans h
    omega
  · rintro rfl
    exact absurd hle (Nat.not_succ_le_self _)
  refine Leads.bind (Q := fun _ draft' => ∃ members,
    draft'.declarations.get? owner = some { info with members }) ?_ fun _ _ h => h
  have howner := Declarations.get?_update_of_some h₂ owner fun decl =>
    { decl with members := decl.members ++ [d] }
  rw [if_pos rfl] at howner
  refine ⟨info.members ++ [d], (Declarations.get?_update_of_some howner d _).trans ?_⟩
  rw [if_neg hne]

end DraftM

/-- Arrays are a class with one type parameter, directly below `Object` and the iterables of the
parameter. -/
structure DeclaresArrays (b : Builtins) (declarations : Declarations) (types : TypeTable) :
    Prop where
  object : types.lookup? b.objectType = some (.nominal b.object [])
  array : ∃ info param element iterable, declarations.get? b.array = some info ∧
    info.kind = .classType ∧ info.typeParams = [param] ∧ info.superType = some b.objectType ∧
    info.interfaces = [iterable] ∧ types.lookup? iterable = some (.nominal b.iterable [element]) ∧
    types.lookup? element = some (.typeVariable param)

theorem leads_builtins : DraftM.builtins.Leads ⟨.initial, .empty⟩ fun b draft =>
    draft.types.Indexed ∧ DeclaresArrays b draft.declarations draft.types := by
  rw [DraftM.builtins]
  refine (DraftM.adds_classifier (n := 0) _ _ (by simp) ⟨.initial, .empty⟩ (Nat.zero_le _)).bind
    fun object d₁ ⟨h₁, _⟩ => ?_
  refine (DraftM.leads_intern (.nominal object []) d₁).bind fun objectType d₂ ⟨h₂, hobject⟩ => ?_
  refine (DraftM.adds_classifier (n := 0) _ _ (by simp) d₂ (Nat.zero_le _)).bind
    fun function d₃ ⟨h₃, hfunction⟩ => ?_
  refine (DraftM.adds_nominal 0 function [] d₃ (Nat.zero_le _)).bind
    fun functionType d₄ ⟨h₄, _⟩ => ?_
  refine (DraftM.adds_setSuper hfunction objectType d₄ (Nat.zero_le _)).bind fun _ d₅ ⟨h₅, _⟩ => ?_
  refine (DraftM.adds_iterableInterface 0 _ d₅ (Nat.zero_le _)).bind fun iterable d₆ ⟨h₆, _⟩ => ?_
  refine (DraftM.adds_iterableInterface 0 _ d₆ (Nat.zero_le _)).bind
    fun asyncIterable d₇ ⟨h₇, _⟩ => ?_
  refine (DraftM.adds_typeParam 0 _ _ d₇ (Nat.zero_le _)).bind fun param d₈ ⟨h₈, hparam⟩ => ?_
  have hparams : ∀ d ∈ [param], 0 < d.index := by simpa using hparam
  refine (DraftM.Leads.both (DraftM.leads_classifier .classType "Array" [param] d₈)
    (DraftM.adds_classifier .classType "Array" hparams d₈ (Nat.zero_le _))).bind
    fun array d₉ ⟨⟨info, hinfo, hkind, htypeParams⟩, h₉, harray⟩ => ?_
  refine (DraftM.leads_intern (.typeVariable param) d₉).bind fun element d₁₀ ⟨h₁₀, helement⟩ => ?_
  refine (DraftM.leads_intern (.nominal iterable [element]) d₁₀).bind
    fun reference d₁₁ ⟨h₁₁, hreference⟩ => ?_
  have hinfo₁₁ : d₁₁.declarations.get? array = some info := by
    rw [(h₁₁ array.index).kept array (Nat.le_refl _), (h₁₀ array.index).kept array (Nat.le_refl _)]
    exact hinfo
  have hupdated := Declarations.get?_update_of_some hinfo₁₁ array fun decl => { decl with
    superType := some objectType
    interfaces := [reference]
    elementType := some element
    flags := decl.flags ++ [.indexSignature] }
  rw [if_pos rfl] at hupdated
  refine DraftM.Leads.bind (Q := fun _ draft => draft.types = d₁₁.types ∧
    draft.declarations = d₁₁.declarations.update array _) ⟨rfl, rfl⟩ fun _ d₁₂ ⟨h₁₂, h₁₂'⟩ => ?_
  rw [← h₁₂'] at hupdated
  refine ((DraftM.leads_member .field "length" .number [] hupdated).both
    (DraftM.adds_member harray .field "length" .number [] d₁₂ (Nat.zero_le _))).bind
    fun _ d₁₃ ⟨⟨members, hinfo₁₃⟩, h₁₃, _⟩ => ?_
  have hle₂ : d₂.types ≤ d₁₁.types := by
    refine le_trans h₃.types (le_trans h₄.types (le_trans h₅.types (le_trans h₆.types ?_)))
    refine le_trans h₇.types (le_trans h₈.types (le_trans h₉.types ?_))
    exact le_trans (h₁₀ 0).types (h₁₁ 0).types
  have hindexed : d₁₁.types.Indexed := by
    refine (h₁₁ 0).indexed ((h₁₀ 0).indexed (h₉.indexed (h₈.indexed (h₇.indexed (h₆.indexed ?_)))))
    refine h₅.indexed (h₄.indexed (h₃.indexed ((h₂ 0).indexed (h₁.indexed ?_))))
    exact TypeTable.indexed_initial
  refine DraftM.Adds.leads (n := d₁₃.declarations.size) (V := fun b => b.array = array ∧
    b.iterable = iterable ∧ b.object = object ∧ b.objectType = objectType) ?_ (Nat.le_refl _)
    fun b draft hext ⟨harrays, hiterables, hobjects, hobjectType⟩ => ?_
  · refine (DraftM.adds_generatorInterface _ _ _).bind fun _ _ => ?_
    refine (DraftM.adds_generatorInterface _ _ _).bind fun _ _ => ?_
    refine (DraftM.adds_typeParam _ _ _).bind fun value hvalue => ?_
    refine (DraftM.adds_typeParam _ _ _).bind fun error herror => ?_
    refine (DraftM.adds_classifier _ _ (by simp [hvalue, herror])).bind fun promise hpromise => ?_
    refine (DraftM.adds_setSuper hpromise _).bind fun _ _ => ?_
    refine (DraftM.adds_classifier _ _ (by simp)).bind fun regexp hregexp => ?_
    refine (DraftM.adds_setSuper hregexp _).bind fun _ _ => ?_
    refine (DraftM.adds_nominal _ _ _).bind fun _ _ => ?_
    refine (DraftM.adds_classifier _ _ (by simp)).bind fun error herror => ?_
    refine (DraftM.adds_setSuper herror _).bind fun _ _ => ?_
    refine (DraftM.adds_nominal _ _ _).bind fun _ _ => ?_
    refine (DraftM.adds_member herror _ _ _ _).bind fun _ _ => ?_
    refine (DraftM.adds_classifier _ _ (by simp)).bind fun enumBase henum => ?_
    refine (DraftM.adds_update henum _).bind fun _ _ => ?_
    refine (DraftM.adds_member henum _ _ _ _).bind fun _ _ => ?_
    refine (DraftM.adds_member henum _ _ _ _).bind fun _ _ => ?_
    refine (DraftM.adds_internSymbol _ _).bind fun _ _ => ?_
    refine (DraftM.adds_intern _ _).bind fun _ _ => (DraftM.adds_intern _ _).bind fun _ _ => ?_
    refine (DraftM.adds_member henum _ _ _ _).bind fun _ _ => ?_
    refine (DraftM.adds_nominal _ _ _).bind fun _ _ => ?_
    refine (DraftM.adds_valueEnumBase _ _ _ _ _).bind fun _ _ => ?_
    refine (DraftM.adds_valueEnumBase _ _ _ _ _).bind fun _ _ => ?_
    exact .pure ⟨rfl, rfl, rfl, rfl⟩
  · have hle₁₁ : d₁₁.types ≤ draft.types := h₁₂ ▸ le_trans h₁₃.types hext.types
    have hfinal : draft.types.Indexed := hext.indexed (h₁₃.indexed (h₁₂ ▸ hindexed))
    have hsound {data : TypeData} {t : TypeId} (ht : d₁₁.types.handles[data]? = some t) :
        draft.types.lookup? t = some data :=
      hfinal.sound data t (hle₁₁.handles _ _ ht)
    rw [← hext.kept array (Declarations.index_le_of_get? hinfo₁₃)] at hinfo₁₃
    refine ⟨hfinal, ?_, ?_⟩
    · rw [hobjects, hobjectType]
      exact hsound (hle₂.handles _ _ hobject)
    · rw [harrays, hiterables, hobjectType]
      exact ⟨_, param, element, reference, hinfo₁₃, hkind, htypeParams, rfl, rfl, hsound hreference,
        hsound ((h₁₁ 0).types.handles _ _ helement)⟩

/-- The installed declarations declare arrays, in an indexed table. -/
theorem declaresArrays_install : install.2.types.Indexed ∧
    DeclaresArrays install.1 install.2.declarations install.2.types := by
  rw [install, StateT.run]
  exact leads_builtins.returns

/-- Arrays, their super class and iterables are different declarations. -/
theorem install_distinct : install.1.array ≠ install.1.iterable ∧
    install.1.object ≠ install.1.iterable ∧ install.1.array ≠ install.1.object := by
  decide +kernel

end ScriptTyping.Builtins
