import ScriptTyping.Proofs.Judgment.Rules

/-!
# Memo cells and later answers

A memo cell is written where nothing is replaced and no fallback was noted, but it is read in every
environment.  So a cell can show: under a replacement of type variables, a declaration without a
cell is inferred with the replacement applied, and one with a cell is not.

It does not show as long as declarations with memo cells are asked for only where nothing is
replaced.  The *vigilant* judgment refuses everything else.  What it writes to a cell is what
inferring the declaration anew gives from then on, in every later table, because computations over
types are stable and guards and room do not show without a fallback.  Hence a vigilant inference
that notes no fallback returns what inferring anew returns, whatever cells were written before.

## Main definitions

* `Program.vigilant` — the judgment that refuses cells under replacements.
* `Program.anew` — the judgment that writes no cell.
* `Program.Consistent` — memo cells hold what inferring anew gives.

## Main results

* `Program.asks_vigilant` — vigilant inference keeps the cells consistent and does what inferring
  anew does.
* `Program.infer_eq_of_vigilant` — cells that a vigilant request wrote do not show later.
-/

namespace ScriptTyping

theorem Memo.get?_empty (d : DeclId) : Memo.empty.get? d = none := by
  simp [get?, empty]

theorem Memo.get?_write (memo : Memo) (d : DeclId) (t : TypeId) (e : DeclId) :
    (memo.write d t).get? e = if d = e ∧ memo.get? d = none then some t else memo.get? e := by
  rw [get?, write, Std.HashMap.getElem?_insertIfNew]
  have hnone : memo.get? d = none ↔ ¬ d ∈ memo.cells := by
    rw [get?, Std.HashMap.mem_iff_isSome_getElem?, Option.not_isSome_iff_eq_none]
  simp only [beq_iff_eq, hnone]
  rfl

/-- Runs an inference and drops the memo cells that it writes. -/
def InferM.keepMemo {α : Type} (x : InferM α) : InferM α := fun s =>
  match x s with
  | .ok a s' => .ok a { s' with memo := s.memo }
  | .error e s' => .error e { s' with memo := s.memo }

theorem InferM.keepMemo_eq_ok {α : Type} {x : InferM α} {a : α} {s s' : Memory}
    (h : x s = .ok a s') : keepMemo x s = .ok a { s' with memo := s.memo } := by
  rw [keepMemo, h]

theorem InferM.keepMemo_liftM {α : Type} (z : TypeM α) :
    keepMemo (liftM z : InferM α) = liftM z := by
  funext ⟨types, memo, fallbacks⟩
  change (match InferM.ofTypes z _ with | .ok a s' => _ | .error e s' => _) = InferM.ofTypes z _
  rw [InferM.ofTypes]
  cases z types <;> rfl

namespace Program

variable (p : Program)

/-- Whether the declaration that this one stands for has a memo cell. -/
def hasCell (d : DeclId) : Bool :=
  ((p.decl? (p.world.declarations.canonical d)).map Declaration.isInferred).getD false

/-- The judgment that refuses to infer a declaration with a memo cell where something is
replaced. -/
def vigilant : Nat → Judge
  | 0 => p.judge 0
  | room + 1 =>
    { node := fun env n =>
        match p.tree.get? n with
        | some node => p.nodeType (vigilant room) env n node.content
        | none => pure .unknown
      decl := fun env d =>
        if p.hasCell d = true ∧ ¬ env.ReplacesNothing then throw .outOfFuel
        else p.declarationType (vigilant room) env d }

/-- The judgment that writes no memo cell and infers declarations in the empty environment. -/
def anew : Nat → Judge
  | 0 => p.judge 0
  | room + 1 =>
    { node := fun env n =>
        match p.tree.get? n with
        | some node => p.nodeType (anew room) env n node.content
        | none => pure .unknown
      decl := fun _ d => InferM.keepMemo (p.declarationType (anew room) .empty d) }

theorem anew_decl (room : Nat) (env : Environment) (d : DeclId) :
    (p.anew room).decl env d = (p.anew room).decl .empty d := by
  cases room <;> rfl

/-! ### Inferring anew -/

section Replay

variable (memo : Memo) {α β : Type}

/-- With enough room and the cells of `memo`, the inference returns `b` and takes the table `U` to
`U'`. -/
def Replays (y : Nat → InferM β) (U : TypeTable) (b : β) (U' : TypeTable) : Prop :=
  ∃ room, ∀ r, room ≤ r → ∀ f, y r ⟨U, memo, f⟩ = .ok b ⟨U', memo, f⟩

/-- The tables of a run that goes along with one from `T` to `T'`, or that comes after it. -/
inductive Follows (T T' : TypeTable) : TypeTable → TypeTable → Prop
  | along : Follows T T' T T'
  | after {U : TypeTable} : T' ≤ U → Follows T T' U U

/-- Inferring the declaration anew gives the type in every later table. -/
def Settled (T : TypeTable) (d : DeclId) (t : TypeId) : Prop :=
  ∀ U, T ≤ U → Replays memo (fun room => (p.anew room).decl .empty d) U t U

/-- The memory has the cells of `memo`, and every other cell holds the type that inferring the
declaration anew gives. -/
structure Consistent (s : Memory) : Prop where
  kept : ∀ d t, memo.get? d = some t → s.memo.get? d = some t
  within : ∀ d t, s.memo.get? d = some t → s.types.Has t
  settled : ∀ d t, s.memo.get? (p.world.declarations.canonical d) = some t →
    memo.get? (p.world.declarations.canonical d) = none → p.Settled memo s.types d t

variable {p memo} {T T' T'' U U' : TypeTable} {s : Memory}

theorem consistent_self (h : ∀ d t, memo.get? d = some t → T.Has t) (f : Nat) :
    p.Consistent memo ⟨T, memo, f⟩ where
  kept _ _ ht := ht
  within := h
  settled _ _ ht hnone := by
    rw [hnone] at ht
    cases ht

theorem Consistent.grow (h : p.Consistent memo s) (hg : s.types.GrowsTo T') (f : Nat) :
    p.Consistent memo ⟨T', s.memo, f⟩ where
  kept := h.kept
  within d t ht := (h.within d t ht).of_le hg.le
  settled d t ht hnone U hle := h.settled d t ht hnone U (le_trans hg.le hle)

/-- Writing the cell of a declaration that is settled. -/
theorem Consistent.write {d : DeclId} {t : TypeId} (h : p.Consistent memo s) (ht : s.types.Has t)
    (hsettled : ∀ e, p.world.declarations.canonical e = d → p.Settled memo s.types e t) :
    p.Consistent memo { s with memo := s.memo.write d t } where
  kept e u hu := by
    have hcell := h.kept e u hu
    rw [Memo.get?_write, if_neg]
    · exact hcell
    · rintro ⟨rfl, hnone⟩
      rw [hcell] at hnone
      cases hnone
  within e u hu := by
    rw [Memo.get?_write] at hu
    split at hu
    · exact Option.some.inj hu ▸ ht
    · exact h.within e u hu
  settled e u hu hnone := by
    rw [Memo.get?_write] at hu
    split at hu
    · rename_i hcell
      exact Option.some.inj hu ▸ hsettled e hcell.1.symm
    · exact h.settled e u hu hnone

theorem Follows.split (h : Follows T T'' U U') (h₂ : T' ≤ T'') :
    ∃ U₁, Follows T T' U U₁ ∧ Follows T' T'' U₁ U' := by
  cases h with
  | along => exact ⟨T', .along, .along⟩
  | after hle => exact ⟨U, .after (le_trans h₂ hle), .after hle⟩

theorem Replays.bind {y : Nat → InferM α} {g : Nat → α → InferM β} {a : α} {b : β}
    (hy : Replays memo y U a U') (hg : Replays memo (fun i => g i a) U' b T) :
    Replays memo (fun i => y i >>= g i) U b T := by
  obtain ⟨r₁, h₁⟩ := hy
  obtain ⟨r₂, h₂⟩ := hg
  refine ⟨max r₁ r₂, fun r hr f => InferM.bind_eq_ok.mpr ⟨a, _, h₁ r (by omega) f, ?_⟩⟩
  exact h₂ r (by omega) f

/-- One unit of room more. -/
theorem Replays.shift {y y' : Nat → InferM β} {b : β} (h : ∀ k, y' (k + 1) = y k)
    (hy : Replays memo y U b U') : Replays memo y' U b U' := by
  obtain ⟨room, hroom⟩ := hy
  refine ⟨room + 1, fun r hr f => ?_⟩
  obtain ⟨k, rfl⟩ : ∃ k, r = k + 1 := ⟨r - 1, by omega⟩
  rw [h]
  exact hroom k (by omega) f

/-- Inferring anew is deterministic. -/
theorem Replays.unique {y : Nat → InferM β} {b b' : β} {U'' : TypeTable}
    (h : Replays memo y U b U') (h' : Replays memo y U b' U'') : b = b' ∧ U' = U'' := by
  obtain ⟨r₁, h₁⟩ := h
  obtain ⟨r₂, h₂⟩ := h'
  have hrun := (h₁ (max r₁ r₂) (by omega) 0).symm.trans (h₂ (max r₁ r₂) (by omega) 0)
  injection hrun with hb hs
  injection hs with hU
  exact ⟨hb, hU⟩

end Replay

/-! ### Comparing a run with inferring anew -/

section Alike

variable (p : Program) (memo : Memo) {α β γ δ : Type}

/-- From the memory `s`, a run of `x` that returns keeps the memo cells consistent, and without a
fallback `y` does the same with the cells of `memo`, then and later. -/
def AlikeAt (x : InferM α) (y : Nat → InferM β) (V : TypeTable → α → β → Prop)
    (s : Memory) : Prop :=
  ∀ a s', x s = .ok a s' → s.fallbacks ≤ s'.fallbacks ∧ s.types.GrowsTo s'.types ∧
    p.Consistent memo s' ∧ (∃ b, V s'.types a b) ∧
    (s'.fallbacks = s.fallbacks → ∀ U U', Follows s.types s'.types U U' →
      ∃ b, V s'.types a b ∧ Replays memo y U b U')

variable {p memo} {x : InferM α} {y : Nat → InferM β} {V : TypeTable → α → β → Prop} {s : Memory}

theorem AlikeAt.pure {a : α} {b : β} (hs : p.Consistent memo s) (hT : s.types.WellFormed)
    (h : V s.types a b) : p.AlikeAt memo (pure a) (fun _ => pure b) V s := by
  intro a' s' h'
  obtain ⟨rfl, rfl⟩ := InferM.pure_eq_ok.mp h'
  refine ⟨Nat.le_refl _, .refl hT, hs, ⟨b, h⟩, fun _ U U' hfollows => ⟨b, h, 0, fun _ _ _ => ?_⟩⟩
  cases hfollows <;> rfl

theorem AlikeAt.bind {W : TypeTable → γ → δ → Prop} {f : α → InferM γ} {g : Nat → β → InferM δ}
    (hx : p.AlikeAt memo x y V s)
    (hf : ∀ a b s', s.types.GrowsTo s'.types → p.Consistent memo s' → V s'.types a b →
      p.AlikeAt memo (f a) (fun i => g i b) W s') :
    p.AlikeAt memo (x >>= f) (fun i => y i >>= g i) W s := by
  intro c s' h
  obtain ⟨a, s₁, ha, hc⟩ := InferM.bind_eq_ok.mp h
  obtain ⟨hle₁, hg₁, hs₁, ⟨b₀, hb₀⟩, hrun₁⟩ := hx a s₁ ha
  obtain ⟨hle₂, hg₂, hs', hW, -⟩ := hf a b₀ s₁ hg₁ hs₁ hb₀ c s' hc
  refine ⟨Nat.le_trans hle₁ hle₂, hg₁.trans hg₂, hs', hW, fun hfall U U' hfollows => ?_⟩
  -- No fallback in the whole means none in either part.
  obtain ⟨U₁, hf₁, hf₂⟩ := hfollows.split hg₂.le
  obtain ⟨b, hb, hy⟩ := hrun₁ (by omega) U U₁ hf₁
  obtain ⟨-, -, -, -, hrun₂⟩ := hf a b s₁ hg₁ hs₁ hb c s' hc
  obtain ⟨d, hd, hgd⟩ := hrun₂ (by omega) U₁ U' hf₂
  exact ⟨d, hd, hy.bind hgd⟩

theorem AlikeAt.lift {z : TypeM α} {P : TypeTable → α → Prop} (hs : p.Consistent memo s)
    (hz : TypeM.Stable z s.types P) :
    p.AlikeAt memo (liftM z) (fun _ => liftM z) (fun T a b => a = b ∧ (True → P T a)) s := by
  intro a s' h
  obtain ⟨T', hrun, rfl⟩ := InferM.liftM_eq_ok.mp h
  obtain ⟨hg, hP, hlater⟩ := hz a T' hrun
  refine ⟨Nat.le_refl _, hg, hs.grow hg _, ⟨a, rfl, fun _ => hP⟩, fun _ U U' hfollows => ?_⟩
  refine ⟨a, ⟨rfl, fun _ => hP⟩, 0, fun _ _ f => InferM.liftM_eq_ok.mpr ?_⟩
  cases hfollows with
  | along => exact ⟨T', hrun, rfl⟩
  | after hle => exact ⟨U, hlater U hle, rfl⟩

/-- A fallback ends the comparison. -/
theorem AlikeAt.fallback {y' : Nat → InferM β}
    (hx : p.AlikeAt memo x y V { s with fallbacks := s.fallbacks + 1 }) :
    p.AlikeAt memo (InferM.noteFallback >>= fun _ => x) y' V s := by
  intro a s' h
  obtain ⟨hle, hg, hs', hV, -⟩ := hx a s' h
  have hlt : s.fallbacks + 1 ≤ s'.fallbacks := hle
  exact ⟨by omega, hg, hs', hV, fun hfall => by omega⟩

theorem AlikeAt.shift {y' : Nat → InferM β} (h : ∀ k, y' (k + 1) = y k)
    (hx : p.AlikeAt memo x y V s) : p.AlikeAt memo x y' V s := by
  intro a s' hrun
  obtain ⟨hle, hg, hs', hV, hsame⟩ := hx a s' hrun
  refine ⟨hle, hg, hs', hV, fun hfall U U' hfollows => ?_⟩
  obtain ⟨b, hb, hy⟩ := hsame hfall U U' hfollows
  exact ⟨b, hb, hy.shift h⟩

end Alike

/-- A run keeps the memo cells consistent, and without a fallback it does what inferring anew with
the cells of `memo` does. -/
def settling (p : Program) (memo : Memo) : Comparison where
  tracked := True
  rel T x y V := ∀ s, s.types = T → p.Consistent memo s → p.AlikeAt memo x y V s
  return' hT hab s hs hc := .pure hc (hs ▸ hT trivial) (hs ▸ hab)
  bind hx hf s hs hc := (hx s hs hc).bind fun a b s' hg hc' hab =>
    hf a b s'.types (fun _ => hs ▸ hg) hab s' rfl hc'
  lift hz s hs hc := .lift hc (hs ▸ hz trivial)
  fallback hx s hs hc := .fallback (hx _ hs ⟨hc.kept, hc.within, hc.settled⟩)
  fail _ _ _ _ _ _ h := by cases h

/-! ### Reading and writing memo cells -/

section Cells

variable {p : Program} {memo : Memo} {judge : Judge} {env : Environment} {d : DeclId}
  {info : Declaration} {s : Memory} {t : TypeId}

theorem rememberedType_of_cell (h : s.memo.get? d = some t) :
    p.rememberedType judge env d info s = .ok t s := by
  have hcell : InferM.memoized? d s = .ok (s.memo.get? d) s := rfl
  rw [rememberedType, InferM.bind_of_ok hcell, h]
  rfl

/-- What is left to do once the type of a declaration is inferred. -/
def remember (env : Environment) (before : Nat) (d : DeclId) (result : TypeId × Bool) :
    InferM TypeId := do
  if result.2 then memoize env before d result.1
  return result.1

theorem rememberedType_of_none (h : s.memo.get? d = none) :
    p.rememberedType judge env d info s =
      (p.inferredType judge env info >>= remember env s.fallbacks d) s := by
  have hcell : InferM.memoized? d s = .ok (s.memo.get? d) s := rfl
  have hcount : InferM.fallbackCount s = .ok s.fallbacks s := rfl
  rw [rememberedType, InferM.bind_of_ok hcell, h]
  dsimp only
  rw [InferM.bind_of_ok hcount]
  rfl

theorem memoize_eq (before : Nat) :
    memoize env before d t s = .ok ()
      (if s.fallbacks = before ∧ env.ReplacesNothing then
        { s with memo := s.memo.write d t } else s) := by
  have hcount : InferM.fallbackCount s = .ok s.fallbacks s := rfl
  have hiff : (decide (s.fallbacks = before) && !env.hasSubstitutions && env.this?.isNone) = true ↔
      s.fallbacks = before ∧ env.ReplacesNothing := by
    simp only [Bool.and_eq_true, decide_eq_true_eq, Bool.not_eq_true', Option.isNone_iff_eq_none]
    exact ⟨fun h => ⟨h.1.1, h.1.2, h.2⟩, fun h => ⟨⟨h.1, h.2.1⟩, h.2.2⟩⟩
  rw [memoize, InferM.bind_of_ok hcount]
  by_cases hcond : s.fallbacks = before ∧ env.ReplacesNothing
  · rw [if_pos (hiff.mpr hcond), if_pos hcond]
    rfl
  · rw [if_neg fun h => hcond (hiff.mp h), if_neg hcond]
    rfl

theorem remember_eq (before : Nat) (result : TypeId × Bool) :
    remember env before d result s = .ok result.1
      (if result.2 = true ∧ s.fallbacks = before ∧ env.ReplacesNothing then
        { s with memo := s.memo.write d result.1 } else s) := by
  obtain ⟨t, isKept⟩ := result
  cases isKept with
  | false =>
    rw [if_neg fun h => by cases h.1]
    rfl
  | true =>
    simp only [remember, if_true, true_and]
    rw [InferM.bind_of_ok (memoize_eq before)]
    rfl

theorem declarationType_of_canonical {d₀ d₁ : DeclId}
    (h : p.world.declarations.canonical d₀ = p.world.declarations.canonical d₁) :
    p.declarationType judge env d₀ = p.declarationType judge env d₁ := by
  simp only [declarationType, h]

/-- Inferring a declaration with a memo cell anew. -/
theorem Replays.decl {d₀ : DeclId} {U U' : TypeTable}
    (hd : ∀ judge env, p.declarationType judge env d₀ = p.rememberedType judge env d info)
    (h : Replays memo
      (fun i => InferM.keepMemo (p.rememberedType (p.anew i) .empty d info)) U t U') :
    Replays memo (fun i => (p.anew i).decl env d₀) U t U' :=
  h.shift fun k => congrArg InferM.keepMemo (hd (p.anew k) .empty)

/-- Reading a cell anew. -/
theorem replays_of_cell {U : TypeTable} (h : memo.get? d = some t) :
    Replays memo (fun i => InferM.keepMemo (p.rememberedType (p.anew i) .empty d info)) U t U :=
  ⟨0, fun _ _ _ => InferM.keepMemo_eq_ok (rememberedType_of_cell h)⟩

/-- Inferring the declaration of an empty cell anew. -/
theorem replays_of_none {result : TypeId × Bool} {U U' : TypeTable} (hnone : memo.get? d = none)
    (h : Replays memo (fun i => p.inferredType (p.anew i) .empty info) U result U') :
    Replays memo (fun i => InferM.keepMemo (p.rememberedType (p.anew i) .empty d info)) U
      result.1 U' := by
  obtain ⟨room, hroom⟩ := h
  refine ⟨room, fun r hr f => ?_⟩
  obtain ⟨s', hrun, htypes, hfall⟩ : ∃ s', p.rememberedType (p.anew r) .empty d info ⟨U, memo, f⟩ =
      .ok result.1 s' ∧ s'.types = U' ∧ s'.fallbacks = f := by
    rw [rememberedType_of_none hnone]
    refine ⟨_, InferM.bind_eq_ok.mpr ⟨result, _, hroom r hr f, remember_eq f result⟩, ?_⟩
    split <;> exact ⟨rfl, rfl⟩
  refine (InferM.keepMemo_eq_ok hrun).trans ?_
  rw [htypes, hfall]

end Cells

/-! ### The vigilant judgment -/

section Vigilant

variable {p : Program} {memo : Memo} {T : TypeTable} {env env' : Environment}

/-- Where nothing is replaced, a declaration with a memo cell is inferred as anew. -/
theorem alike_rememberedType {judge : Judge} (hJ : (p.settling memo).Asks p judge p.anew)
    (hsetting : p.Setting env T) (henv : env.ReplacesNothing) {d : DeclId} {info : Declaration}
    (hinfo : p.decl? (p.world.declarations.canonical d) = some info)
    (hd : ∀ judge env, p.declarationType judge env d =
      p.rememberedType judge env (p.world.declarations.canonical d) info) :
    (p.settling memo).rel T
      (p.rememberedType judge env (p.world.declarations.canonical d) info)
      (fun i => (p.anew i).decl env' d) ((p.settling memo).Same TypeTable.Has) := by
  rintro s rfl hs t s' hrun
  cases hcell : s.memo.get? (p.world.declarations.canonical d) with
  | some u =>
    -- A cell is read: one of `memo`, or one that is settled.
    rw [rememberedType_of_cell hcell] at hrun
    cases hrun
    refine ⟨Nat.le_refl _, .refl hsetting.table, hs, ⟨t, rfl, fun _ => hs.within _ t hcell⟩,
      fun _ U U' hfollows => ⟨t, ⟨rfl, fun _ => hs.within _ t hcell⟩, ?_⟩⟩
    obtain ⟨hle, rfl⟩ : s.types ≤ U ∧ U = U' := by
      cases hfollows with
      | along => exact ⟨le_rfl, rfl⟩
      | after hle => exact ⟨hle, rfl⟩
    cases hbase : memo.get? (p.world.declarations.canonical d) with
    | some u =>
      obtain rfl : t = u := Option.some.inj (hcell.symm.trans (hs.kept _ u hbase))
      exact .decl hd (replays_of_cell hbase)
    | none =>
      simp only [p.anew_decl _ env']
      exact hs.settled d t hcell hbase U hle
  | none =>
    have hbase : memo.get? (p.world.declarations.canonical d) = none := by
      cases hbase : memo.get? (p.world.declarations.canonical d) with
      | none => rfl
      | some u =>
        rw [hs.kept _ u hbase] at hcell
        cases hcell
    rw [rememberedType_of_none hcell] at hrun
    obtain ⟨result, s₁, hresult, hremember⟩ := InferM.bind_eq_ok.mp hrun
    have hscope : (p.settling memo).Scope p s.types env .empty :=
      ⟨henv.relaxes_empty, fun _ => hsetting⟩
    obtain ⟨hle, hg, hs₁, ⟨_, rfl, hhas⟩, hanew⟩ := (p.settling memo).inferredType p hJ hscope
      (fun _ t ht => hsetting.world.declaredType hinfo (Option.mem_toList.mp ht)) s rfl hs result s₁
      hresult
    rw [remember_eq] at hremember
    cases hremember
    have hreplays (hfall : s₁.fallbacks = s.fallbacks) {U U' : TypeTable}
        (hfollows : Follows s.types s₁.types U U') {e : DeclId} (env' : Environment)
        (he : ∀ judge env, p.declarationType judge env e =
          p.rememberedType judge env (p.world.declarations.canonical d) info) :
        Replays memo (fun i => (p.anew i).decl env' e) U result.1 U' := by
      obtain ⟨_, ⟨rfl, -⟩, h⟩ := hanew hfall U U' hfollows
      exact .decl he (replays_of_none hbase h)
    split
    · -- The cell is written with what inferring anew gives from then on.
      rename_i hkept
      refine ⟨hle, hg, hs₁.write (hhas trivial) fun e he U hU => ?_, ⟨_, rfl, hhas⟩,
        fun hfall U U' hfollows => ⟨_, ⟨rfl, hhas⟩, hreplays hfall hfollows env' hd⟩⟩
      refine hreplays hkept.2.1 (.after hU) .empty fun judge env => ?_
      rw [declarationType_of_canonical he, hd]
    · exact ⟨hle, hg, hs₁, ⟨_, rfl, hhas⟩,
        fun hfall U U' hfollows => ⟨_, ⟨rfl, hhas⟩, hreplays hfall hfollows env' hd⟩⟩

/-- The vigilant judgment keeps the memo cells consistent and does what inferring anew does. -/
theorem asks_vigilant (p : Program) (memo : Memo) (room : Nat) :
    (p.settling memo).Asks p (p.vigilant room) p.anew := by
  have hmissing {T : TypeTable} {env env' : Environment} (h : (p.settling memo).Scope p T env env')
      {n : NodeId} (hn : p.tree.get? n = none) : (p.settling memo).rel T (pure .unknown)
        (fun i => (p.anew i).node env' n) ((p.settling memo).Same TypeTable.Has) := by
    have hanew : (fun i => (p.anew i).node env' n) = fun _ => pure .unknown := by
      funext i
      cases i with
      | zero => simp only [anew, judge, hn]; rfl
      | succ i => simp only [anew, hn]
    rw [hanew]
    exact (p.settling memo).reserved (by decide) h.table
  have hexhausted {T : TypeTable} {env env' : Environment}
      (h : (p.settling memo).Scope p T env env') (y : Nat → InferM TypeId) :
      (p.settling memo).rel T exhausted y ((p.settling memo).Same TypeTable.Has) :=
    (p.settling memo).fallback ((p.settling memo).reserved (t := .unknown) (by decide) h.table)
  induction room with
  | zero =>
    refine ⟨fun h n => ?_, fun h d => hexhausted h _⟩
    cases hn : p.tree.get? n with
    | some node =>
      simp only [vigilant, judge, hn]
      exact hexhausted h _
    | none =>
      simp only [vigilant, judge, hn]
      exact hmissing h hn
  | succ room ih =>
    refine ⟨fun {T env env'} h n => ?_, fun {T env env'} h d => ?_⟩
    · cases hn : p.tree.get? n with
      | none =>
        simp only [vigilant, hn]
        exact hmissing h hn
      | some node =>
        simp only [vigilant, hn]
        have hcontent : p.content? n = some node.content := by
          rw [content?, Tree.content?, hn, Option.map_some]
        refine fun s hs hc => .shift (fun k => ?_)
          ((p.settling memo).nodeType p ih h hcontent s hs hc)
        simp only [anew, hn]
    · simp only [vigilant]
      split
      · exact fun _ _ _ _ _ hrun => by cases hrun
      rename_i hallowed
      rcases p.declarationType_cases d with ⟨z, hz, hstable⟩ | ⟨info, hinfo, hinferred, hd⟩
      · rw [hz]
        refine fun s hs hc => .shift (fun k => ?_) ((p.settling memo).lift
          (fun _ => hstable T (h.table trivial) (h.world trivial)) s hs hc)
        simp only [anew, hz, InferM.keepMemo_liftM]
      · have hcell : p.hasCell d = true := by
          rw [hasCell, hinfo, Option.map_some, hinferred, Option.getD_some]
        rw [hd]
        exact alike_rememberedType ih (h.setting trivial)
          (not_not.mp fun henv => hallowed ⟨hcell, henv⟩) hinfo hd

end Vigilant

/-- The type of a node or declaration by the vigilant judgment. -/
def inferVigilantly (p : Program) (env : Environment) : Typable → InferM TypeId
  | .node n => (p.vigilant p.options.maxInferenceDepth).node env n
  | .decl d => (p.vigilant p.options.maxInferenceDepth).decl env d

/-- The type of a node or declaration anew. -/
def inferAnew (p : Program) (env : Environment) (room : Nat) : Typable → InferM TypeId
  | .node n => (p.anew room).node env n
  | .decl d => (p.anew room).decl env d

/-- The inference returns without having asked for a declaration with a memo cell where something is
replaced. -/
structure InfersVigilantly (p : Program) (env : Environment) (target : Typable) (s : Memory)
    (t : TypeId) (s' : Memory) : Prop where
  returns : p.infer env target s = .ok t s'
  vigilantly : p.inferVigilantly env target s = .ok t s'

/-- A vigilant inference keeps the memo cells consistent, and without a fallback it returns what
inferring anew returns. -/
theorem InfersVigilantly.anew {p : Program} {memo : Memo} {env : Environment} {target : Typable}
    {s s' : Memory} {t : TypeId} (h : p.InfersVigilantly env target s t s')
    (hsetting : p.Setting env s.types) (hs : p.Consistent memo s) :
    s.types.GrowsTo s'.types ∧ p.Consistent memo s' ∧ (s'.fallbacks = s.fallbacks →
      Replays memo (fun room => p.inferAnew env room target) s.types t s'.types) := by
  have hscope : (p.settling memo).Scope p s.types env env := ⟨.refl env, fun _ => hsetting⟩
  have hasks := p.asks_vigilant memo p.options.maxInferenceDepth
  have halike : p.AlikeAt memo (p.inferVigilantly env target)
      (fun room => p.inferAnew env room target) ((p.settling memo).Same TypeTable.Has) s := by
    cases target with
    | node n => exact hasks.node hscope n s rfl hs
    | decl d => exact hasks.decl hscope d s rfl hs
  obtain ⟨-, hg, hs', -, hanew⟩ := halike t s' h.vigilantly
  refine ⟨hg, hs', fun hfall => ?_⟩
  obtain ⟨_, ⟨rfl, -⟩, hreplays⟩ := hanew hfall _ _ .along
  exact hreplays

/-- Let a request for a declaration return in the empty environment, and empty the memo cells that
it wrote again.  A later inference that notes no fallback with these cells nor without them gives
the same type and stores the same types, provided that all three inferences ask for declarations
with memo cells only where nothing is replaced. -/
theorem infer_eq_of_vigilant {p : Program} {s s₁ s₀' s₁' : Memory} {d : DeclId} {t a b : TypeId}
    {env : Environment} {target : Typable} (htable : s.types.WellFormed) (hp : p.Within s.types)
    (hmemo : ∀ e u, s.memo.get? e = some u → s.types.Has u)
    (hrequest : p.InfersVigilantly .empty (.decl d) s t s₁) (henv : env.Within s₁.types)
    (hguards : env.GuardsWithin s₁.types)
    (hcleared : p.InfersVigilantly env target { s₁ with memo := s.memo } a s₀')
    (hkept : p.InfersVigilantly env target s₁ b s₁')
    (hclearedFallbacks : s₀'.fallbacks = s₁.fallbacks)
    (hkeptFallbacks : s₁'.fallbacks = s₁.fallbacks) :
    a = b ∧ s₀'.types = s₁'.types := by
  obtain ⟨hg, hs₁, -⟩ := hrequest.anew (setting_empty htable hp) (consistent_self hmemo _)
  have hsetting : p.Setting env s₁.types := ⟨hg.wellFormed, hp.of_le hg.le, henv, hguards⟩
  have hs₀ : p.Consistent s.memo { s₁ with memo := s.memo } :=
    consistent_self (fun e u hu => (hmemo e u hu).of_le hg.le) _
  obtain ⟨-, -, hcleared⟩ := hcleared.anew hsetting hs₀
  obtain ⟨-, -, hkept⟩ := hkept.anew hsetting hs₁
  exact (hcleared hclearedFallbacks).unique (hkept hkeptFallbacks)

/-- A variable without annotation that is initialized with an annotated one, and a later use of
it. -/
def usedVariable : Program where
  world.declarations := ⟨#[{ kind := .var, name := .none, declaredType := some .number },
    { kind := .var, name := .none, node := some ⟨1⟩ }]⟩
  world.builtins := default
  world.fuel := 0
  tree := ⟨#[⟨.identifier .none (some ⟨1⟩), some ⟨1⟩⟩,
    ⟨.variableDecl (some ⟨2⟩) none (some ⟨0⟩) false, none⟩, ⟨.identifier .none (some ⟨2⟩), none⟩]⟩
  flow := .empty
  options := {}

namespace usedVariable

variable {judge : Judge} {env : Environment} {memo : Memo}

theorem declarationType_eq : usedVariable.declarationType judge env ⟨2⟩ =
    usedVariable.rememberedType judge env ⟨2⟩
      { kind := .var, name := .none, node := some ⟨1⟩ } := by
  have helement : usedVariable.declarationType judge env ⟨2⟩ = usedVariable.elementType judge env
    ⟨2⟩ { kind := .var, name := .none, node := some ⟨1⟩ } := rfl
  rw [helement, elementType_of_inferred rfl]

theorem declarationType_of_none (henv : env.ReplacesNothing) (hnone : memo.get? ⟨2⟩ = none)
    (hnode : judge.node env ⟨1⟩ ⟨.initial, memo, 0⟩ = .ok .number ⟨.initial, memo, 0⟩) :
    usedVariable.declarationType judge env ⟨2⟩ ⟨.initial, memo, 0⟩ =
      .ok .number ⟨.initial, memo.write ⟨2⟩ .number, 0⟩ := by
  rw [declarationType_eq, rememberedType_of_none hnone]
  refine InferM.bind_eq_ok.mpr ⟨(.number, true), _, InferM.bind_eq_ok.mpr ⟨_, _, hnode, rfl⟩, ?_⟩
  rw [remember_eq, if_pos ⟨rfl, rfl, henv⟩]

theorem declarationType_of_cell (hcell : memo.get? ⟨2⟩ = some .number) :
    usedVariable.declarationType judge env ⟨2⟩ ⟨.initial, memo, 0⟩ =
      .ok .number ⟨.initial, memo, 0⟩ := by
  rw [declarationType_eq, rememberedType_of_cell hcell]

/-- The environment of a function body. -/
def body : Environment := Environment.empty.withGuard ⟨.functionReturn, ⟨5⟩⟩

/-- The program mentions no type but `number`. -/
theorem within : usedVariable.Within .initial := by
  have hcontent {n : NodeId} {content : Content} (hn : usedVariable.content? n = some content) :
      content.types = [] ∧ content.texts = [] := by
    obtain ⟨node, hnode, rfl⟩ := Option.map_eq_some_iff.mp hn
    have hall : ∀ node ∈ usedVariable.tree.nodes.toList,
        node.content.types = [] ∧ node.content.texts = [] := by decide
    exact hall node (Array.mem_toList_iff.mpr (Array.mem_of_getElem? hnode))
  refine ⟨World.within_of_entries (by decide) (by decide), fun n content hn => ?_,
    fun n content hn s hs => ?_⟩
  · rw [(hcontent hn).1]
    exact TypeTable.hasAll_nil
  · rw [(hcontent hn).2] at hs
    cases hs

end usedVariable

/-- The use of the variable has one type, whether or not the variable was asked for before. -/
theorem infer_eq_of_vigilant_usedVariable : ∃ a b s₀ s₁,
    usedVariable.InfersVigilantly usedVariable.body (.node ⟨2⟩) ⟨.initial, .empty, 0⟩ a s₀ ∧
    usedVariable.InfersVigilantly usedVariable.body (.node ⟨2⟩)
      ⟨.initial, Memo.empty.write ⟨2⟩ .number, 0⟩ b s₁ ∧
    a = b ∧ s₀.types = s₁.types := by
  have hcell : (Memo.empty.write ⟨2⟩ .number).get? ⟨2⟩ = some .number := by
    rw [Memo.get?_write, if_pos ⟨rfl, Memo.get?_empty _⟩]
  have hrequest : usedVariable.InfersVigilantly .empty (.decl ⟨2⟩) ⟨.initial, .empty, 0⟩ .number
      ⟨.initial, Memo.empty.write ⟨2⟩ .number, 0⟩ :=
    ⟨usedVariable.declarationType_of_none (by decide) (Memo.get?_empty _) rfl,
      usedVariable.declarationType_of_none (by decide) (Memo.get?_empty _) rfl⟩
  have hcleared : usedVariable.InfersVigilantly usedVariable.body (.node ⟨2⟩)
      ⟨.initial, .empty, 0⟩ .number ⟨.initial, Memo.empty.write ⟨2⟩ .number, 0⟩ := by
    constructor <;> exact InferM.bind_eq_ok.mpr
      ⟨_, _, usedVariable.declarationType_of_none (by decide) (Memo.get?_empty _) rfl, rfl⟩
  have hkept : usedVariable.InfersVigilantly usedVariable.body (.node ⟨2⟩)
      ⟨.initial, Memo.empty.write ⟨2⟩ .number, 0⟩ .number
      ⟨.initial, Memo.empty.write ⟨2⟩ .number, 0⟩ := by
    constructor <;> exact InferM.bind_eq_ok.mpr
      ⟨_, _, usedVariable.declarationType_of_cell hcell, rfl⟩
  refine ⟨_, _, _, _, hcleared, hkept, infer_eq_of_vigilant TypeTable.wellFormed_initial
    usedVariable.within (fun e u hu => ?_) hrequest (Environment.within_empty.withGuard _) ?_
    hcleared hkept rfl rfl⟩
  · rw [Memo.get?_empty] at hu
    cases hu
  · exact ((setting_empty TypeTable.wellFormed_initial usedVariable.within).withGuard _).guards

end Program

end ScriptTyping
