import ScriptTyping.Proofs.Lattice.AnyRelation
import ScriptTyping.Proofs.Lattice.Simplification
import ScriptTyping.Proofs.Text.Template
import ScriptTyping.Workspace

/-!
# What the notices about dropped members say

Every notice of the short form names two of the expanded members, a dropped one and the one that
made it go, as both read when the member was dropped.  The second name stands in the notice as it
is.  In the first one, every place with the number one is replaced by the second.

## Main definitions

* `Composite.sentence` — the notice that quotes two names.
* `Composite.Tells` — what a notice tells about two names.
* `Composite.Names` — a report that names two members.

## Main results

* `Composite.fill_template`, `Composite.tells_fill_template` — the notice about any two names.
* `TypeRelation.Keeps.simplify_names` — the reports of the short form.
* `Workspace.messages_quote_iff` — when messages and notices quote their arguments.
-/

namespace ScriptTyping

namespace Composite

open Template

variable {kind : Composite} {removed witness : String}

/-- What stands in a notice between the two names. -/
def reason : Composite → String
  | union => " is redundant in the union since it is a subtype of "
  | intersection => " is redundant in the intersection since it is a supertype of "

/-- The notice that quotes the name of a dropped member and the name of the one that made it go. -/
def sentence (kind : Composite) (removed witness : String) : String :=
  "Type " ++ removed ++ kind.reason ++ witness ++ "."

/-- The name with the other name at its places with the number one. -/
def overwrite (removed witness : String) : String :=
  String.ofList (replaceAll (place 1) witness.toList removed.toList)

theorem toList_overwrite : (overwrite removed witness).toList =
    replaceAll (place 1) witness.toList removed.toList := String.toList_ofList

theorem toList_template : kind.message.template.toList =
    "Type ".toList ++ (place 0 ++ (kind.reason.toList ++ (place 1 ++ ".".toList))) := by
  cases kind <;> decide +kernel

theorem open_notMem_reason : '\x7b' ∉ kind.reason.toList := by
  cases kind <;> simp [reason]

theorem close_notMem_reason : '\x7d' ∉ kind.reason.toList := by
  cases kind <;> simp [reason]

theorem toList_sentence : (kind.sentence removed witness).toList =
    "Type ".toList ++ (removed.toList ++ (kind.reason.toList ++
      (witness.toList ++ ".".toList))) := by
  simp only [sentence, String.toList_append, List.append_assoc]

theorem sentence_inj {other : String} :
    kind.sentence removed witness = kind.sentence other witness ↔ removed = other := by
  rw [← String.toList_inj, toList_sentence, toList_sentence, List.append_cancel_left_eq,
    List.append_cancel_right_eq, String.toList_inj]

/-- Filled in at once, both names are quoted. -/
theorem fillAtOnce_template :
    fillAtOnce kind.message.template [removed, witness] = kind.sentence removed witness := by
  rw [← String.toList_inj, fillAtOnce, String.toList_ofList, toList_template, pieces_append_place,
    pieces_append_place, toList_sentence, pieces_of_open_notMem (by decide),
    pieces_of_open_notMem open_notMem_reason, pieces_of_open_notMem (by decide)]
  simp only [spell_append, spell_cons, spell_map_char]
  rfl

/-- The text of a notice: the second name has also come into the first one. -/
theorem fill_template : fill kind.message.template [removed, witness] =
    kind.sentence (overwrite removed witness) witness := by
  have hopen : '\x7b' ∉ "Type ".toList := by decide
  have hdot : replaceAll (place 1) witness.toList ".".toList = ".".toList :=
    replaceAll_append_of_open_notMem (u := ".".toList) (v := []) (by decide)
  have hfirst : replaceAll (place 0) removed.toList kind.message.template.toList =
      "Type ".toList ++ (removed.toList ++ (kind.reason.toList ++ (place 1 ++ ".".toList))) := by
    rw [toList_template, replaceAll_append_of_open_notMem hopen, replaceAll_place, if_pos rfl,
      replaceAll_append_of_open_notMem open_notMem_reason, replaceAll_place, if_neg (by decide)]
    rfl
  have hsecond : fill kind.message.template [removed, witness] = String.ofList
      (replaceAll (place 1) witness.toList
        (replaceAll (place 0) removed.toList kind.message.template.toList)) := rfl
  rw [hsecond, hfirst, replaceAll_append_of_open_notMem hopen, ← List.append_assoc removed.toList,
    replaceAll_append_place, replaceAll_append_of_close_notMem close_notMem_reason, hdot,
    ← String.toList_inj, toList_sentence, toList_overwrite, String.toList_ofList, List.append_assoc]

/-- What the text of a notice tells about two names: the second as it is, and both as they are
exactly when the first has no place with the number one, or the second is that place. -/
structure Tells (kind : Composite) (removed witness text : String) : Prop where
  text_eq : text = kind.sentence (overwrite removed witness) witness
  quotes_iff : text = kind.sentence removed witness ↔
    witness.toList = place 1 ∨ ¬place 1 <:+: removed.toList

/-- Every notice tells its names. -/
theorem tells_fill_template :
    kind.Tells removed witness (fill kind.message.template [removed, witness]) where
  text_eq := fill_template
  quotes_iff := by
    rw [fill_template, sentence_inj, ← String.toList_inj, toList_overwrite, replaceAll_eq_self_iff,
      occurrences, List.count_eq_zero, place_mem_pieces]

/-! ### Reports -/

variable {rel : TypeRelation} {w : World} {env : Environment} {T T' T'' : TypeTable}
  {ts members : List TypeId} {report : Redundancy}

/-- A report about two of the types, with their names as they read at some table between the two. -/
structure Names (kind : Composite) (w : World) (T : TypeTable) (ts : List TypeId) (T' : TypeTable)
    (report : Redundancy) : Prop where
  kind_eq : report.kind = kind
  removed : report.removed ∈ ts
  witness : report.witness ∈ ts
  names : ∃ T₁, T ≤ T₁ ∧ T₁ ≤ T' ∧ report.names =
    [Rendering.type T₁ w.declarations report.removed,
      Rendering.type T₁ w.declarations report.witness]

theorem Names.of_le (h : kind.Names w T ts T' report) (hle : T' ≤ T'') :
    kind.Names w T ts T'' report := by
  obtain ⟨T₁, hle₁, hle₂, hnames⟩ := h.names
  exact { h with names := ⟨T₁, hle₁, hle₂.trans hle, hnames⟩ }

theorem Names.mono {us : List TypeId} (h : kind.Names w T ts T' report) (hsub : ts ⊆ us) :
    kind.Names w T us T' report :=
  { h with removed := hsub h.removed, witness := hsub h.witness }

variable (hrel : rel.Keeps w env)

include hrel

/-- The search for a member that makes another one go ends at one of the candidates. -/
theorem keeps_witness? (h : w.Setting env T) (hts : T.HasAll ts) {member : TypeId}
    (hmember : T.Has member) :
    TypeM.Keeps (kind.witness? rel env ts member) T fun _ found =>
      ∀ witness, found = some witness → witness ∈ ts := by
  refine TypeM.keepsLogic.findM? ts h.table fun other hother T₁ hg => ?_
  have hmember₁ := hmember.of_le hg.le
  have hother₁ := (hts other hother).of_le hg.le
  split
  · exact .pure hg.wellFormed trivial
  · cases kind with
    | union => exact hrel.answers.strict (h.grow hg) hmember₁ hother₁
    | intersection => exact hrel.answers.strict (h.grow hg) hother₁ hmember₁

/-- Every member that goes is reported under the name that it has when it goes. -/
theorem keeps_redundancies (h : w.Setting env T) (hts : T.HasAll ts) :
    TypeM.Keeps (kind.redundancies rel w env ts) T fun T' reports =>
      ∀ report ∈ reports, kind.Names w T ts T' report := by
  rw [redundancies]
  split
  · exact .pure h.table fun _ hreport => by cases hreport
  refine TypeM.Keeps.bind (TypeM.keepsLogic.mapM
    (W := fun T' outcome => ∀ report, outcome = some report → kind.Names w T ts T' report)
    (fun _ _ _ hle hnames report houtcome => (hnames report houtcome).of_le hle) ts h.table
    fun member hmember T₁ hg₁ => ?_) fun found T₁ hg₁ hfound => .pure hg₁.wellFormed ?_
  · have hts₁ : T₁.HasAll ts := fun t ht => (hts t ht).of_le hg₁.le
    refine (keeps_witness? hrel (h.grow hg₁) hts₁ (hts₁ member hmember)).bind
      fun found T₂ hg₂ hwitness => ?_
    cases found with
    | none => exact .pure hg₂.wellFormed fun _ houtcome => by cases houtcome
    | some witness =>
      -- The names are read from the table as it is now.
      rintro _ _ hrun
      cases hrun
      refine ⟨.refl hg₂.wellFormed, ?_⟩
      rintro _ ⟨⟩
      exact ⟨rfl, hmember, hwitness witness rfl, T₂, hg₁.le.trans hg₂.le, le_rfl, rfl⟩
  · intro report hreport
    obtain ⟨_, hmem, rfl⟩ := List.mem_filterMap.mp hreport
    exact hfound _ hmem report rfl

/-- Every report about a composite names two of the expanded members. -/
theorem keeps_build (h : w.Setting env T) (hms : T.HasAll members) :
    TypeM.Keeps (kind.build rel w env members) T fun T' built => ∀ report ∈ built.2,
      ∃ leaves, kind.leaves? T members = some leaves ∧ kind.Names w T leaves T' report := by
  rintro ⟨r, reports⟩ T' hrun
  obtain ⟨_, _, hget, hrun⟩ := TypeM.bind_eq_ok.mp hrun
  cases hget
  obtain ⟨leaves, T₁, hleaves, hrun⟩ := TypeM.bind_eq_ok.mp hrun
  obtain ⟨hfound, rfl⟩ := TypeM.ofOption_eq_ok.mp hleaves
  have hhas := (leavesFrom?_of_le h.table le_rfl _ (Nat.le_refl _) hms hfound).2
  have hsub : leaves.eraseDups ⊆ leaves := fun t ht => List.mem_eraseDups.mp ht
  generalize leaves.eraseDups = flat at hrun hsub
  match flat, hsub with
  | [], _ =>
    cases hrun
    exact ⟨.refl h.table, fun _ hreport => by cases hreport⟩
  | [single], _ =>
    cases hrun
    exact ⟨.refl h.table, fun _ hreport => by cases hreport⟩
  | first :: second :: rest, hsub =>
    have hflat : T.HasAll (first :: second :: rest) := fun t ht => hhas t (hsub ht)
    obtain ⟨dropped, T₂, hdropped, hrun⟩ := TypeM.bind_eq_ok.mp hrun
    obtain ⟨r', T₃, hr, hpure⟩ := TypeM.bind_eq_ok.mp hrun
    obtain ⟨hpair, rfl⟩ := TypeM.pure_eq_ok.mp hpure
    obtain ⟨rfl, rfl⟩ := Prod.mk.inj hpair
    obtain ⟨hg, hnames⟩ := keeps_redundancies hrel h
      (fun t ht => hflat t (List.mem_filter.mp ht).1) _ _ hdropped
    obtain ⟨hg', -⟩ := stable_assemble hg.wellFormed
      (fun t ht => (hflat t (mem_survivors.mp ht).1).of_le hg.le) _ _ hr
    exact ⟨hg.trans hg', fun report hreport => ⟨leaves, hfound,
      ((hnames report hreport).of_le hg'.le).mono fun t ht => hsub (List.mem_filter.mp ht).1⟩⟩

end Composite

open Composite Template

/-- Every report of the short form names two of the expanded members. -/
theorem TypeRelation.Keeps.simplify_names {rel : TypeRelation} {w : World} {env : Environment}
    {T : TypeTable} {t : TypeId} (hrel : rel.Keeps w env) (h : w.Setting env T) (ht : T.Has t) :
    TypeM.Keeps (ScriptTyping.simplify rel w env t) T fun T' short => ∀ report ∈ short.2,
      ∃ members leaves, report.kind.members? (T.lookup t) = some members ∧
        report.kind.leaves? T members = some leaves ∧
        report.kind.Names w T leaves T' report := by
  have hbuild (kind : Composite) {members : List TypeId}
      (hmembers : kind.members? (T.lookup t) = some members) :
      TypeM.Keeps (kind.build rel w env members) T fun T' short => ∀ report ∈ short.2,
        ∃ members leaves, report.kind.members? (T.lookup t) = some members ∧
          report.kind.leaves? T members = some leaves ∧
          report.kind.Names w T leaves T' report := by
    refine TypeM.keepsLogic.mono (keeps_build hrel h (hasAll_members h.table hmembers))
      fun T' short _ hnames report hreport => ?_
    obtain ⟨leaves, hleaves, hreport⟩ := hnames report hreport
    obtain rfl := hreport.kind_eq
    exact ⟨members, leaves, hmembers, hleaves, hreport⟩
  rw [ScriptTyping.simplify]
  refine hrel.answers.lookup ht ?_
  split
  · rename_i members hd
    exact hbuild .union (by rw [hd]; rfl)
  · rename_i members hd
    exact hbuild .intersection (by rw [hd]; rfl)
  · exact .pure h.table fun _ hreport => by cases hreport

namespace Workspace

variable {ws ws' : Workspace} {env : Environment} {t result : TypeId} {node : Option NodeId}
  {notices : List Notice}

/-- The notices of a query are those of the reports of the short form, if any. -/
theorem simplify_eq_ok (h : ws.simplify env t node = (.ok (result, notices), ws')) :
    ∃ reports, ScriptTyping.simplify ws.world.isSubtype ws.world env t ws.types =
        .ok (result, reports) ws'.types ∧
      ∀ notice ∈ notices, ∃ report ∈ reports, notice = report.notice node := by
  obtain ⟨types, declarations, builtins, memo, tree, flow, options⟩ := ws
  rw [simplify, runTypes] at h
  dsimp only at h
  split at h
  · rename_i short T' hrun
    obtain ⟨hshort, rfl⟩ := Prod.mk.inj h
    obtain ⟨⟨r, reports⟩, T₁, hsimplify, hpure⟩ := TypeM.bind_eq_ok.mp hrun
    obtain ⟨hpair, rfl⟩ := TypeM.pure_eq_ok.mp hpure
    obtain ⟨rfl, hnotices⟩ := Prod.mk.inj (hpair.trans (Except.ok.inj hshort))
    refine ⟨reports, hsimplify, fun notice hnotice => ?_⟩
    rw [← hnotices] at hnotice
    split at hnotice
    · obtain ⟨report, hreport, rfl⟩ := List.mem_map.mp hnotice
      exact ⟨report, hreport, rfl⟩
    · cases hnotice
  · cases (Prod.mk.inj h).1

/-- Messages and notices quote their arguments unless an argument completes a place.  Any number of
first arguments is filled in as if at once exactly when every argument is its place or finds as many
places in the text that the earlier ones leave as the template has.  Filled in at once, the two
names of a notice are quoted.  Every notice tells both names, that of the expanded member that was
dropped and that of the one that made it go. -/
theorem messages_quote_iff (template : String) (args : List String) :
    ((∀ n ≤ args.length, fill template (args.take n) = fillAtOnce template (args.take n)) ↔
      ∀ k arg, args[k]? = some arg → arg.toList = place k ∨
        occurrences k (fillAtOnce template (args.take k)).toList =
          occurrences k template.toList) ∧
    (∀ (kind : Composite) (removed witness : String),
      fillAtOnce kind.message.template [removed, witness] = kind.sentence removed witness) ∧
    (∀ (ws : Workspace) (node : Option NodeId) (removed witness : TypeId),
      Composite.union.Tells (ws.render removed) (ws.render witness)
        (ws.redundancyNotices node removed witness).1.text ∧
      Composite.intersection.Tells (ws.render removed) (ws.render witness)
        (ws.redundancyNotices node removed witness).2.text) ∧
    ∀ (ws ws' : Workspace) (env : Environment) (t result : TypeId) (node : Option NodeId)
      (notices : List Notice), ws.world.Setting env ws.types → ws.types.Has t →
      ws.simplify env t node = (.ok (result, notices), ws') → ∀ notice ∈ notices,
        ∃ (kind : Composite) (members leaves : List TypeId) (removed witness : TypeId)
          (T : TypeTable), kind.members? (ws.types.lookup t) = some members ∧
          kind.leaves? ws.types members = some leaves ∧ removed ∈ leaves ∧ witness ∈ leaves ∧
          ws.types ≤ T ∧ T ≤ ws'.types ∧
          kind.Tells (Rendering.type T ws.declarations removed)
            (Rendering.type T ws.declarations witness) notice.text := by
  refine ⟨forall_fill_take_eq_iff template args, fun _ _ _ => fillAtOnce_template,
    fun ws node removed witness => ⟨tells_fill_template, tells_fill_template⟩, ?_⟩
  intro ws ws' env t result node notices h ht hrun notice hnotice
  obtain ⟨reports, hsimplify, hnotices⟩ := simplify_eq_ok hrun
  obtain ⟨report, hreport, rfl⟩ := hnotices notice hnotice
  obtain ⟨-, hnames⟩ :=
    (World.keeps_isSubtype ws.world env).simplify_names h ht _ _ hsimplify
  obtain ⟨members, leaves, hmembers, hleaves, hreport⟩ := hnames report hreport
  obtain ⟨T, hle, hle', hnames⟩ := hreport.names
  refine ⟨report.kind, members, leaves, report.removed, report.witness, T, hmembers, hleaves,
    hreport.removed, hreport.witness, hle, hle', ?_⟩
  rw [Redundancy.notice, Notice.ofMessage, hnames]
  exact tells_fill_template

/-- The type `1`, the intersection of it alone and the union of that with `number`. -/
def bracedTable : TypeTable :=
  ((TypeTable.initial.store (.literal (.number ⟨false, 1, 0⟩))).store (.intersection [⟨16⟩])).store
    (.union [⟨17⟩, .number])

/-- The three types without any declaration. -/
def braced : Workspace where
  types := bracedTable
  declarations := ⟨#[]⟩
  builtins := default
  memo := .empty
  tree := .empty
  flow := .empty
  options := {}

/-- The name of the dropped member is not quoted. -/
theorem messages_quote_iff_braced :
    let text := "Type intersectionnumber is redundant in the union since it is a subtype of number."
    braced.simplify .empty ⟨18⟩ none = (.ok (.number, [⟨none, 9001, .warning, text⟩]), braced) ∧
      text ≠ Composite.union.sentence (braced.render ⟨17⟩) (braced.render .number) ∧
      ∃ removed ∈ [⟨17⟩, TypeId.number], ∃ witness ∈ [⟨17⟩, TypeId.number], ∃ T, braced.types ≤ T ∧
        Composite.union.Tells (Rendering.type T braced.declarations removed)
          (Rendering.type T braced.declarations witness) text := by
  intro text
  have hT : bracedTable.WellFormed := by
    suffices TypeTable.initial.GrowsTo bracedTable from this.wellFormed
    rw [bracedTable]
    iterate 3 refine TypeTable.GrowsTo.store ?_ (by decide) (by decide)
    exact .refl TypeTable.wellFormed_initial
  have hsetting : braced.world.Setting .empty braced.types :=
    ⟨hT, World.within_of_entries (by decide) (by decide), Environment.within_empty⟩
  have hrun : braced.simplify .empty ⟨18⟩ none =
    (.ok (.number, [⟨none, 9001, .warning, text⟩]), braced) := rfl
  refine ⟨hrun, by decide +kernel, ?_⟩
  obtain ⟨-, -, -, h⟩ :=
    messages_quote_iff Message.redundantInUnion.template [braced.render ⟨17⟩, braced.render .number]
  obtain ⟨kind, members, leaves, removed, witness, T, hmembers, hleaves, hremoved, hwitness, hle, -,
    htells⟩ := h _ _ _ _ _ _ _ hsetting (by decide) hrun _ (List.mem_singleton_self _)
  cases kind with
  | intersection => cases hmembers
  | union =>
    obtain rfl : [⟨17⟩, .number] = members := Option.some.inj hmembers
    obtain rfl : [⟨17⟩, .number] = leaves := Option.some.inj hleaves
    exact ⟨removed, hremoved, witness, hwitness, T, hle, htells⟩

end Workspace

end ScriptTyping
