import ScriptTyping.Proofs.Tree.Adoption

/-!
# Patterns from above and from below

A pattern is read from its binding down to its variables: every level selects an element of an array
pattern or a property of an object pattern, and goes on with what the element names.  The path to a
variable is found the other way round, along the parent links, which meet elements, properties and
patterns in turn.  In a tree in which every node of the pattern has one holder, both ways agree.

## Main definitions

* `Tree.Selects`, `Tree.Leads` — one level of a pattern, and any number of levels, read downwards.
* `Tree.Surrounds`, `Tree.InBinding` — the patterns around an element, read upwards.

## Main results

* `Tree.patternPath?_of_leads` — the path to what a pattern leads to.
* `Tree.inBinding_of_patternPathFrom` — a path exists only below a binding.
-/

namespace ScriptTyping.Tree

variable (tree : Tree)

/-- The target of an element that the pattern holds, by the step that selects it. -/
inductive Selects : NodeId → PatternStep → NodeId → Prop
  | element {pattern element target elements isRest}
      (hpattern : tree.content? pattern = some (.arrayPattern elements))
      (helement : tree.Adopts pattern element)
      (hcontent : tree.content? element = some (.bindingElement (some target) isRest))
      (htarget : tree.Adopts element target) : Selects pattern (.element isRest) target
  | property {pattern property element target properties name isRest}
      (hpattern : tree.content? pattern = some (.objectPattern properties))
      (hproperty : tree.Adopts pattern property)
      (hvalue : tree.content? property = some (.bindingProperty name (some element)))
      (helement : tree.Adopts property element)
      (hcontent : tree.content? element = some (.bindingElement (some target) isRest))
      (htarget : tree.Adopts element target) : Selects pattern (.property name) target

/-- The steps from a pattern through the patterns in it down to a target. -/
inductive Leads : NodeId → List PatternStep → NodeId → Prop
  | last {pattern step target} (h : Selects tree pattern step target) :
      Leads pattern [step] target
  | inner {pattern step inner steps target} (h : Selects tree pattern step inner)
      (hinner : Leads inner steps target) : Leads pattern (step :: steps) target

/-- The pattern around an element, which holds it directly or in a property. -/
inductive Surrounds : NodeId → NodeId → Prop
  | element {pattern element elements} (hparent : tree.parent? element = some pattern)
      (hpattern : tree.content? pattern = some (.arrayPattern elements)) :
      Surrounds pattern element
  | property {pattern property element name value properties}
      (hparent : tree.parent? element = some property)
      (hproperty : tree.content? property = some (.bindingProperty name value))
      (hparent' : tree.parent? property = some pattern)
      (hpattern : tree.content? pattern = some (.objectPattern properties)) :
      Surrounds pattern element

/-- Patterns and elements alternate from the element up to a binding. -/
inductive InBinding : NodeId → Prop
  | top {element pattern binding root initializer} (h : Surrounds tree pattern element)
      (hparent : tree.parent? pattern = some binding)
      (hbinding : tree.content? binding = some (.variableBinding root initializer)) :
      InBinding element
  | inner {element pattern outer target isRest} (h : Surrounds tree pattern element)
      (hparent : tree.parent? pattern = some outer)
      (houter : tree.content? outer = some (.bindingElement target isRest))
      (hinner : InBinding outer) : InBinding element

variable {tree} {pattern element target binding n : NodeId} {step : PatternStep}
  {steps above : List PatternStep} {fuel : Nat} {path : PatternPath}

/-! ### Upwards -/

theorem surrounds_of_patternStep? (h : tree.patternStep? element = some (step, pattern)) :
    tree.Surrounds pattern element := by
  obtain ⟨container, hcontainer, h⟩ := Option.bind_eq_some_iff.mp h
  obtain ⟨c, hc, h⟩ := Option.bind_eq_some_iff.mp h
  cases c with
  | arrayPattern =>
    cases h
    exact .element hcontainer hc
  | bindingProperty name value =>
    obtain ⟨q, hq, h⟩ := Option.bind_eq_some_iff.mp h
    obtain ⟨c', hc', h⟩ := Option.bind_eq_some_iff.mp h
    cases c' with
    | objectPattern =>
      cases h
      exact .property hcontainer hc hq hc'
    | _ => cases h
  | _ => cases h

/-- A walk that finds a binding has met patterns and elements in turn. -/
theorem inBinding_of_patternPathFrom (h : tree.patternPathFrom fuel element steps = some path) :
    tree.InBinding element := by
  induction fuel generalizing element steps with
  | zero => cases h
  | succ fuel ih =>
    obtain ⟨⟨step, pattern⟩, hstep, h⟩ := Option.bind_eq_some_iff.mp h
    obtain ⟨owner, howner, h⟩ := Option.bind_eq_some_iff.mp h
    obtain ⟨c, hc, h⟩ := Option.bind_eq_some_iff.mp h
    have hsurrounds := surrounds_of_patternStep? hstep
    cases c with
    | bindingElement => exact .inner hsurrounds howner hc (ih h)
    | variableBinding => exact .top hsurrounds howner hc
    | _ => cases h

/-! ### Downwards -/

/-- What a pattern selects stands in an element around which the pattern is found by the same
step. -/
theorem Selects.patternStep? (h : tree.Selects pattern step target) (hbuilt : tree.Built)
    (hup : tree.BottomUp) : ∃ element isRest, tree.parent? target = some element ∧
      tree.content? element = some (.bindingElement (some target) isRest) ∧
      tree.patternStep? element = some (step, pattern) := by
  cases h with
  | element hpattern helement hcontent htarget =>
    refine ⟨_, _, hbuilt.parent?_of_adopts hup htarget, hcontent, ?_⟩
    simp only [Tree.patternStep?, hbuilt.parent?_of_adopts hup helement, hpattern, isRestElement,
      hcontent, Option.bind_eq_bind, Option.bind_some]
  | property hpattern hproperty hvalue helement hcontent htarget =>
    refine ⟨_, _, hbuilt.parent?_of_adopts hup htarget, hcontent, ?_⟩
    simp only [Tree.patternStep?, hbuilt.parent?_of_adopts hup helement, hvalue,
      hbuilt.parent?_of_adopts hup hproperty, hpattern, Option.bind_eq_bind, Option.bind_some]

/-- The walk up from every element of the pattern goes through the pattern and the given steps to
the binding. -/
def Ascends (tree : Tree) (pattern binding : NodeId) (initializer : Slot)
    (above : List PatternStep) : Prop :=
  ∀ element step steps, tree.patternStep? element = some (step, pattern) →
    tree.patternPathFrom tree.size element steps =
      some ⟨binding, initializer, above ++ step :: steps⟩

variable {rank : NodeId → Nat} {initializer root : Slot}

/-- As many patterns as the tree has nodes are enough for one more. -/
theorem Climbs.patternPathFrom_size (h : tree.Climbs rank) (element : NodeId)
    (steps : List PatternStep) : tree.patternPathFrom tree.size element steps =
      tree.patternPathFrom (tree.size + 1) element steps :=
  (h.patternPathFrom_succ (by omega)).symm

theorem ascends_root (h : tree.Climbs rank) (hparent : tree.parent? pattern = some binding)
    (hbinding : tree.content? binding = some (.variableBinding root initializer)) :
    tree.Ascends pattern binding initializer [] := by
  intro element step steps hstep
  rw [h.patternPathFrom_size, patternPathFrom]
  simp only [hstep, hparent, hbinding, Option.bind_eq_bind, Option.bind_some, List.nil_append]

theorem Ascends.inner (h : tree.Ascends pattern binding initializer above) (hbuilt : tree.Built)
    (hup : tree.BottomUp) (hselects : tree.Selects pattern step target) :
    tree.Ascends target binding initializer (above ++ [step]) := by
  obtain ⟨element, isRest, hparent, hcontent, hstep⟩ := hselects.patternStep? hbuilt hup
  intro inner step' steps hstep'
  rw [hbuilt.proper.climbs.patternPathFrom_size, patternPathFrom]
  simp only [hstep', hparent, hcontent, Option.bind_eq_bind, Option.bind_some]
  rw [h element step (step' :: steps) hstep, List.append_assoc]
  rfl

theorem Ascends.patternPath? (h : tree.Ascends pattern binding initializer above)
    (hbuilt : tree.Built) (hup : tree.BottomUp) (hleads : tree.Leads pattern steps target) :
    tree.patternPath? target = some ⟨binding, initializer, above ++ steps⟩ := by
  induction hleads generalizing above with
  | last hselects =>
    obtain ⟨element, -, hparent, -, hstep⟩ := hselects.patternStep? hbuilt hup
    simp only [Tree.patternPath?, hparent, Option.bind_eq_bind, Option.bind_some]
    exact h element _ [] hstep
  | inner hselects _ ih =>
    rw [ih (h.inner hbuilt hup hselects), List.append_assoc]
    rfl

/-- The path to a target of a binding's pattern consists of the steps that lead to it. -/
theorem patternPath?_of_leads (hbuilt : tree.Built) (hup : tree.BottomUp)
    (hbinding : tree.content? binding = some (.variableBinding (some pattern) initializer))
    (hadopts : tree.Adopts binding pattern) (hleads : tree.Leads pattern steps target) :
    tree.patternPath? target = some ⟨binding, initializer, steps⟩ :=
  (ascends_root hbuilt.proper.climbs (hbuilt.parent?_of_adopts hup hadopts) hbinding).patternPath?
    hbuilt hup hleads

end ScriptTyping.Tree
