import OklchGate.Proofs.Gate.Grouping
import OklchGate.Proofs.Gate.Settling

/-!
# Inserting gates twice into one document

A second insertion of gates into a document finds every rule with its gate and
the top-level declarations with theirs, and leaves the document as it is.  This
holds of every document, read or edited or both, since a gate is recognized in
the tree and not by its text.

There are four groups.

* What is collected from nodes is collected from the nodes with their gates
  (`filterMap_gatedNodes`), and a rule is paired by the same nodes
  (`isPaired_gatedNodes`).
* The rules: `map_found_gatedNodes` says that the second scan finds in them what
  the first one found, and `noGroup_gatedNodes` that none gets a gate again.
* The top level: `rootGate?_insertGates`.
* `insertGates_again`, which puts this together.
-/

namespace OklchGate.Gate

/-! ## Nodes with their gates -/

theorem isGate_gateNode (layout : Css.Layout) (selector : Text)
    (items : List Item) :
    isGate (gateNode layout selector items) = true := by
  show decide (gateName.lower = gateName) = true
  decide

/-- A gate that is put in is one, and it names the selector of its rule. -/
theorem gateFor?_eq_some {setting : Setting} {inert : Bool}
    {origin : Css.Origin} {content : Option Css.Span} {head : Css.Head}
    {children following : List Css.Node} {rule : RuleScan}
    (hrule : scanHead? setting.convert inert head children following =
      some rule)
    (hgroup : rule.isGroup = true) :
    ∃ gate, gateFor? setting inert (.container origin content head children)
      following =
        some gate ∧ gateSelectors gate = [rule.selector] ∧ gate.isComment =
          false := by
  refine ⟨_, by rw [gateFor?, hrule]; dsimp only; rw [if_pos hgroup], ?_, rfl⟩
  have hgate := isGate_gateNode
    (ruleLayout setting.source setting.unit
      (.container origin content head children))
    rule.selector rule.items
  rw [gateNode, isGate] at hgate
  rw [gateNode, gateSelectors, hgate]
  rfl

/-- What is collected from nodes that are no gates is collected from the nodes
with their gates. -/
theorem filterMap_gatedNodes {β : Type} {f : Css.Node → Option β}
    (setting : Setting) (inert : Bool)
    (hnode : ∀ node, f (gatedNode setting inert node) = f node)
    (hgate : ∀ gate, isGate gate = true → f gate = none)
    (nodes : List Css.Node) :
    (gatedNodes setting inert nodes).filterMap f = nodes.filterMap f := by
  induction nodes with
  | nil => rfl
  | cons node rest ih =>
    rw [gatedNodes, List.filterMap_cons, List.filterMap_cons,
      List.filterMap_append, hnode, ih]
    cases hfor : gateFor? setting inert node rest with
    | none => rfl
    | some gate =>
      obtain ⟨layout, selector, items, rfl⟩ := exists_of_gateFor? hfor
      rw [Option.toList_some, List.filterMap_cons,
        hgate _ (isGate_gateNode _ _ _)]
      rfl

theorem reading?_gatedNode (convert : Converter) (setting : Setting)
    (inert : Bool) (node : Css.Node) :
    reading? convert (gatedNode setting inert node) =
      reading? convert node := by
  cases node <;> rfl

theorem selector?_gatedNode (setting : Setting) (inert : Bool)
    (node : Css.Node) :
    (gatedNode setting inert node).selector? = node.selector? := by
  cases node with
  | leaf => rfl
  | container origin content head children => cases head <;> rfl

theorem itemsOf_gatedNodes (convert : Converter) (setting : Setting)
    (inert : Bool) (nodes : List Css.Node) :
    itemsOf convert (gatedNodes setting inert nodes) =
      itemsOf convert nodes := by
  refine filterMap_gatedNodes setting inert (fun node => ?_)
    (fun gate hgate => ?_) nodes
  · rw [reading?_gatedNode]
  · rw [reading?_gate convert hgate]

theorem failuresOf_gatedNodes (convert : Converter) (setting : Setting)
    (inert : Bool) (nodes : List Css.Node) :
    failuresOf convert (gatedNodes setting inert nodes) =
      failuresOf convert nodes := by
  refine filterMap_gatedNodes setting inert (fun node => ?_)
    (fun gate hgate => ?_) nodes
  · rw [reading?_gatedNode]
  · rw [reading?_gate convert hgate]

/-- A node names the same selectors with the gates below it as without. -/
theorem gateSelectors_gatedNode (setting : Setting) (inert : Bool)
    (node : Css.Node) :
    gateSelectors (gatedNode setting inert node) = gateSelectors node := by
  cases node with
  | leaf => rfl
  | container origin content head children =>
    rw [gatedNode, gateSelectors, gateSelectors,
      filterMap_gatedNodes setting _ (selector?_gatedNode setting _)
        (fun gate hgate => selector?_gate hgate)]

/-- A rule is paired by the same nodes with their gates as without. -/
theorem isPaired_gatedNodes (setting : Setting) (inert : Bool) (selector : Text)
    (nodes : List Css.Node) :
    isPaired selector (gatedNodes setting inert nodes) =
      isPaired selector nodes := by
  induction nodes with
  | nil => rfl
  | cons node rest ih =>
    rw [gatedNodes]
    cases hcomment : node.isComment with
    | true =>
      cases node with
      | container => cases hcomment
      | leaf origin item =>
        rw [gatedNode, isPaired_comment hcomment, isPaired_comment hcomment,
          ← ih]
        rfl
    | false =>
      have hgated : (gatedNode setting inert node).isComment = false := by
        cases node <;> exact hcomment
      rw [isPaired_significant hcomment, isPaired_significant hgated,
        gateSelectors_gatedNode]

/-- Nothing is found in the gate of a node. -/
theorem scanNodes_gateFor?_append (convert : Converter) (inert inertGate : Bool)
    (setting : Setting) (node : Css.Node) (following nodes : List Css.Node) :
    scanNodes convert inert
      ((gateFor? setting inertGate node following).toList ++ nodes) =
      scanNodes convert inert nodes := by
  cases hfor : gateFor? setting inertGate node following with
  | none => rfl
  | some gate =>
    obtain ⟨layout, selector, items, rfl⟩ := exists_of_gateFor? hfor
    rw [Option.toList_some, List.singleton_append, scanNodes,
      scanNode_gate convert inert nodes (isGate_gateNode _ _ _),
      List.nil_append]

/-! ## The rules of the second scan -/

/-- What is found in a rule, whether or not the rule is paired. -/
def RuleScan.found (rule : RuleScan) : Text × List Item × List Text :=
  (rule.selector, rule.items, rule.failures)

/-- What is found in a rule does not depend on its siblings. -/
theorem map_found_scanHead? (convert : Converter) (setting : Setting)
    (inert inertBelow : Bool) (head : Css.Head)
    (children following others : List Css.Node) :
    (scanHead? convert inert head (gatedNodes setting inertBelow children)
      others).toList.map RuleScan.found =
      (scanHead? convert inert head children following).toList.map
        RuleScan.found := by
  cases head with
  | atRule => rfl
  | rule selector =>
    cases inert with
    | true => rfl
    | false =>
      have hitems := itemsOf_gatedNodes convert setting inertBelow children
      have hfailures :=
        failuresOf_gatedNodes convert setting inertBelow children
      dsimp only [scanHead?, RuleScan.ofRule]
      rw [hitems, hfailures]
      rfl

mutual

theorem map_found_gatedNode (convert : Converter) (setting : Setting)
    (inert : Bool) (following others : List Css.Node) (node : Css.Node) :
    (scanNode convert inert others (gatedNode setting inert node)).map
      RuleScan.found =
      (scanNode convert inert following node).map RuleScan.found := by
  cases node with
  | leaf => rfl
  | container origin content head children =>
    have hchildren :=
      map_found_gatedNodes convert setting (inert || isInert head) []
      (scanNodes.eq_1 convert (inert || isInert head)) children
    rw [List.append_nil] at hchildren
    rw [gatedNode, scanNode, scanNode, List.map_append, List.map_append,
      hchildren,
      map_found_scanHead? convert setting inert (inert || isInert head) head
        children following]

/-- The rules of nodes with their gates are those of the nodes alone, with what
was found in them; nodes after them in which nothing is found do not matter. -/
theorem map_found_gatedNodes (convert : Converter) (setting : Setting)
    (inert : Bool) (extra : List Css.Node)
    (hextra : scanNodes convert inert extra = []) (nodes : List Css.Node) :
    (scanNodes convert inert (gatedNodes setting inert nodes ++ extra)).map
      RuleScan.found = (scanNodes convert inert nodes).map RuleScan.found := by
  cases nodes with
  | nil =>
    rw [gatedNodes, List.nil_append, hextra]
    rfl
  | cons node rest =>
    rw [gatedNodes, List.cons_append, List.append_assoc, scanNodes, scanNodes,
      List.map_append, List.map_append, scanNodes_gateFor?_append,
      map_found_gatedNodes convert setting inert extra hextra rest,
      map_found_gatedNode convert setting inert rest _ node]

end

/-- A rule is paired once its gate is put in after it. -/
theorem noGroup_scanHead?_gated {setting : Setting} {inert inertBelow : Bool}
    {origin : Css.Origin} {content : Option Css.Span} {head : Css.Head}
    {children following rest : List Css.Node}
    (hrest : ∀ selector, isPaired selector following = true →
      isPaired selector rest = true) :
    NoGroup (scanHead? setting.convert inert head
      (gatedNodes setting inertBelow children)
      ((gateFor? setting inert (.container origin content head children)
        following).toList ++ rest)).toList := by
  cases head with
  | atRule => exact noGroup_nil
  | rule selector =>
    cases inert with
    | true => exact noGroup_nil
    | false =>
      have hscan : ∀ children following,
        scanHead? setting.convert false (.rule selector)
          children following =
            some (RuleScan.ofRule setting.convert selector children
            following) :=
        fun _ _ => rfl
      rw [hscan, Option.toList_some, noGroup_singleton, isGroup_ofRule,
        itemsOf_gatedNodes]
      by_cases hgroup :
        (RuleScan.ofRule setting.convert selector children following).isGroup =
        true
      · obtain ⟨gate, hgate, hselectors, hcomment⟩ := gateFor?_eq_some
          (hscan children following) hgroup
        rw [hgate, Option.toList_some, List.singleton_append,
          isPaired_significant hcomment, hselectors]
        simp [RuleScan.ofRule]
      · -- The rule has no items, or it is paired by the nodes after it.
        rw [Bool.not_eq_true] at hgroup
        have hnone := isSome_gateFor?_rule setting origin content selector
          children following
        rw [hgroup, Option.isSome_eq_false_iff,
          Option.isNone_iff_eq_none] at hnone
        rw [hnone, Option.toList_none, List.nil_append]
        rw [isGroup_ofRule, Bool.and_eq_false_iff] at hgroup
        rw [Bool.and_eq_false_iff]
        refine hgroup.imp_right fun hpaired => ?_
        rw [hrest selector (by simpa using hpaired)]
        rfl

mutual

theorem noGroup_gatedNode {setting : Setting} {inert : Bool} {node : Css.Node}
    {following rest : List Css.Node}
    (hrest : ∀ selector, isPaired selector following = true →
      isPaired selector rest = true) :
    NoGroup (scanNode setting.convert inert
      ((gateFor? setting inert node following).toList ++ rest)
        (gatedNode setting inert node)) := by
  cases node with
  | leaf => exact noGroup_nil
  | container origin content head children =>
    have hchildren : NoGroup (scanNodes setting.convert (inert || isInert head)
        (gatedNodes setting (inert || isInert head) children ++ [])) :=
      noGroup_gatedNodes [] rfl
    rw [List.append_nil] at hchildren
    rw [gatedNode, scanNode, noGroup_append]
    exact ⟨noGroup_scanHead?_gated hrest, hchildren⟩

/-- No rule among nodes with their gates gets a gate again. -/
theorem noGroup_gatedNodes {setting : Setting} {inert : Bool}
    {nodes : List Css.Node} (extra : List Css.Node)
    (hextra : scanNodes setting.convert inert extra = []) :
    NoGroup (scanNodes setting.convert inert
      (gatedNodes setting inert nodes ++ extra)) := by
  cases nodes with
  | nil =>
    rw [gatedNodes, List.nil_append, hextra]
    exact noGroup_nil
  | cons node rest =>
    rw [gatedNodes, List.cons_append, List.append_assoc, scanNodes,
      noGroup_append, scanNodes_gateFor?_append]
    refine ⟨noGroup_gatedNode fun selector hpaired => ?_,
      noGroup_gatedNodes extra hextra⟩
    rw [← isPaired_gatedNodes setting inert] at hpaired
    exact isPaired_append hpaired extra

end

/-! ## The top-level declarations of the second scan -/

/-- In a gate nothing is inserted. -/
theorem gatedNode_gate {setting : Setting} {inert : Bool} {gate : Css.Node}
    (h : isGate gate = true) : gatedNode setting inert gate = gate := by
  have hfound := scanNode_gate setting.convert inert [] h
  exact gatedNode_eq_self (by rw [hfound]; exact noGroup_nil)

/-- The gates that are there declare their properties for `:root` with other
gates between them. -/
theorem mem_rootGateProperties_gatedNodes {setting : Setting} {inert : Bool}
    {nodes : List Css.Node} {property : Text}
    (h : property ∈ rootGateProperties nodes) :
    property ∈ rootGateProperties (gatedNodes setting inert nodes) := by
  induction nodes with
  | nil => exact h
  | cons node rest ih =>
    rw [rootGateProperties_cons, List.mem_append] at h
    rw [gatedNodes, rootGateProperties_cons, rootGateProperties_append,
      List.mem_append, List.mem_append]
    rcases h with h | h
    · left
      cases hgate : isGate node with
      | true => rwa [gatedNode_gate hgate]
      | false =>
        rw [gateProperties_of_not_isGate hgate] at h
        cases h
    · exact Or.inr (Or.inr (ih h))

/-- The gate for `:root` declares the properties of its items. -/
theorem mem_rootGateProperties_gateNode {layout : Css.Layout}
    {items : List Item} {item : Item} (h : item ∈ items) :
    item.property ∈
      rootGateProperties [gateNode layout rootSelector items] := by
  have hgate : isGateHead (.atRule gateName condition true) = true :=
    isGate_gateNode layout rootSelector items
  have hproperties : rootGateProperties [gateNode layout rootSelector items] =
      items.map Item.property := by
    simp [rootGateProperties, gateNode, hgate, Css.Node.selector?,
      Css.Node.children, List.filterMap_map, Function.comp_def, itemNode]
  rw [hproperties]
  exact List.mem_map_of_mem h

/-! ## The second insertion -/

/-- The gate for `:root` is no item, and nothing is found in it. -/
theorem rootGate_cases (convert : Converter) (unit : Text) (found : Scan) :
    scanNodes convert false (rootGate? unit found).toList = [] ∧
      itemsOf convert (rootGate? unit found).toList = [] ∧
      failuresOf convert (rootGate? unit found).toList = [] := by
  rw [rootGate?]
  split
  · exact ⟨rfl, rfl, rfl⟩
  · rw [Option.toList_some, scanNodes,
      scanNode_gate convert false [] (isGate_gateNode _ _ _)]
    exact ⟨rfl, rfl, rfl⟩

section Again

variable (convert : Converter) (unit : Text) (document : Css.Document)

/-- A second scan finds the same top-level items and failures. -/
theorem top_insertGates :
    itemsOf convert (insertGates convert unit document).document.children =
        itemsOf convert document.children ∧
      failuresOf convert (insertGates convert unit document).document.children =
        failuresOf convert document.children := by
  obtain ⟨_, hitems, hfailures⟩ :=
    rootGate_cases convert unit (scan convert document)
  have hgated := itemsOf_gatedNodes convert ⟨document.source, convert, unit⟩
    false document.children
  have hfailed :=
    failuresOf_gatedNodes convert ⟨document.source, convert, unit⟩ false
      document.children
  rw [itemsOf] at hitems hgated
  rw [failuresOf] at hfailures hfailed
  rw [insertGates]
  dsimp only
  rw [itemsOf, failuresOf, List.filterMap_append, List.filterMap_append, hitems,
    hgated, hfailures, hfailed, List.append_nil, List.append_nil]
  exact ⟨rfl, rfl⟩

/-- A second scan finds the same in the rules. -/
theorem map_found_insertGates :
    (scanNodes convert false
      (insertGates convert unit document).document.children).map
        RuleScan.found =
      (scanNodes convert false document.children).map RuleScan.found :=
  map_found_gatedNodes convert _ false _ (rootGate_cases convert unit _).1
    document.children

/-- After an insertion no rule gets a gate. -/
theorem noGroup_insertGates :
    NoGroup (scanNodes convert false
      (insertGates convert unit document).document.children) := by
  obtain ⟨setting, hsetting⟩ : ∃ setting : Setting,
      setting = ⟨document.source, convert, unit⟩ :=
    ⟨_, rfl⟩
  have hconvert : setting.convert = convert := by rw [hsetting]
  rw [insertGates, ← hsetting, ← hconvert]
  exact noGroup_gatedNodes _ (rootGate_cases _ unit _).1

/-- After an insertion, gates declare the property of every top-level item. -/
theorem rootGate?_insertGates (again : Text) :
    rootGate? again
      (scan convert (insertGates convert unit document).document) = none := by
  rw [rootGate?_eq_none_iff, (top_insertGates convert unit document).1]
  intro item hitem
  rw [insertGates]
  dsimp only
  rw [rootGateProperties_append, List.mem_append]
  cases hgate : rootGate? unit (scan convert document) with
  | none =>
    rw [rootGate?_eq_none_iff] at hgate
    exact Or.inl (mem_rootGateProperties_gatedNodes (hgate item hitem))
  | some gate =>
    rw [rootGate?] at hgate
    split at hgate
    · cases hgate
    · obtain rfl := Option.some.inj hgate
      exact Or.inr (mem_rootGateProperties_gateNode hitem)

/-- An insertion that changed something leaves rules that are paired, or
top-level items that are. -/
theorem paired_of_changed
    (h : (insertGates convert unit document).changed = true) :
    (scan convert (insertGates convert unit document).document).skipped ≠ [] ∨
      (scan convert (insertGates convert unit document).document).rootPaired =
        true := by
  have hgroups := rulesConverted_eq_zero_iff convert unit document
  have hroots := rootColorsConverted_eq_zero_iff convert unit document
  rw [Insertion.changed, Bool.or_eq_true, decide_eq_true_iff,
    decide_eq_true_iff] at h
  rcases h with h | h
  · left
    -- A rule that got a gate is found again, and is now paired.
    rw [ne_eq, hgroups, NoGroup] at h
    obtain ⟨rule, h⟩ := Classical.not_forall.mp h
    obtain ⟨hrule, hgroup⟩ := Classical.not_imp.mp h
    have hfound : rule.found ∈ (scanNodes convert false
        (insertGates convert unit document).document.children).map
          RuleScan.found := by
      rw [map_found_insertGates]
      exact List.mem_map_of_mem hrule
    obtain ⟨second, hsecond, heq⟩ := List.mem_map.mp hfound
    have hitems : second.items = rule.items :=
      congrArg (fun found => found.2.1) heq
    have hnone := noGroup_insertGates convert unit document second hsecond
    rw [RuleScan.isGroup, hitems] at hnone
    have hskipped : second.isSkipped = true := by
      rw [Bool.not_eq_false, RuleScan.isGroup, Bool.and_eq_true] at hgroup
      rw [hgroup.1, Bool.true_and, Bool.not_eq_false'] at hnone
      rw [RuleScan.isSkipped, hitems, hgroup.1, hnone]
      rfl
    exact List.ne_nil_of_mem
      (List.mem_map_of_mem (List.mem_filter.mpr ⟨hsecond, hskipped⟩))
  · right
    have hsome : (scan convert document).rootItems.isEmpty = false := by
      refine Bool.eq_false_iff.mpr fun hempty => ?_
      rw [ne_eq, hroots, rootGate?, hempty, Bool.true_or, if_pos rfl] at h
      exact h rfl
    have hagain := rootGate?_insertGates convert unit document unit
    have hitems :
      (scan convert (insertGates convert unit document).document).rootItems =
        (scan convert document).rootItems :=
          (top_insertGates convert unit document).1
    rw [rootGate?, hitems, hsome, Bool.false_or] at hagain
    split at hagain
    · assumption
    · cases hagain

end Again

/-- A second insertion into a document left it as the first one did, and
reported so. -/
structure Insertion.RepeatedBy (first second : Insertion) : Prop where
  /-- No node is added. -/
  document : second.document = first.document
  output : second.output = first.output
  changed : second.changed = false
  rulesConverted : second.rulesConverted = 0
  colorsConverted : second.colorsConverted = 0
  rootColorsConverted : second.rootColorsConverted = 0
  failures : second.failures = first.failures
  alreadyProcessed : first.changed = true → second.alreadyProcessed = true

/-- Whatever a document was read from and whatever edits were made to it, a
second insertion of gates changes nothing. -/
theorem insertGates_again (convert : Converter) (unit again : Text)
    (document : Css.Document) :
    (insertGates convert unit document).RepeatedBy
      (insertGates convert again
        (insertGates convert unit document).document) := by
  obtain ⟨first, hfirst⟩ :
      ∃ first, first = (insertGates convert unit document).document :=
    ⟨_, rfl⟩
  have hrules : NoGroup (scanNodes convert false first.children) :=
    hfirst ▸ noGroup_insertGates convert unit document
  have hroot : rootGate? again (scan convert first) = none :=
    hfirst ▸ rootGate?_insertGates convert unit document again
  have hdocument := insertGates_eq_self again hrules hroot
  have hrulesZero := (rulesConverted_eq_zero_iff convert again first).mpr hrules
  have hrootZero :=
    (rootColorsConverted_eq_zero_iff convert again first).mpr hroot
  have hgroups : (scan convert first).groups = [] :=
    List.length_eq_zero_iff.mp hrulesZero
  rw [← hfirst]
  refine ⟨hdocument.trans hfirst, ?_, ?_, hrulesZero, ?_, hrootZero, ?_,
    fun hchanged => ?_⟩
  · rw [Insertion.output, Insertion.output, hdocument, hfirst]
  · rw [Insertion.changed, hrulesZero, hrootZero]
    rfl
  · have hcolors : (insertGates convert again first).colorsConverted =
        (scan convert first).groupItems +
          (insertGates convert again first).rootColorsConverted :=
      rfl
    rw [hcolors, hrootZero, Scan.groupItems, hgroups]
    rfl
  · have hfailures : ∀ rules : List RuleScan, rules.flatMap RuleScan.failures =
        (rules.map RuleScan.found).flatMap fun found => found.2.2 := by
      intro rules
      rw [List.flatMap_map]
      rfl
    show (scan convert first).failures = (scan convert document).failures
    rw [Scan.failures, Scan.failures, scan, scan]
    dsimp only
    rw [hfailures, hfailures, hfirst, map_found_insertGates,
      (top_insertGates convert unit document).2]
  · have hpaired := paired_of_changed convert unit document hchanged
    rw [← hfirst] at hpaired
    have hprocessed : (insertGates convert again first).alreadyProcessed =
        (decide ((insertGates convert again first).rulesConverted = 0) &&
          decide ((insertGates convert again first).rootColorsConverted = 0) &&
          (!(scan convert first).skipped.isEmpty ||
            (scan convert first).rootPaired)) := rfl
    rw [hprocessed, hrulesZero, hrootZero]
    rcases hpaired with hskipped | hpaired
    · simp [hskipped]
    · simp [hpaired]

end OklchGate.Gate
