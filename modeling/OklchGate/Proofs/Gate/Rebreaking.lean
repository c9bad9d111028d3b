import OklchGate.Proofs.Css.Rebreaking
import OklchGate.Proofs.Gate.Grouping
import OklchGate.Proofs.Gate.Roots

/-!
# Inserting gates into a style sheet with other line breaks

The scan of a style sheet does not depend on how its lines are broken, and
neither does the layout of a gate.  The text of a gate does when the gate copies
a line break from the source, because the LF of a CR LF that is copied is
written as one more CR LF.

There are five groups.

* The scan: `sitesOf_rebreak` and `scan_rebreak`.  The texts that a scan
  compares hold no CR, and such texts are told apart with other breaks as with
  LF.
* The text of a gate: `ruleLayout_rebreak` for its layout, and
  `length_gateLines_rebreak` for the LF that it copies.
* `inserts`, the gates that are put into a document, and `weave_rebreak_iff`.
* `CopiesNoBreak`: no generated node copies a line feed.
* `transform_rebreak`, the two runs compared.
-/

namespace OklchGate.Gate

open Css (Node)

variable {mark source : Text}

/-! ## The scan -/

/-- An item of a style sheet with other breaks. -/
def Item.rebreak (mark : Text) (item : Item) : Item :=
  ⟨mark.rebreak item.property, mark.rebreak item.value, item.oklch,
    item.important⟩

/-- The scan of a rule of a style sheet with other breaks. -/
def RuleScan.rebreak (mark : Text) (rule : RuleScan) : RuleScan :=
  ⟨mark.rebreak rule.selector, rule.items.map (Item.rebreak mark),
    rule.failures.map mark.rebreak, rule.paired⟩

/-- A site of a style sheet with other breaks. -/
def Site.rebreak (mark source : Text) (site : Site) : Site :=
  ⟨site.rule.rebreak mark source, site.scan.rebreak mark⟩

/-- The scan of a style sheet with other breaks. -/
def Scan.rebreak (mark : Text) (scan : Scan) : Scan :=
  ⟨scan.rules.map (RuleScan.rebreak mark),
    scan.rootItems.map (Item.rebreak mark),
    scan.rootFailures.map mark.rebreak, scan.rootPaired⟩

theorem isGroup_rebreak (rule : RuleScan) :
    (rule.rebreak mark).isGroup = rule.isGroup := by
  show (!(rule.items.map (Item.rebreak mark)).isEmpty && !rule.paired) = _
  rw [List.isEmpty_map]
  rfl

theorem isSkipped_rebreak (rule : RuleScan) :
    (rule.rebreak mark).isSkipped = rule.isSkipped := by
  show (!(rule.items.map (Item.rebreak mark)).isEmpty && rule.paired) = _
  rw [List.isEmpty_map]
  rfl

namespace Scan

theorem groups_rebreak (scan : Scan) :
    (scan.rebreak mark).groups = scan.groups.map (RuleScan.rebreak mark) := by
  rw [groups, groups, rebreak, List.filter_map]
  simp only [Function.comp_def, isGroup_rebreak]

theorem skipped_rebreak (scan : Scan) :
    (scan.rebreak mark).skipped = scan.skipped.map mark.rebreak := by
  rw [skipped, skipped, rebreak, List.filter_map, List.map_map, List.map_map]
  simp only [Function.comp_def, isSkipped_rebreak]
  rfl

theorem failures_rebreak (scan : Scan) :
    (scan.rebreak mark).failures = scan.failures.map mark.rebreak := by
  rw [failures, failures, rebreak, List.flatMap_map, List.map_append,
    List.map_flatMap]
  rfl

theorem groupItems_rebreak (scan : Scan) :
    (scan.rebreak mark).groupItems = scan.groupItems := by
  rw [groupItems, groupItems, groups_rebreak, List.flatMap_map,
    List.length_flatMap, List.length_flatMap]
  simp only [RuleScan.rebreak, List.length_map]

end Scan

/-- A hex color without blanks around it holds no break. -/
theorem not_mem_of_isHexColor {value : Text} (htrim : value.trim = value)
    (h : isHexColor value = true) : '\n' ∉ value := by
  rw [isHexColor, htrim] at h
  cases value with
  | nil => cases h
  | cons c digits =>
    by_cases hc : c = '#'
    · subst hc
      have h : (digits.all isHexDigit && [3, 4, 6, 8].contains digits.length) =
          true := h
      rw [Bool.and_eq_true] at h
      intro hmem
      rcases List.mem_cons.mp hmem with hmem | hmem
      · exact absurd hmem (by decide)
      · exact absurd (List.all_eq_true.mp h.1 _ hmem) (by decide)
    · split at h
      · rename_i heq
        exact absurd (List.cons.inj heq).1 hc
      · cases h

/-- A declaration converts in the same way however its lines are broken. -/
theorem reading?_rebreak (source : Text) (hmark : Text.Style mark)
    (convert : Converter) {node : Node} (h : node.Plain) :
    reading? convert (node.rebreak mark source) =
      (reading? convert node).map fun reading =>
        (reading.map (Item.rebreak mark)).mapError mark.rebreak := by
  cases node with
  | container origin content head children => rfl
  | leaf origin item =>
    cases item with
    | comment text => rfl
    | statement text => rfl
    | declaration property value important =>
      show reading? convert
        (.leaf _ (.declaration (mark.rebreak property) (mark.rebreak value)
          important)) = _
      rw [reading?, reading?, Text.isHexColor_rebreak hmark.isBreak]
      by_cases hhex : isHexColor value = true
      · have hvalue : mark.rebreak value = value :=
          Text.rebreak_eq_self mark (not_mem_of_isHexColor h.2.2 hhex)
        rw [if_pos hhex, if_pos hhex, hvalue]
        cases convert value with
        | some oklch =>
          show _ = some (Except.ok (Item.rebreak mark _))
          rw [Item.rebreak, hvalue]
        | none =>
          show _ =
            some (Except.error (mark.rebreak (failureText property value)))
          rw [failureText, failureText, Text.rebreak_append,
            Text.rebreak_append, hvalue]
          rfl
      · rw [if_neg hhex, if_neg hhex]
        rfl

theorem itemsOf_rebreak (hmark : Text.Style mark) (convert : Converter)
    {nodes : List Node} (h : ∀ node ∈ nodes, node.Plain) :
    itemsOf convert (Css.rebreakNodes mark source nodes) =
      (itemsOf convert nodes).map (Item.rebreak mark) := by
  induction nodes with
  | nil => rfl
  | cons node rest ih =>
    have hnode :=
      reading?_rebreak source hmark convert (h node List.mem_cons_self)
    have hrest := ih fun other hother => h other (List.mem_cons_of_mem _ hother)
    rw [itemsOf] at hrest ⊢
    rw [Css.rebreakNodes, List.filterMap_cons, hnode, hrest, itemsOf, itemsOf,
      List.filterMap_cons]
    cases reading? convert node with
    | none => rfl
    | some reading => cases reading <;> rfl

theorem failuresOf_rebreak (hmark : Text.Style mark) (convert : Converter)
    {nodes : List Node} (h : ∀ node ∈ nodes, node.Plain) :
    failuresOf convert (Css.rebreakNodes mark source nodes) =
      (failuresOf convert nodes).map mark.rebreak := by
  induction nodes with
  | nil => rfl
  | cons node rest ih =>
    have hnode :=
      reading?_rebreak source hmark convert (h node List.mem_cons_self)
    have hrest := ih fun other hother => h other (List.mem_cons_of_mem _ hother)
    rw [failuresOf] at hrest ⊢
    rw [Css.rebreakNodes, List.filterMap_cons, hnode, hrest, failuresOf,
      failuresOf, List.filterMap_cons]
    cases reading? convert node with
    | none => rfl
    | some reading => cases reading <;> rfl

/-- What is known of nodes is known of a node among them and of its children. -/
theorem plain_cons {node : Node} {rest : List Node}
    (h : ∀ other ∈ Css.walk (node :: rest), other.Plain) :
    node.Plain ∧ (∀ other ∈ Css.walk node.children, other.Plain) ∧
      ∀ other ∈ Css.walk rest, other.Plain := by
  rw [Css.walk_cons] at h
  simpa [or_imp, forall_and] using h

theorem plain_of_walk {nodes : List Node}
    (h : ∀ node ∈ Css.walk nodes, node.Plain) :
    ∀ node ∈ nodes, node.Plain :=
  fun node hnode => h node (Css.mem_walk hnode)

theorem plain_children {nodes : List Node}
    (h : ∀ node ∈ Css.walk nodes, node.Plain) {node : Node}
    (hnode : node ∈ nodes) : ∀ child ∈ Css.walk node.children, child.Plain :=
  fun child hchild =>
    h child ((Css.sublist_walk_of_mem (Css.mem_walk hnode)).subset hchild)

theorem selector?_rebreak (node : Node) :
    (node.rebreak mark source).selector? = node.selector?.map mark.rebreak := by
  cases node with
  | leaf origin item => rfl
  | container origin content head children => cases head <;> rfl

theorem isGateHead_rebreak (mark : Text) (head : Css.Head) :
    isGateHead (head.rebreak mark) = isGateHead head := by
  cases head <;> rfl

theorem isInert_rebreak (mark : Text) (head : Css.Head) :
    isInert (head.rebreak mark) = isInert head := by
  cases head <;> rfl

theorem opensBlock_rebreak (mark : Text) (head : Css.Head) :
    (head.rebreak mark).opensBlock = head.opensBlock := by
  cases head <;> rfl

theorem children_rebreak (node : Node) :
    (node.rebreak mark source).children =
      Css.rebreakNodes mark source node.children := by
  cases node <;> rfl

/-- What is collected from nodes, when the breaks in it are those of the
node. -/
theorem filterMap_rebreakNodes {collect : Node → Option Text}
    (h : ∀ node, collect (node.rebreak mark source) =
      (collect node).map mark.rebreak)
    (nodes : List Node) :
    (Css.rebreakNodes mark source nodes).filterMap collect =
      (nodes.filterMap collect).map mark.rebreak := by
  rw [Css.rebreakNodes_eq_map, List.filterMap_map, List.map_filterMap]
  congr 1
  funext node
  exact h node

theorem gateSelectors_rebreak (node : Node) :
    gateSelectors (node.rebreak mark source) =
      (gateSelectors node).map mark.rebreak := by
  cases node with
  | leaf origin item => rfl
  | container origin content head children =>
    rw [Node.rebreak, gateSelectors, gateSelectors, isGateHead_rebreak,
      opensBlock_rebreak, filterMap_rebreakNodes selector?_rebreak]
    split <;> rfl

/-- The selectors in a gate hold no CR. -/
theorem not_mem_gateSelectors {node : Node}
    (h : ∀ child ∈ Css.walk node.children, child.Plain) :
    ∀ selector ∈ gateSelectors node, '\r' ∉ selector := by
  intro selector hselector
  cases node with
  | leaf origin item => cases hselector
  | container origin content head children =>
    rw [gateSelectors] at hselector
    split at hselector
    · obtain ⟨child, hchild, hhead⟩ := List.mem_filterMap.mp hselector
      have hplain := plain_of_walk h child hchild
      cases child with
      | leaf => cases hhead
      | container origin content head children =>
        cases head with
        | rule own =>
          cases hhead
          exact hplain
        | atRule => cases hhead
    · cases hselector

theorem contains_rebreak (hmark : Text.Style mark) {texts : List Text}
    {text : Text} (htext : '\r' ∉ text)
    (htexts : ∀ other ∈ texts, '\r' ∉ other) :
    (texts.map mark.rebreak).contains (mark.rebreak text) =
      texts.contains text := by
  rw [Bool.eq_iff_iff, List.contains_iff_mem, List.contains_iff_mem,
    List.mem_map]
  constructor
  · rintro ⟨other, hother, heq⟩
    rw [Text.rebreak_inj hmark (htexts other hother) htext] at heq
    rwa [← heq]
  · intro h
    exact ⟨text, h, rfl⟩

/-- Whether a rule is paired does not depend on how lines are broken. -/
theorem isPaired_rebreak (hmark : Text.Style mark) {selector : Text}
    {following : List Node} (hselector : '\r' ∉ selector)
    (h : ∀ node ∈ Css.walk following, node.Plain) :
    isPaired (mark.rebreak selector) (Css.rebreakNodes mark source following) =
      isPaired selector following := by
  have hcomment : ∀ node : Node, (node.rebreak mark source).isComment =
      node.isComment := by
    intro node
    cases node with
    | leaf origin item => cases item <;> rfl
    | container => rfl
  rw [isPaired, isPaired, Css.firstSignificant?, Css.firstSignificant?]
  induction following with
  | nil => rfl
  | cons node rest ih =>
    obtain ⟨_, hchildren, hrest⟩ := plain_cons h
    rw [Css.rebreakNodes, List.find?_cons, List.find?_cons, hcomment]
    cases node.isComment with
    | true => exact ih hrest
    | false =>
      show (gateSelectors (node.rebreak mark source)).contains _ = _
      rw [gateSelectors_rebreak,
        contains_rebreak hmark hselector (not_mem_gateSelectors hchildren)]
      rfl

theorem scanHead?_rebreak (hmark : Text.Style mark) (convert : Converter)
    (inert : Bool) {head : Css.Head} {children following : List Node}
    (hhead : Node.Plain (.container (.generated {}) none head children))
    (hchildren : ∀ node ∈ Css.walk children, node.Plain)
    (hfollowing : ∀ node ∈ Css.walk following, node.Plain) :
    scanHead? convert inert (head.rebreak mark)
      (Css.rebreakNodes mark source children)
        (Css.rebreakNodes mark source following) =
      (scanHead? convert inert head children following).map
        (RuleScan.rebreak mark) := by
  cases head with
  | atRule name params hasBlock => rfl
  | rule selector =>
    have hplain := plain_of_walk hchildren
    rw [Css.Head.rebreak, scanHead?, scanHead?]
    split
    · rfl
    · rw [RuleScan.ofRule, itemsOf_rebreak hmark convert hplain,
        failuresOf_rebreak hmark convert hplain,
        isPaired_rebreak hmark hhead hfollowing]
      rfl

mutual

theorem sitesIn_rebreak (hmark : Text.Style mark) (convert : Converter)
    (inert : Bool) {node : Node} {following : List Node}
    (h : ∀ other ∈ Css.walk (node :: following), other.Plain) :
    sitesIn convert inert (Css.rebreakNodes mark source following)
      (node.rebreak mark source) =
      (sitesIn convert inert following node).map
        (Site.rebreak mark source) := by
  obtain ⟨hnode, hchildren, hfollowing⟩ := plain_cons h
  cases node with
  | leaf origin item => rfl
  | container origin content head children =>
    have hhead : Node.Plain
        (.container (.generated {}) none head children) := by
      cases head <;> exact hnode
    have hchildren : ∀ other ∈ Css.walk children, other.Plain := hchildren
    rw [Node.rebreak, sitesIn, sitesIn,
      scanHead?_rebreak hmark convert inert hhead hchildren hfollowing,
      isInert_rebreak, sitesOf_rebreak hmark convert _ hchildren,
      List.map_append]
    cases scanHead? convert inert head children following <;> rfl

/-- The eligible rules do not depend on how lines are broken. -/
theorem sitesOf_rebreak (hmark : Text.Style mark) (convert : Converter)
    (inert : Bool) {nodes : List Node}
    (h : ∀ node ∈ Css.walk nodes, node.Plain) :
    sitesOf convert inert (Css.rebreakNodes mark source nodes) =
      (sitesOf convert inert nodes).map (Site.rebreak mark source) := by
  cases nodes with
  | nil => rfl
  | cons node rest =>
    rw [Css.rebreakNodes, sitesOf, sitesOf,
      sitesIn_rebreak hmark convert inert h,
      sitesOf_rebreak hmark convert inert (plain_cons h).2.2, List.map_append]

end

theorem eq_of_rebreak (hmark : Text.Style mark) {text fixed : Text}
    (htext : '\r' ∉ text) (hcr : '\r' ∉ fixed) (hlf : '\n' ∉ fixed) :
    mark.rebreak text = fixed ↔ text = fixed := by
  have h := Text.rebreak_inj hmark htext hcr
  rwa [Text.rebreak_eq_self mark hlf] at h

theorem property?_rebreak (node : Node) :
    property? (node.rebreak mark source) =
      (property? node).map mark.rebreak := by
  cases node with
  | leaf origin item => cases item <;> rfl
  | container => rfl

/-- The properties in gates hold no CR. -/
theorem not_mem_property? {node : Node} (h : node.Plain) :
    ∀ property ∈ property? node, '\r' ∉ property := by
  intro property hproperty
  cases node with
  | container => cases hproperty
  | leaf origin item =>
    cases item with
    | comment => cases hproperty
    | statement => cases hproperty
    | declaration own value important =>
      cases hproperty
      exact h.1

theorem isRoot_rebreak (hmark : Text.Style mark) {node : Node}
    (h : node.Plain) :
    (node.rebreak mark source).selector? = some rootSelector ↔
      node.selector? = some rootSelector := by
  rw [selector?_rebreak]
  cases node with
  | leaf => simp [Node.selector?]
  | container origin content head children =>
    cases head with
    | atRule => simp [Node.selector?]
    | rule selector =>
      simp only [Node.selector?, Option.map_some, Option.some.injEq]
      exact eq_of_rebreak hmark h (by decide) (by decide)

theorem rootProperties_rebreak (hmark : Text.Style mark) {child : Node}
    (h : child.Plain) :
    rootProperties (child.rebreak mark source) =
      (rootProperties child).map mark.rebreak := by
  have hroot : (child.rebreak mark source).selector? = some rootSelector ↔
      child.selector? = some rootSelector := isRoot_rebreak hmark h
  rw [rootProperties, rootProperties]
  by_cases hselector : child.selector? = some rootSelector
  · rw [if_pos hselector, if_pos (hroot.mpr hselector), children_rebreak]
    exact filterMap_rebreakNodes property?_rebreak child.children
  · rw [if_neg hselector, if_neg (mt hroot.mp hselector), List.map_nil]

theorem gateProperties_rebreak (hmark : Text.Style mark) {node : Node}
    (h : node.Plain) (hchildren : ∀ child ∈ node.children, child.Plain) :
    gateProperties (node.rebreak mark source) =
      (gateProperties node).map mark.rebreak := by
  cases node with
  | leaf => rfl
  | container origin content head children =>
    cases head with
    | rule => rfl
    | atRule name params hasBlock =>
      have hcondition : mark.rebreak params = condition ↔ params = condition :=
        eq_of_rebreak hmark h (by decide) (by decide)
      have hgate := isGateHead_rebreak mark (.atRule name params hasBlock)
      rw [Css.Head.rebreak] at hgate
      rw [Node.rebreak, Css.Head.rebreak, gateProperties, gateProperties, hgate]
      simp only [hcondition]
      split
      · rw [Css.rebreakNodes_eq_map, List.flatMap_map, List.map_flatMap,
          List.flatMap_def, List.flatMap_def]
        exact congrArg List.flatten (List.map_congr_left fun child hchild =>
          rootProperties_rebreak hmark (hchildren child hchild))
      · rfl

/-- The properties that gates declare for `:root`. -/
theorem rootGateProperties_rebreak (hmark : Text.Style mark) {nodes : List Node}
    (h : ∀ node ∈ Css.walk nodes, node.Plain) :
    rootGateProperties (Css.rebreakNodes mark source nodes) =
      (rootGateProperties nodes).map mark.rebreak := by
  induction nodes with
  | nil => rfl
  | cons node rest ih =>
    obtain ⟨hnode, hchildren, hrest⟩ := plain_cons h
    rw [Css.rebreakNodes, rootGateProperties_cons, rootGateProperties_cons,
      List.map_append,
      gateProperties_rebreak hmark hnode (plain_of_walk hchildren), ih hrest]

/-- The properties of items hold no CR. -/
theorem not_mem_itemsOf (convert : Converter) {nodes : List Node}
    (h : ∀ node ∈ nodes, node.Plain) :
    ∀ item ∈ itemsOf convert nodes, '\r' ∉ item.property := by
  intro item hitem
  rw [itemsOf, List.mem_filterMap] at hitem
  obtain ⟨node, hnode, hitem⟩ := hitem
  have hplain := h node hnode
  cases node with
  | container => cases hitem
  | leaf origin own =>
    cases own with
    | comment => cases hitem
    | statement => cases hitem
    | declaration property value important =>
      rw [reading?] at hitem
      split at hitem
      · rename_i reading hreading
        obtain rfl := Option.some.inj hitem
        split at hreading
        · split at hreading
          · cases hreading
            exact hplain.1
          · cases hreading
        · cases hreading
      · cases hitem

/-- The properties that gates declare for `:root` hold no CR. -/
theorem not_mem_rootGateProperties {nodes : List Node}
    (h : ∀ node ∈ Css.walk nodes, node.Plain) :
    ∀ property ∈ rootGateProperties nodes, '\r' ∉ property := by
  intro property hproperty
  rw [rootGateProperties_eq, List.mem_flatMap] at hproperty
  obtain ⟨node, hnode, hproperty⟩ := hproperty
  obtain ⟨child, hchild, hproperty⟩ := exists_of_mem_gateProperties hproperty
  obtain ⟨declaration, hdeclaration, hproperty⟩ :=
    exists_of_mem_rootProperties hproperty
  have hplain :=
    plain_of_walk (plain_children (plain_children h hnode) hchild) declaration
    hdeclaration
  exact not_mem_property? hplain property hproperty

/-- The scan of a style sheet does not depend on how its lines are broken. -/
theorem scan_rebreak (source : Text) (hmark : Text.Style mark)
    (convert : Converter) {children : List Node}
    (h : ∀ node ∈ Css.walk children, node.Plain) :
    scan convert ⟨mark.rebreak source, Css.rebreakNodes mark source children⟩ =
      (scan convert ⟨source, children⟩).rebreak mark := by
  have hplain := plain_of_walk h
  have hrules : scanNodes convert false
    (Css.rebreakNodes mark source children) =
      (scanNodes convert false children).map (RuleScan.rebreak mark) := by
    rw [← map_scan_sitesOf, ← map_scan_sitesOf,
      sitesOf_rebreak hmark convert false h, List.map_map, List.map_map]
    rfl
  have hitems := not_mem_itemsOf convert hplain
  have hproperties := not_mem_rootGateProperties h
  have hpaired : ((itemsOf convert children).map (Item.rebreak mark)).all
      (fun item => ((rootGateProperties children).map mark.rebreak).contains
        item.property) =
      (itemsOf convert children).all fun item =>
        (rootGateProperties children).contains item.property := by
    rw [List.all_map, Bool.eq_iff_iff, List.all_eq_true, List.all_eq_true]
    refine forall₂_congr fun item hitem => ?_
    rw [← contains_rebreak hmark (hitems item hitem) hproperties]
    rfl
  rw [scan, scan, Scan.rebreak]
  simp only [hrules, itemsOf_rebreak hmark convert hplain,
    failuresOf_rebreak hmark convert hplain, rootGateProperties_rebreak hmark h,
    hpaired, List.isEmpty_map]

/-! ## The text of a gate -/

theorem span?_rebreak (node : Node) :
    (node.rebreak mark source).span? =
      node.span?.map (Css.Span.rebreak mark source) := by
  cases node with
  | leaf origin item => cases origin <;> rfl
  | container origin content head children => cases origin <;> rfl

theorem nodeIndent_rebreak (hmark : Text.IsBreak mark) (node : Node) :
    nodeIndent (mark.rebreak source) (node.rebreak mark source) =
      nodeIndent source node := by
  have hstart :
    (((node.span?.map (Css.Span.rebreak mark source)).map Css.Span.start).getD
      (mark.rebreak source).length) =
      mark.stretch source
        ((node.span?.map Css.Span.start).getD source.length) := by
    cases node.span? with
    | none => exact (Text.stretch_length mark source).symm
    | some span => rfl
  rw [nodeIndent, nodeIndent, span?_rebreak, hstart,
    Text.lineIndent_rebreak hmark]

/-- A gate is laid out in the same way however lines are broken. -/
theorem ruleLayout_rebreak (hmark : Text.IsBreak mark) (unit : Text)
    (rule : Node) :
    ruleLayout (mark.rebreak source) unit (rule.rebreak mark source) =
      ruleLayout source unit rule := by
  have hdeclaration : ∀ node : Node,
      (node.rebreak mark source).isDeclaration = node.isDeclaration := by
    intro node
    cases node with
    | leaf origin item => cases item <;> rfl
    | container => rfl
  have hchildren : (rule.rebreak mark source).children =
      Css.rebreakNodes mark source rule.children := by
    cases rule <;> rfl
  rw [ruleLayout, ruleLayout, nodeIndent_rebreak hmark, hchildren, indentUnit,
    indentUnit, Css.rebreakNodes_eq_map, List.findSome?_map]
  simp only [Function.comp_def, nodeIndent_rebreak hmark, hdeclaration]

theorem stopOf_rebreak (node : Node) :
    stopOf (node.rebreak mark source) = mark.stretch source (stopOf node) := by
  rw [stopOf, stopOf, span?_rebreak]
  cases node.span? <;> rfl

/-- The lines of a gate before its line breaks are written in the style of the
source. -/
def gateLines (layout : Css.Layout) (selector : Text) (items : List Item) :
    Text :=
  layout.before ++ (gateNode layout selector items).render layout.indent
    layout.unit

theorem serialize_gateNode (source : Text) (layout : Css.Layout)
    (selector : Text) (items : List Item) :
    (gateNode layout selector items).serialize source =
      Text.rebreak (newlineStyle source) (gateLines layout selector items) :=
  rfl

/-- The text that a gate copies from the source: its selector and its
properties. -/
def copiedOf (selector : Text) (items : List Item) : Text :=
  selector ++ items.flatMap Item.property

theorem length_renderLines_rebreak (hmark : Text.Style mark)
    (indent unit : Text) (items : List Item) :
    (mark.rebreak (Css.renderLines indent unit
        ((items.map (Item.rebreak mark)).map itemNode))).length =
      (mark.rebreak (Css.renderLines indent unit (items.map itemNode))).length +
        (mark.length - 1) * (items.flatMap Item.property).count '\n' := by
  induction items with
  | nil => rfl
  | cons item rest ih =>
    have hproperty := Text.length_rebreak_rebreak hmark item.property
    simp only [List.map_cons, Css.renderLines, itemNode, Css.Node.render,
      Css.Leaf.render, Item.rebreak, Text.rebreak_break, Text.rebreak_append,
      List.length_append, List.flatMap_cons, List.count_append,
      Nat.mul_add] at ih ⊢
    omega

/-- A gate that is printed for a source with other breaks is longer by the LF in
each break that it copies. -/
theorem length_gateLines_rebreak (hmark : Text.Style mark) (layout : Css.Layout)
    (selector : Text) (items : List Item) :
    (mark.rebreak (gateLines layout (mark.rebreak selector)
        (items.map (Item.rebreak mark)))).length =
      (mark.rebreak (gateLines layout selector items)).length +
        (mark.length - 1) * (copiedOf selector items).count '\n' := by
  have hselector := Text.length_rebreak_rebreak hmark selector
  have hitems := length_renderLines_rebreak hmark
    (layout.indent ++ layout.unit ++ layout.unit) layout.unit items
  simp only [gateLines, gateNode, Css.Node.render, Css.renderLines,
    Css.Head.render, Css.Head.opensBlock, if_true, Text.rebreak_append,
    Text.rebreak_break, List.append_nil, List.length_append, copiedOf,
    List.count_append, Nat.mul_add] at hitems ⊢
  omega

/-- A gate that copies no LF is printed with the breaks of the source. -/
theorem gateLines_rebreak (layout : Css.Layout) {selector : Text}
    {items : List Item} (h : mark = ['\r'] ∨ '\n' ∉ copiedOf selector items) :
    mark.rebreak (gateLines layout (mark.rebreak selector)
      (items.map (Item.rebreak mark))) =
      mark.rebreak (gateLines layout selector items) := by
  have hselector : mark.rebreak (mark.rebreak selector) =
      mark.rebreak selector := by
    refine Text.rebreak_rebreak (h.imp id fun h hmem => h ?_)
    exact List.mem_append_left _ hmem
  have hitems : ∀ indent unit : Text, mark.rebreak (Css.renderLines indent unit
        ((items.map (Item.rebreak mark)).map itemNode)) =
      mark.rebreak (Css.renderLines indent unit (items.map itemNode)) := by
    intro indent unit
    have hproperties : ∀ item ∈ items,
        mark.rebreak (mark.rebreak item.property) =
          mark.rebreak item.property := by
      intro item hitem
      refine Text.rebreak_rebreak (h.imp id fun h hmem => h ?_)
      exact List.mem_append_right _ (List.mem_flatMap.mpr ⟨item, hitem, hmem⟩)
    clear h
    induction items with
    | nil => rfl
    | cons item rest ih =>
      have hitem := hproperties item List.mem_cons_self
      have hrest := ih fun other hother =>
        hproperties other (List.mem_cons_of_mem _ hother)
      simp only [List.map_cons, Css.renderLines, itemNode, Css.Node.render,
        Css.Leaf.render, Item.rebreak, Text.rebreak_break, Text.rebreak_append,
        hitem] at hrest ⊢
      rw [hrest]
  simp only [gateLines, gateNode, Css.Node.render, Css.renderLines,
    Css.Head.render, Css.Head.opensBlock, if_true, Text.rebreak_append,
    Text.rebreak_break, List.append_nil, hselector, hitems]

/-! ## Patches -/

/-- A gate that is put in: where, how it is laid out, and what it is made
from. -/
structure Insert where
  offset : Nat
  layout : Css.Layout
  selector : Text
  items : List Item

namespace Insert

/-- The patch of a gate that is put into a style sheet. -/
def patch (source : Text) (gate : Insert) : Text.Patch :=
  ⟨gate.offset, (gateNode gate.layout gate.selector gate.items).serialize
    source⟩

/-- The gate that is put into the style sheet with other breaks. -/
def rebreak (mark source : Text) (gate : Insert) : Insert :=
  ⟨mark.stretch source gate.offset, gate.layout, mark.rebreak gate.selector,
    gate.items.map (Item.rebreak mark)⟩

/-- The text that some gates copy from the source. -/
def copied (gates : List Insert) : Text :=
  gates.flatMap fun gate => copiedOf gate.selector gate.items

end Insert

/-- The gates of rules that are put into a document. -/
def ruleInserts (setting : Setting) (sites : List Site) : List Insert :=
  (sites.filter fun site => site.scan.isGroup).map fun site =>
    ⟨stopOf site.rule, ruleLayout setting.source setting.unit site.rule,
      site.scan.selector, site.scan.items⟩

/-- The gate for `:root` that is put into a document, if there is one. -/
def rootInserts (unit : Text) (scan : Scan) (children : List Node) :
    List Insert :=
  if scan.rootItems.isEmpty || scan.rootPaired then []
  else [⟨stopOfLast children, { before := ['\n'], unit }, rootSelector,
    scan.rootItems⟩]

/-- The gates that are put into a document. -/
def inserts (convert : Converter) (unit : Text) (document : Css.Document) :
    List Insert :=
  ruleInserts ⟨document.source, convert, unit⟩
    (sitesOf convert false document.children) ++
    rootInserts unit (scan convert document) document.children

/-- The patches of a document are those of its gates. -/
theorem patches_eq_map (convert : Converter) (unit : Text)
    (document : Css.Document) :
    patches convert unit document =
      (inserts convert unit document).map (Insert.patch document.source) := by
  have hroot : (rootPatch? unit convert document).toList =
      (rootInserts unit (scan convert document) document.children).map
        (Insert.patch document.source) := by
    rw [rootPatch?, rootGate?, rootInserts]
    split <;> rfl
  rw [patches, inserts, List.map_append, hroot, sitePatches, ruleInserts,
    List.map_map]
  rfl

/-- The gates that are put into the style sheet with other breaks. -/
theorem inserts_rebreak (source : Text) (hmark : Text.Style mark)
    (convert : Converter) (unit : Text) {children : List Node}
    (h : ∀ node ∈ Css.walk children, node.Plain) :
    inserts convert unit ⟨mark.rebreak source,
      Css.rebreakNodes mark source children⟩ =
      (inserts convert unit ⟨source, children⟩).map
        (Insert.rebreak mark source) := by
  have hrules : ruleInserts ⟨mark.rebreak source, convert, unit⟩
        ((sitesOf convert false children).map (Site.rebreak mark source)) =
      (ruleInserts ⟨source, convert, unit⟩ (sitesOf convert false children)).map
        (Insert.rebreak mark source) := by
    rw [ruleInserts, ruleInserts, List.filter_map, List.map_map, List.map_map]
    simp only [Function.comp_def, isGroup_rebreak, Site.rebreak, stopOf_rebreak,
      ruleLayout_rebreak hmark.isBreak]
    rfl
  have hlast : stopOfLast (Css.rebreakNodes mark source children) =
      mark.stretch source (stopOfLast children) := by
    rw [stopOfLast, stopOfLast, Css.rebreakNodes_eq_map, List.getLast?_map]
    cases children.getLast? with
    | none => rfl
    | some last => exact stopOf_rebreak last
  have hroot : ∀ scan : Scan,
      rootInserts unit (scan.rebreak mark)
        (Css.rebreakNodes mark source children) =
        (rootInserts unit scan children).map (Insert.rebreak mark source) := by
    intro scan
    have hselector : mark.rebreak rootSelector = rootSelector :=
      Text.rebreak_eq_self mark (by decide)
    rw [rootInserts, rootInserts, hlast]
    show (if (scan.rootItems.map (Item.rebreak mark)).isEmpty ||
      scan.rootPaired then _ else _) = _
    rw [List.isEmpty_map]
    split
    · rfl
    · rw [List.map_singleton, Insert.rebreak, hselector]
      rfl
  rw [inserts, inserts, scan_rebreak source hmark convert h,
    sitesOf_rebreak hmark convert false h, hrules, hroot, List.map_append]

/-- A source that breaks its lines with LF prints its gates as they are. -/
theorem rebreak_patch (hcr : '\r' ∉ source) (gate : Insert) :
    (gate.patch source).rebreak mark source =
      ⟨mark.stretch source gate.offset,
        mark.rebreak (gateLines gate.layout gate.selector gate.items)⟩ := by
  rw [Insert.patch, Text.Patch.rebreak, serialize_gateNode,
    Text.newlineStyle_of_lf hcr, Text.rebreak_lf]

theorem patch_rebreak (hmark : Text.Style mark) (hcr : '\r' ∉ source)
    (hlf : '\n' ∈ source) (gate : Insert) :
    (gate.rebreak mark source).patch (mark.rebreak source) =
      ⟨mark.stretch source gate.offset,
        mark.rebreak (gateLines gate.layout (mark.rebreak gate.selector)
          (gate.items.map (Item.rebreak mark)))⟩ := by
  rw [Insert.patch, serialize_gateNode, Insert.rebreak,
    Text.newlineStyle_rebreak hmark hcr hlf]

/-- The gates that are put in are longer by the LF in each break that they
copy. -/
theorem length_patches_rebreak (hmark : Text.Style mark) (hcr : '\r' ∉ source)
    (hlf : '\n' ∈ source) (gates : List Insert) :
    ((gates.map fun gate =>
      (gate.rebreak mark source).patch (mark.rebreak source)).flatMap
        Text.Patch.text).length =
      ((gates.map fun gate => (gate.patch source).rebreak mark source).flatMap
        Text.Patch.text).length + (mark.length - 1) *
          (Insert.copied gates).count '\n' := by
  induction gates with
  | nil => rfl
  | cons gate rest ih =>
    have hgate := length_gateLines_rebreak hmark gate.layout gate.selector
      gate.items
    simp only [List.map_cons, List.flatMap_cons, List.length_append,
      List.count_append, rebreak_patch hcr, patch_rebreak hmark hcr hlf,
      Insert.copied, hgate, Nat.mul_add] at ih ⊢
    omega

/-- The gates are put in with the breaks of the source exactly when the breaks
hold no LF or no gate copies one. -/
theorem weave_rebreak_iff (hmark : Text.Style mark) (hcr : '\r' ∉ source)
    (hlf : '\n' ∈ source) {gates : List Insert}
    (hgates : ∀ gate ∈ gates, 0 < gate.offset ∧ gate.offset ≤ source.length) :
    Text.Stitch.textOf (Text.weave
        ((gates.map (Insert.rebreak mark source)).map
          (Insert.patch (mark.rebreak source)))
        (mark.rebreak source)) =
      mark.rebreak (Text.Stitch.textOf
        (Text.weave (gates.map (Insert.patch source)) source)) ↔
      mark = ['\r'] ∨ '\n' ∉ Insert.copied gates := by
  have hpatches : ∀ patch ∈ gates.map (Insert.patch source),
      patch.offset ≤ source.length := by
    intro patch hpatch
    obtain ⟨gate, hgate, rfl⟩ := List.mem_map.mp hpatch
    exact (hgates gate hgate).2
  have hweave := Text.rebreak_textOf_weave hmark hpatches
  have hoffset : ∀ gate ∈ gates, 0 < mark.stretch source gate.offset ∧
      mark.stretch source gate.offset ≤ (mark.rebreak source).length := by
    intro gate hgate
    obtain ⟨hpos, hle⟩ := hgates gate hgate
    have hstart := Text.stretch_lt mark source hmark.isBreak.1 hpos hle
    have hstop := Text.stretch_mono mark source hle
    rw [Text.stretch_zero] at hstart
    rw [Text.stretch_length] at hstop
    exact ⟨hstart, hstop⟩
  rw [hweave, List.map_map, List.map_map]
  constructor
  · intro h
    have hlength := congrArg List.length h
    rw [Text.length_textOf_weave, Text.length_textOf_weave] at hlength
    · have hpatches := length_patches_rebreak hmark hcr hlf gates
      simp only [Function.comp_def] at hlength
      rw [hpatches] at hlength
      have hzero : (mark.length - 1) * (Insert.copied gates).count '\n' =
          0 := by omega
      rcases Nat.mul_eq_zero.mp hzero with hone | hnone
      · rcases hmark with rfl | rfl
        · exact absurd hone (by decide)
        · exact Or.inl rfl
      · exact Or.inr (List.count_eq_zero.mp hnone)
    · intro patch hpatch
      obtain ⟨gate, hgate, rfl⟩ := List.mem_map.mp hpatch
      exact hoffset gate hgate
    · intro patch hpatch
      obtain ⟨gate, hgate, rfl⟩ := List.mem_map.mp hpatch
      exact hoffset gate hgate
  · intro h
    congr 2
    refine List.map_congr_left fun gate hgate => ?_
    show (gate.rebreak mark source).patch (mark.rebreak source) =
      (gate.patch source).rebreak mark source
    rw [patch_rebreak hmark hcr hlf, rebreak_patch hcr, gateLines_rebreak]
    exact h.imp id fun h hmem => h (List.mem_flatMap.mpr ⟨gate, hgate, hmem⟩)

/-! ## Gates that copy a break -/

/-- The text that a generated node copies from the source: the selector of a
rule or the property of a declaration. -/
def copiedText : Node → Text
  | .leaf _ (.declaration property _ _) => property
  | .container _ _ (.rule selector) _ => selector
  | _ => []

/-- No generated node copies a line feed from the source. -/
def CopiesNoBreak (nodes : List Node) : Prop :=
  ∀ node ∈ Css.walk nodes, node.isGenerated = true → '\n' ∉ copiedText node

/-- The node was generated and copies a line feed. -/
def copiesBreak (node : Node) : Bool :=
  node.isGenerated && (copiedText node).contains '\n'

theorem copiesNoBreak_iff {nodes : List Node} :
    CopiesNoBreak nodes ↔ (Css.walk nodes).countP copiesBreak = 0 := by
  rw [List.countP_eq_zero]
  refine forall₂_congr fun node _ => ?_
  simp [copiesBreak, Bool.and_eq_true]

/-- The texts with a line feed that a gate copies from the source. -/
def copiedLines (selector : Text) (items : List Item) : List Text :=
  (selector :: items.map Item.property).filter fun text => text.contains '\n'

theorem countP_copiesBreak (layout : Css.Layout) (selector : Text)
    (items : List Item) :
    (Css.walk [gateNode layout selector items]).countP copiesBreak =
      (copiedLines selector items).length := by
  have hitems : (items.map itemNode).countP copiesBreak =
      (items.map Item.property).countP fun text => text.contains '\n' := by
    rw [List.countP_map, List.countP_map]
    rfl
  have hgate : copiesBreak (gateNode layout selector items) = false := rfl
  have hrule : copiesBreak
    (.container inner none (.rule selector) (items.map itemNode)) =
      selector.contains '\n' := rfl
  rw [walk_gateNode, List.countP_cons, List.countP_cons, hitems, hgate, hrule,
    copiedLines, ← List.countP_eq_length_filter, List.countP_cons]
  rfl

theorem countsGates_copiesBreak :
    CountsGates copiesBreak fun rule =>
      copiedLines rule.selector rule.items where
  read := by
    intro node h
    rw [copiesBreak, h]
    rfl
  gate := fun layout rule => countP_copiesBreak layout rule.selector rule.items

theorem copiedLines_eq_nil_iff (selector : Text) (items : List Item) :
    copiedLines selector items = [] ↔ '\n' ∉ copiedOf selector items := by
  rw [copiedLines, List.filter_eq_nil_iff, copiedOf, List.mem_append,
    List.mem_flatMap, not_or, List.forall_mem_cons, List.forall_mem_map]
  simp

/-- The gates that are put into a document copy no line feed exactly when none
of the generated nodes does. -/
theorem copied_inserts_iff (convert : Converter) (unit : Text)
    {document : Css.Document} (h : Css.AllRead document.children) :
    '\n' ∉ Insert.copied (inserts convert unit document) ↔
      CopiesNoBreak (insertGates convert unit document).document.children := by
  have hgates : ∀ gates : List Insert, '\n' ∉ Insert.copied gates ↔
      (gates.flatMap fun gate => copiedLines gate.selector gate.items) =
        [] := by
    intro gates
    rw [Insert.copied, List.flatMap_eq_nil_iff, List.mem_flatMap, not_exists]
    refine forall_congr' fun gate => ?_
    rw [not_and]
    exact imp_congr Iff.rfl (copiedLines_eq_nil_iff _ _).symm
  have hrules : (Css.walk (gatedNodes ⟨document.source, convert, unit⟩ false
        document.children)).countP copiesBreak =
      ((ruleInserts ⟨document.source, convert, unit⟩
        (sitesOf convert false document.children)).flatMap fun gate =>
          copiedLines gate.selector gate.items).length := by
    rw [countP_walk_gatedNodes countsGates_copiesBreak _ _ h,
      ← map_scan_sitesOf, ruleInserts, List.filter_map, List.flatMap_map,
      List.flatMap_map]
    rfl
  have hroot : (Css.walk (rootGate? unit (scan convert document)).toList).countP
    copiesBreak =
      ((rootInserts unit (scan convert document) document.children).flatMap
        fun gate =>
        copiedLines gate.selector gate.items).length := by
    rw [rootInserts, rootGate?]
    split
    · rfl
    · rw [Option.toList_some, countP_copiesBreak, List.flatMap_singleton]
  have hwalk : Css.walk (insertGates convert unit document).document.children =
      Css.walk (gatedNodes ⟨document.source, convert, unit⟩ false
        document.children) ++
        Css.walk (rootGate? unit (scan convert document)).toList :=
          Css.walk_append _ _
  rw [copiesNoBreak_iff, hwalk, List.countP_append, hrules, hroot,
    ← List.length_append, ← List.flatMap_append, hgates,
    List.length_eq_zero_iff]
  rfl

/-! ## Whole style sheets -/

theorem isSome_rootGate?_rebreak (unit : Text) (scan : Scan) :
    (rootGate? unit (scan.rebreak mark)).isSome =
      (rootGate? unit scan).isSome := by
  have hempty : (scan.rebreak mark).rootItems.isEmpty =
      scan.rootItems.isEmpty :=
    List.isEmpty_map
  rw [rootGate?, rootGate?, hempty]
  show (if scan.rootItems.isEmpty || scan.rootPaired then _
    else _ : Option Node).isSome = _
  split <;> rfl

/-- A style sheet with its line breaks written as CR LF or CR gets the same
gates, and the counts and the messages are those of the style sheet with LF.
The output is written with the other breaks exactly when they hold no LF or no
gate copies a break from the source: a break that is copied has its LF written
once more. -/
theorem transform_rebreak (convert : Converter) (unit : Text) {source : Text}
    {first : Insertion} {mark : Text} (hmark : Text.Style mark)
    (hcr : '\r' ∉ source) (hlf : '\n' ∈ source)
    (h : transform convert unit source = .ok first) :
    ∃ again, transform convert unit
      (Text.replaceChar '\n' mark source) = .ok again ∧
      again.rulesConverted = first.rulesConverted ∧
      again.colorsConverted = first.colorsConverted ∧
      again.rootColorsConverted = first.rootColorsConverted ∧
      again.skipped = first.skipped.map (Text.replaceChar '\n' mark) ∧
      again.failures = first.failures.map (Text.replaceChar '\n' mark) ∧
      again.alreadyProcessed = first.alreadyProcessed ∧
      (again.output = Text.replaceChar '\n' mark first.output ↔
        mark = ['\r'] ∨ CopiesNoBreak first.document.children) := by
  rw [transform] at h
  cases hparse : Css.Document.parse source with
  | error error =>
    rw [hparse] at h
    cases h
  | ok document =>
    rw [hparse] at h
    obtain rfl := Except.ok.inj h
    obtain ⟨hsource, htiles⟩ := Css.tiles_of_parse hparse
    have hdocument : document = ⟨source, document.children⟩ := by
      rw [← hsource]
    have hplain := Css.plain_of_parse hcr hparse
    have hscan := scan_rebreak source hmark convert hplain
    rw [← hdocument] at hscan
    have hitems : ((scan convert document).rebreak mark).rootItems.length =
        (scan convert document).rootItems.length := List.length_map _
    refine ⟨insertGates convert unit ⟨mark.rebreak source,
      Css.rebreakNodes mark source document.children⟩, ?_, ?_, ?_, ?_, ?_,
        ?_, ?_, ?_⟩
    · show (Css.Document.parse (mark.rebreak source)).map _ = _
      rw [Css.parse_rebreak hmark hcr hparse]
      rfl
    · show (scan convert _).groups.length = _
      rw [hscan, Scan.groups_rebreak, List.length_map]
      rfl
    · show (scan convert _).groupItems +
        (if (rootGate? unit (scan convert _)).isSome then
          (scan convert _).rootItems.length else 0) = _
      rw [hscan, Scan.groupItems_rebreak, isSome_rootGate?_rebreak, hitems]
      rfl
    · show (if (rootGate? unit (scan convert _)).isSome then
        (scan convert _).rootItems.length
        else 0) = _
      rw [hscan, isSome_rootGate?_rebreak, hitems]
      rfl
    · show (scan convert _).skipped = _
      rw [hscan, Scan.skipped_rebreak]
      rfl
    · show (scan convert _).failures = _
      rw [hscan, Scan.failures_rebreak]
      rfl
    · rw [insertGates, insertGates]
      simp only [hscan, Scan.groups_rebreak, List.length_map,
        isSome_rootGate?_rebreak, hitems, Scan.skipped_rebreak,
        List.isEmpty_map]
      rfl
    · have houtput := output_insertGates convert unit hparse
      have houtput' :=
        output_insertGates convert unit (Css.parse_rebreak hmark hcr hparse)
      have hinserts := inserts_rebreak source hmark convert unit hplain
      rw [← hdocument] at hinserts
      have hoffsets : ∀ gate ∈ inserts convert unit document,
          0 < gate.offset ∧ gate.offset ≤ source.length := by
        intro gate hgate
        have hpatch := offset_of_mem_patches convert unit htiles
          (gate.patch document.source) (by
          rw [patches_eq_map]
          exact List.mem_map_of_mem hgate)
        exact ⟨hpatch.1, Nat.le_trans hpatch.2 (tiles_cursorAfter htiles).2⟩
      have hweave := weave_rebreak_iff hmark hcr hlf hoffsets
      rw [patches_eq_map, hinserts] at houtput'
      rw [patches_eq_map, hsource] at houtput
      rw [houtput', ← copied_inserts_iff convert unit htiles.allRead]
      show _ = mark.rebreak (insertGates convert unit document).output ↔ _
      rw [houtput]
      exact hweave

/-- A rule in a container, and a top-level declaration that needs a gate. -/
theorem transform_rebreak_nested :
    ∃ first again,
      transform (fun _ => some "oklch(0.1 0.2 3)".toList) [' ']
          "--x:#fff;\n@media b\x7b\na\x7bc:#000\x7d\n\x7d".toList = .ok first ∧
        transform (fun _ => some "oklch(0.1 0.2 3)".toList) [' ']
          (Text.replaceChar '\n' ['\r', '\n']
            "--x:#fff;\n@media b\x7b\na\x7bc:#000\x7d\n\x7d".toList) = .ok
              again ∧
        first.colorsConverted = 2 ∧ again.colorsConverted = 2 ∧
        again.output = Text.replaceChar '\n' ['\r', '\n'] first.output := by
  have hok : (transform (fun _ => some "oklch(0.1 0.2 3)".toList) [' ']
      "--x:#fff;\n@media b\x7b\na\x7bc:#000\x7d\n\x7d".toList).isOk = true := by
    decide +kernel
  have hrun : (transform (fun _ => some "oklch(0.1 0.2 3)".toList) [' ']
      "--x:#fff;\n@media b\x7b\na\x7bc:#000\x7d\n\x7d".toList).toOption.all
        (fun first =>
        first.colorsConverted = 2 &&
          (Css.walk first.document.children).countP copiesBreak = 0) =
            true := by
    decide +kernel
  obtain ⟨first, hfirst⟩ := Css.exists_of_isOk hok
  rw [hfirst, Except.toOption, Option.all_some, Bool.and_eq_true,
    decide_eq_true_eq, decide_eq_true_eq, ← copiesNoBreak_iff] at hrun
  have hstyle : Text.Style ['\r', '\n'] := Or.inl rfl
  obtain ⟨again, hagain, _, hcolors, _, _, _, _, houtput⟩ :=
    transform_rebreak _ _ hstyle (by decide +kernel) (by decide +kernel) hfirst
  exact ⟨first, again, hfirst, hagain, hrun.1, hcolors.trans hrun.1,
    houtput.mpr (Or.inr hrun.2)⟩

/-- A line break in a selector is written longer in the gate than in the
source. -/
theorem output_ne_of_split_selector :
    ∃ first again,
      transform (fun _ => some "oklch(0.1 0.2 3)".toList) Css.defaultUnit
          "a,\nb\x7bcolor:#fff\x7d".toList = .ok first ∧
        transform (fun _ => some "oklch(0.1 0.2 3)".toList) Css.defaultUnit
          (Text.replaceChar '\n'
            ['\r', '\n'] "a,\nb\x7bcolor:#fff\x7d".toList) = .ok again ∧
        again.output ≠ Text.replaceChar '\n' ['\r', '\n'] first.output := by
  have hok :
    (transform (fun _ => some "oklch(0.1 0.2 3)".toList) Css.defaultUnit
      "a,\nb\x7bcolor:#fff\x7d".toList).isOk = true := by
    decide +kernel
  have hagainOk :
    (transform (fun _ => some "oklch(0.1 0.2 3)".toList) Css.defaultUnit
      (Text.replaceChar '\n'
        ['\r', '\n'] "a,\nb\x7bcolor:#fff\x7d".toList)).isOk = true := by
    decide +kernel
  obtain ⟨first, hfirst⟩ := Css.exists_of_isOk hok
  obtain ⟨again, hagain⟩ := Css.exists_of_isOk hagainOk
  refine ⟨first, again, hfirst, hagain, ?_⟩
  have hoptions :
      (transform (fun _ => some "oklch(0.1 0.2 3)".toList) Css.defaultUnit
        (Text.replaceChar '\n' ['\r', '\n']
          "a,\nb\x7bcolor:#fff\x7d".toList)).toOption.map Insertion.output ≠
      (transform (fun _ => some "oklch(0.1 0.2 3)".toList) Css.defaultUnit
        "a,\nb\x7bcolor:#fff\x7d".toList).toOption.map
          fun first => Text.replaceChar '\n' ['\r', '\n'] first.output := by
    decide +kernel
  rw [hfirst, hagain] at hoptions
  intro houtput
  exact hoptions (congrArg some houtput)

end OklchGate.Gate
