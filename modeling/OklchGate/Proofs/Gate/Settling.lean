import OklchGate.Proofs.Gate.Output
import OklchGate.Proofs.Gate.Roots

/-!
# When a second run changes nothing

A second run finds what the first one left: the rules with their gates, as the
printed gates are read.  It changes nothing exactly when each gate, as it is
read, names the selector of its rule, and the properties of the top-level
declarations are among those that gates declare for `:root`.

There are four groups.

* A scan looks at nodes without their places: `scanNodes_bare`.
* `noGroup_scanNodes`: the scan of nodes with their gates, as they are read.
* `gatedNodes_eq_self`: without groups nothing is inserted.
* `Settled` and `settled_iff`, and a selector with a line break in it that does
  not settle.
-/

namespace OklchGate.Gate

/-! ## Scans of nodes without their places -/

theorem bareOf_eq_map (nodes : List Css.Node) :
    Css.bareOf nodes = nodes.map Css.Node.bare := by
  induction nodes with
  | nil => rfl
  | cons node rest ih => rw [Css.bareOf_cons, ih, List.map_cons]

theorem selector?_bare (node : Css.Node) :
    node.bare.selector? = node.selector? := by
  cases node with
  | leaf => rfl
  | container origin content head children => cases head <;> rfl

theorem isComment_bare (node : Css.Node) :
    node.bare.isComment = node.isComment := by
  cases node <;> rfl

theorem reading?_bare (convert : Converter) (node : Css.Node) :
    reading? convert node.bare = reading? convert node := by
  cases node with
  | leaf origin item => cases item <;> rfl
  | container => rfl

theorem itemsOf_bare (convert : Converter) (nodes : List Css.Node) :
    itemsOf convert (Css.bareOf nodes) = itemsOf convert nodes := by
  rw [itemsOf, itemsOf, bareOf_eq_map, List.filterMap_map]
  simp only [Function.comp_def, reading?_bare]

theorem failuresOf_bare (convert : Converter) (nodes : List Css.Node) :
    failuresOf convert (Css.bareOf nodes) = failuresOf convert nodes := by
  rw [failuresOf, failuresOf, bareOf_eq_map, List.filterMap_map]
  simp only [Function.comp_def, reading?_bare]

theorem gateSelectors_bare (node : Css.Node) :
    gateSelectors node.bare = gateSelectors node := by
  cases node with
  | leaf => rfl
  | container origin content head children =>
    rw [Css.Node.bare, gateSelectors, gateSelectors, bareOf_eq_map,
      List.filterMap_map]
    simp only [Function.comp_def, selector?_bare]

theorem isPaired_bare (selector : Text) (nodes : List Css.Node) :
    isPaired selector (Css.bareOf nodes) = isPaired selector nodes := by
  rw [isPaired, isPaired, Css.firstSignificant?, Css.firstSignificant?,
    bareOf_eq_map, List.find?_map]
  simp only [Function.comp_def, isComment_bare]
  cases nodes.find? fun node => !node.isComment with
  | none => rfl
  | some node =>
    rw [Option.map_some]
    dsimp only
    rw [gateSelectors_bare]

theorem scanHead?_bare (convert : Converter) (inert : Bool) (head : Css.Head)
    (children following : List Css.Node) :
    scanHead? convert inert head (Css.bareOf children) (Css.bareOf following) =
      scanHead? convert inert head children following := by
  cases head with
  | rule selector =>
    rw [scanHead?, scanHead?, RuleScan.ofRule, itemsOf_bare, failuresOf_bare,
      isPaired_bare]
    rfl
  | atRule => rfl

mutual

theorem scanNode_bare (convert : Converter) (inert : Bool)
    (following : List Css.Node) (node : Css.Node) :
    scanNode convert inert (Css.bareOf following) node.bare =
      scanNode convert inert following node := by
  cases node with
  | leaf => rfl
  | container origin content head children =>
    rw [Css.Node.bare, scanNode, scanNode, scanHead?_bare,
      scanNodes_bare convert _ children]

/-- A scan does not look at the places of nodes. -/
theorem scanNodes_bare (convert : Converter) (inert : Bool)
    (nodes : List Css.Node) :
    scanNodes convert inert (Css.bareOf nodes) =
      scanNodes convert inert nodes := by
  cases nodes with
  | nil => rfl
  | cons node rest =>
    rw [Css.bareOf_cons, scanNodes, scanNodes,
      scanNode_bare convert inert rest node, scanNodes_bare convert inert rest]

end

theorem property?_bare (node : Css.Node) :
    property? node.bare = property? node := by
  cases node with
  | leaf origin item => cases item <;> rfl
  | container => rfl

theorem rootProperties_bare (child : Css.Node) :
    rootProperties child.bare = rootProperties child := by
  rw [rootProperties, rootProperties, selector?_bare, children_bare,
    bareOf_eq_map, List.filterMap_map]
  simp only [Function.comp_def, property?_bare]

theorem gateProperties_bare (node : Css.Node) :
    gateProperties node.bare = gateProperties node := by
  cases node with
  | leaf => rfl
  | container origin content head children =>
    cases head with
    | rule => rfl
    | atRule name params hasBlock =>
      rw [Css.Node.bare, gateProperties, gateProperties, bareOf_eq_map,
        List.flatMap_map]
      simp only [rootProperties_bare]

/-- The properties of `:root` in gates do not depend on the places of nodes. -/
theorem rootGateProperties_bare (nodes : List Css.Node) :
    rootGateProperties (Css.bareOf nodes) = rootGateProperties nodes := by
  rw [rootGateProperties_eq, rootGateProperties_eq, bareOf_eq_map,
    List.flatMap_map]
  simp only [gateProperties_bare]

/-! ## Scans of nodes with their gates -/

/-- A gate is no leaf and no rule. -/
theorem exists_of_isGate {gate : Css.Node} (h : isGate gate = true) :
    ∃ origin content name params hasBlock children,
      gate = .container origin content (.atRule name params hasBlock) children ∧
        isGateHead (.atRule name params hasBlock) = true := by
  cases gate with
  | leaf => cases h
  | container origin content head children =>
    cases head with
    | rule => cases h
    | atRule name params hasBlock => exact ⟨_, _, _, _, _, _, rfl, h⟩

mutual

theorem scanNode_inert (convert : Converter) (following : List Css.Node)
    (node : Css.Node) :
    scanNode convert true following node = [] := by
  cases node with
  | leaf => rfl
  | container origin content head children =>
    rw [scanNode, Bool.true_or, scanNodes_inert convert children]
    cases head <;> rfl

/-- Nothing is found where no rule is eligible. -/
theorem scanNodes_inert (convert : Converter) (nodes : List Css.Node) :
    scanNodes convert true nodes = [] := by
  cases nodes with
  | nil => rfl
  | cons node rest =>
    rw [scanNodes, scanNode_inert convert rest node,
      scanNodes_inert convert rest]
    rfl

end

/-- Nothing is found in a gate. -/
theorem scanNode_gate (convert : Converter) (inert : Bool)
    (following : List Css.Node) {gate : Css.Node} (h : isGate gate = true) :
    scanNode convert inert following gate = [] := by
  obtain ⟨origin, content, name, params, hasBlock, children, rfl, hhead⟩ :=
    exists_of_isGate h
  rw [scanNode, isInert, hhead, Bool.true_or, Bool.or_true, scanNodes_inert]
  rfl

/-- What is read back of the gate of a node: nothing if it has none, and else
one gate. -/
theorem GatesRead.readBack_cases {setting : Setting} {inert : Bool}
    {node : Css.Node} {following : List Css.Node}
    (h : GatesRead setting inert (node :: following)) :
    readBack (gateText setting inert node following) = [] ∨
      ∃ gate, readBack (gateText setting inert node following) = [gate] ∧
        isGate gate = true := by
  rcases h.gateText_cases with ⟨_, hnil⟩ | ⟨_, hread⟩
  · left
    rw [hnil]
    rfl
  · exact Or.inr (readsAsGate_cases hread).2.2

/-- What is collected from nodes that are no gates is collected from the nodes
with their gates. -/
theorem filterMap_rereadNodes {β : Type} {f : Css.Node → Option β}
    {setting : Setting} {inert : Bool} {nodes : List Css.Node}
    (hgates : GatesRead setting inert nodes)
    (hnode : ∀ node, f (rereadNode setting inert node) = f node)
    (hgate : ∀ gate, isGate gate = true → f gate = none) :
    (rereadNodes setting inert nodes).filterMap f = nodes.filterMap f := by
  induction nodes with
  | nil => rfl
  | cons node rest ih =>
    rw [rereadNodes, List.filterMap_cons, List.filterMap_cons,
      List.filterMap_append, hnode, ih hgates.tail]
    rcases hgates.readBack_cases with hnil | ⟨gate, hread, hg⟩
    · rw [hnil]
      rfl
    · rw [hread, List.filterMap_cons, hgate gate hg]
      rfl

theorem reading?_rereadNode (convert : Converter) (setting : Setting)
    (inert : Bool) (node : Css.Node) :
    reading? convert (rereadNode setting inert node) =
      reading? convert node := by
  cases node <;> rfl

theorem selector?_rereadNode (setting : Setting) (inert : Bool)
    (node : Css.Node) :
    (rereadNode setting inert node).selector? = node.selector? := by
  cases node with
  | leaf => rfl
  | container origin content head children => cases head <;> rfl

theorem reading?_gate (convert : Converter) {gate : Css.Node}
    (h : isGate gate = true) :
    reading? convert gate = none := by
  obtain ⟨_, _, _, _, _, _, rfl, _⟩ := exists_of_isGate h
  rfl

theorem selector?_gate {gate : Css.Node} (h : isGate gate = true) :
    gate.selector? = none := by
  obtain ⟨_, _, _, _, _, _, rfl, _⟩ := exists_of_isGate h
  rfl

theorem itemsOf_rereadNodes (convert : Converter) {setting : Setting}
    {inert : Bool} {nodes : List Css.Node}
    (hgates : GatesRead setting inert nodes) :
    itemsOf convert (rereadNodes setting inert nodes) =
      itemsOf convert nodes := by
  refine filterMap_rereadNodes hgates (fun node => ?_) (fun gate hgate => ?_)
  · rw [reading?_rereadNode]
  · rw [reading?_gate convert hgate]

/-- A node names the same selectors with its gates as without. -/
theorem gateSelectors_rereadNode {setting : Setting} {inert : Bool}
    {node : Css.Node} {following : List Css.Node}
    (hgates : GatesRead setting inert (node :: following)) :
    gateSelectors (rereadNode setting inert node) = gateSelectors node := by
  cases node with
  | leaf => rfl
  | container origin content head children =>
    rw [rereadNode, gateSelectors, gateSelectors]
    have hchildren :=
      filterMap_rereadNodes (f := Css.Node.selector?) hgates.children
      (selector?_rereadNode _ _) (fun gate hgate => selector?_gate hgate)
    dsimp only [inertBelow, Css.Node.children] at hchildren
    rw [hchildren]

theorem isPaired_comment {node : Css.Node} (h : node.isComment = true)
    (selector : Text) (rest : List Css.Node) :
    isPaired selector (node :: rest) = isPaired selector rest := by
  rw [isPaired, isPaired, Css.firstSignificant?, List.find?_cons, h]
  rfl

/-- The first node that is no comment decides whether a rule is paired. -/
theorem isPaired_significant {node : Css.Node} (h : node.isComment = false)
    (selector : Text) (rest : List Css.Node) :
    isPaired selector (node :: rest) =
      (gateSelectors node).contains selector := by
  rw [isPaired, Css.firstSignificant?, List.find?_cons, h]
  rfl

/-- A rule that is paired stays so when nodes come after its siblings. -/
theorem isPaired_append {selector : Text} {nodes : List Css.Node}
    (h : isPaired selector nodes = true) (extra : List Css.Node) :
    isPaired selector (nodes ++ extra) = true := by
  induction nodes with
  | nil => cases h
  | cons node rest ih =>
    rw [List.cons_append]
    cases hcomment : node.isComment with
    | true =>
      rw [isPaired_comment hcomment] at h ⊢
      exact ih h
    | false =>
      rw [isPaired_significant hcomment] at h ⊢
      exact h

theorem isComment_gate {gate : Css.Node} (h : isGate gate = true) :
    gate.isComment = false := by
  obtain ⟨_, _, _, _, _, _, rfl, _⟩ := exists_of_isGate h
  rfl

/-- A rule is paired by the same nodes with their gates as without. -/
theorem isPaired_rereadNodes {setting : Setting} {inert : Bool}
    (selector : Text) {nodes : List Css.Node}
    (hgates : GatesRead setting inert nodes) :
    isPaired selector (rereadNodes setting inert nodes) =
      isPaired selector nodes := by
  induction nodes with
  | nil => rfl
  | cons node rest ih =>
    rw [rereadNodes]
    cases hcomment : node.isComment with
    | true =>
      have hchildren : node.children = [] := by
        cases node with
        | leaf => rfl
        | container => cases hcomment
      obtain ⟨htext, _, hnode⟩ :=
        gateText_of_childless setting inert rest hchildren
      rw [htext, hnode, readBack_nil, List.nil_append,
        isPaired_comment hcomment, isPaired_comment hcomment, ih hgates.tail]
    | false =>
      have hreread : (rereadNode setting inert node).isComment = false := by
        cases node <;> exact hcomment
      rw [isPaired_significant hcomment, isPaired_significant hreread,
        gateSelectors_rereadNode hgates]

/-- The selectors that the gates in a text name, as the text is read. -/
def selectorsIn (text : Text) : List Text :=
  (readBack text).flatMap gateSelectors

/-- The gate of every rule that gets one names the selector of the rule, as it
is read. -/
def Named (setting : Setting) (sites : List Site) : Prop :=
  ∀ site ∈ sites, site.scan.isGroup = true →
    site.scan.selector ∈ selectorsIn (site.patch setting).text

/-- No rule of a scan gets a gate. -/
def NoGroup (rules : List RuleScan) : Prop :=
  ∀ rule ∈ rules, rule.isGroup = false

theorem noGroup_nil : NoGroup [] := List.forall_mem_nil _

theorem named_nil {setting : Setting} : Named setting [] :=
  List.forall_mem_nil _

theorem noGroup_append {a b : List RuleScan} :
    NoGroup (a ++ b) ↔ NoGroup a ∧ NoGroup b := by
  simp [NoGroup, or_imp, forall_and]

theorem named_append {setting : Setting} {a b : List Site} :
    Named setting (a ++ b) ↔ Named setting a ∧ Named setting b := by
  simp [Named, or_imp, forall_and]

/-- The nodes after a node, as they are read with the gate of the node, are
scanned as those nodes alone. -/
theorem scanNodes_readBack_append (convert : Converter) (inert inertGate : Bool)
    {setting : Setting} {node : Css.Node} {following : List Css.Node}
    (hgates : GatesRead setting inertGate (node :: following))
    (nodes : List Css.Node) :
    scanNodes convert inert
      (readBack (gateText setting inertGate node following) ++ nodes) =
      scanNodes convert inert nodes := by
  rcases hgates.readBack_cases with hnil | ⟨gate, hread, hgate⟩
  · rw [hnil, List.nil_append]
  · rw [hread, List.singleton_append, scanNodes,
      scanNode_gate convert inert nodes hgate, List.nil_append]

theorem noGroup_singleton {rule : RuleScan} :
    NoGroup [rule] ↔ rule.isGroup = false := by
  simp [NoGroup]

theorem named_singleton {setting : Setting} {site : Site} :
    Named setting [site] ↔ (site.scan.isGroup = true →
      site.scan.selector ∈ selectorsIn (site.patch setting).text) := by
  simp [Named]

theorem isGroup_ofRule (convert : Converter) (selector : Text)
    (children following : List Css.Node) :
    (RuleScan.ofRule convert selector children following).isGroup =
      (!(itemsOf convert children).isEmpty && !isPaired selector following) :=
        rfl

section Rule

variable (setting : Setting) (origin : Css.Origin) (content : Option Css.Span)
  (selector : Text) (children following : List Css.Node)

/-- A rule that may get a gate gets one exactly when its scan says so. -/
theorem isSome_gateFor?_rule :
    (gateFor? setting false
      (.container origin content (.rule selector) children) following).isSome =
      (RuleScan.ofRule setting.convert selector children
        following).isGroup := by
  simp only [gateFor?, scanHead?, Bool.false_eq_true, if_false]
  split
  · next hgroup => rw [Option.isSome_some, hgroup]
  · next hgroup => rw [Option.isSome_none, Bool.eq_false_iff.mpr hgroup]

/-- The gate of a rule is the text that is put in after it. -/
theorem gateText_rule
    (h : (RuleScan.ofRule setting.convert selector children following).isGroup =
      true) :
    gateText setting false (.container origin content (.rule selector) children)
      following =
      ((Site.mk (.container origin content (.rule selector) children)
        (RuleScan.ofRule setting.convert selector children following)).patch
          setting).text := by
  simp only [gateText, gateFor?, scanHead?, Bool.false_eq_true, if_false, h,
    if_true]
  rfl

end Rule

/-- A rule with its gate, as it is read, gets no gate again exactly when its
gate names its selector. -/
theorem noGroup_scanHead? {setting : Setting} {inert : Bool}
    {origin : Css.Origin} {content : Option Css.Span} {head : Css.Head}
    {children following rest : List Css.Node}
    (hgates : GatesRead setting inert
      (.container origin content head children :: following))
    (hrest : ∀ selector, isPaired selector following = true →
      isPaired selector rest = true) :
    NoGroup (scanHead? setting.convert inert head
        (rereadNodes setting (inert || isInert head) children)
        (readBack (gateText setting inert
          (.container origin content head children) following) ++
          rest)).toList ↔
      Named setting
        ((scanHead? setting.convert inert head children following).map
        (Site.mk (.container origin content head children))).toList := by
  cases head with
  | atRule name params hasBlock => exact iff_of_true noGroup_nil named_nil
  | rule selector =>
    cases inert with
    | true => exact iff_of_true noGroup_nil named_nil
    | false =>
      have hitems := itemsOf_rereadNodes setting.convert hgates.children
      dsimp only [inertBelow, Css.Node.children] at hitems
      have hscan : ∀ children following,
        scanHead? setting.convert false (.rule selector)
          children following =
            some (RuleScan.ofRule setting.convert selector children
            following) :=
        fun _ _ => rfl
      have hgroup :=
        isSome_gateFor?_rule setting origin content selector children following
      rw [hscan, hscan, Option.toList_some, Option.map_some, Option.toList_some,
        noGroup_singleton, named_singleton, isGroup_ofRule, hitems]
      rcases hgates.gateText_cases with ⟨hnone, hnil⟩ | ⟨hsome, hread⟩
      · -- The rule has no items, or it is paired by the nodes after it.
        rw [hnone, Option.isSome_none] at hgroup
        rw [hnil, readBack_nil, List.nil_append, ← hgroup]
        refine iff_of_true ?_ fun h => by cases h
        rw [eq_comm, isGroup_ofRule, Bool.and_eq_false_iff] at hgroup
        rw [Bool.and_eq_false_iff]
        refine hgroup.imp_right fun hpaired => ?_
        rw [hrest selector (by simpa using hpaired)]
        rfl
      · -- The gate is the first node after the rule.
        rw [hsome] at hgroup
        have htext := gateText_rule setting origin content selector children
          following hgroup.symm
        obtain ⟨_, _, gate, hgateRead, hisGate⟩ := readsAsGate_cases hread
        rw [← htext, selectorsIn, hgateRead, List.flatMap_singleton,
          List.singleton_append, isPaired_significant (isComment_gate hisGate),
          ← hgroup]
        rw [eq_comm, isGroup_ofRule, Bool.and_eq_true] at hgroup
        rw [hgroup.1, Bool.true_and]
        simp [RuleScan.ofRule]

mutual

theorem noGroup_scanNode {setting : Setting} {inert : Bool} {node : Css.Node}
    {following rest : List Css.Node}
    (hgates : GatesRead setting inert (node :: following))
    (hrest : ∀ selector, isPaired selector following = true →
      isPaired selector rest = true) :
    NoGroup (scanNode setting.convert inert
        (readBack (gateText setting inert node following) ++ rest)
        (rereadNode setting inert node)) ↔
      Named setting (sitesIn setting.convert inert following node) := by
  cases node with
  | leaf origin item =>
    exact iff_of_true noGroup_nil named_nil
  | container origin content head children =>
    have hchildren := noGroup_scanNodes hgates.children [] rfl
    dsimp only [inertBelow, Css.Node.children] at hchildren
    rw [List.append_nil] at hchildren
    rw [rereadNode, scanNode, sitesIn, noGroup_append, named_append,
      noGroup_scanHead? hgates hrest, hchildren]

/-- Nodes with their gates, as they are read, hold no rule that gets a gate
exactly when each gate names the selector of its rule; nodes after them in which
nothing is found do not matter. -/
theorem noGroup_scanNodes {setting : Setting} {inert : Bool}
    {nodes : List Css.Node} (hgates : GatesRead setting inert nodes)
    (extra : List Css.Node)
    (hextra : scanNodes setting.convert inert extra = []) :
    NoGroup (scanNodes setting.convert inert
      (rereadNodes setting inert nodes ++ extra)) ↔
      Named setting (sitesOf setting.convert inert nodes) := by
  cases nodes with
  | nil =>
    rw [rereadNodes, List.nil_append, hextra]
    exact iff_of_true noGroup_nil named_nil
  | cons node rest =>
    have hrest : ∀ selector, isPaired selector rest = true →
        isPaired selector (rereadNodes setting inert rest ++ extra) = true := by
      intro selector hpaired
      rw [← isPaired_rereadNodes selector hgates.tail] at hpaired
      exact isPaired_append hpaired extra
    rw [rereadNodes, List.cons_append, List.append_assoc, scanNodes, sitesOf,
      noGroup_append, named_append, noGroup_scanNode hgates hrest,
      scanNodes_readBack_append _ _ _ hgates,
      noGroup_scanNodes hgates.tail extra hextra]

end

/-! ## Nothing to insert -/

theorem gateFor?_eq_none {setting : Setting} {inert : Bool} {node : Css.Node}
    {following : List Css.Node}
    (h : NoGroup (scanNode setting.convert inert following node)) :
    gateFor? setting inert node following = none := by
  cases node with
  | leaf => rfl
  | container origin content head children =>
    rw [scanNode, noGroup_append] at h
    rw [gateFor?]
    cases hrule : scanHead? setting.convert inert head children following with
    | none => rfl
    | some rule =>
      have hgroup := h.1 rule (by rw [hrule]; exact List.mem_cons_self)
      simp only [hgroup, Bool.false_eq_true, if_false]

mutual

theorem gatedNode_eq_self {setting : Setting} {inert : Bool} {node : Css.Node}
    {following : List Css.Node}
    (h : NoGroup (scanNode setting.convert inert following node)) :
    gatedNode setting inert node = node := by
  cases node with
  | leaf => rfl
  | container origin content head children =>
    rw [scanNode, noGroup_append] at h
    rw [gatedNode, gatedNodes_eq_self h.2]

/-- Without groups no gates are put between nodes. -/
theorem gatedNodes_eq_self {setting : Setting} {inert : Bool}
    {nodes : List Css.Node}
    (h : NoGroup (scanNodes setting.convert inert nodes)) :
    gatedNodes setting inert nodes = nodes := by
  cases nodes with
  | nil => rfl
  | cons node rest =>
    rw [scanNodes, noGroup_append] at h
    rw [gatedNodes, gatedNode_eq_self h.1, gateFor?_eq_none h.1,
      gatedNodes_eq_self h.2]
    rfl

end

/-- There is no gate for `:root` exactly when gates declare the property of each
top-level item. -/
theorem rootGate?_eq_none_iff (convert : Converter) (unit : Text)
    (document : Css.Document) :
    rootGate? unit (scan convert document) = none ↔
      ∀ item ∈ itemsOf convert document.children,
        item.property ∈ rootGateProperties document.children := by
  rw [rootGate?, scan]
  dsimp only
  cases hitems : itemsOf convert document.children with
  | nil => simp
  | cons item rest => simp

theorem rulesConverted_eq_zero_iff (convert : Converter) (unit : Text)
    (document : Css.Document) :
    (insertGates convert unit document).rulesConverted = 0 ↔
      NoGroup (scanNodes convert false document.children) := by
  rw [insertGates, scan, Scan.groups, NoGroup]
  simp

theorem rootColorsConverted_eq_zero_iff (convert : Converter) (unit : Text)
    (document : Css.Document) :
    (insertGates convert unit document).rootColorsConverted = 0 ↔
      rootGate? unit (scan convert document) = none := by
  rw [insertGates]
  dsimp only
  cases hgate : rootGate? unit (scan convert document) with
  | none => simp
  | some gate =>
    have hitems : (scan convert document).rootItems ≠ [] := by
      intro hnil
      rw [rootGate?, hnil] at hgate
      cases hgate
    simp [hitems]

/-- A document without groups and without a gate for `:root` stays as it is. -/
theorem insertGates_eq_self {convert : Converter} {document : Css.Document}
    (unit : Text) (hrules : NoGroup (scanNodes convert false document.children))
    (hroot : rootGate? unit (scan convert document) = none) :
    (insertGates convert unit document).document = document := by
  rw [insertGates]
  dsimp only
  rw [hroot, gatedNodes_eq_self hrules]
  simp

/-! ## The second run -/

/-- A run succeeds, and so does a run on its output, which gives this output
again and reports that nothing was changed. -/
def Settled (convert : Converter) (unit source : Text) : Prop :=
  ∃ first again, transform convert unit source = .ok first ∧
    transform convert unit first.output = .ok again ∧ again.output =
      first.output ∧
    again.changed = false ∧ again.rulesConverted = 0 ∧
      again.rootColorsConverted = 0

/-- No rule among some nodes gets a gate, and gates declare the property of each
item among them for `:root`. -/
def Gated (convert : Converter) (nodes : List Css.Node) : Prop :=
  NoGroup (scanNodes convert false nodes) ∧
    ∀ item ∈ itemsOf convert nodes, item.property ∈ rootGateProperties nodes

/-- A second run changes nothing exactly when the nodes that the output is read
as have their gates. -/
theorem settled_iff_gated {convert : Converter} {unit source : Text}
    {document : Css.Document} (h : Css.Document.parse source = .ok document) :
    Settled convert unit source ↔
      ∃ nodes, Css.Document.parse (insertGates convert unit document).output =
          .ok ⟨(insertGates convert unit document).output, nodes⟩ ∧
            Gated convert nodes := by
  have hfirst : transform convert unit source = .ok
      (insertGates convert unit document) := by
    rw [transform, h]
    rfl
  constructor
  · rintro ⟨first, again, hok, hagain, _, _, hrules, hroot⟩
    rw [hfirst, Except.ok.injEq] at hok
    subst hok
    rw [transform] at hagain
    cases hparse :
      Css.Document.parse (insertGates convert unit document).output with
    | error error =>
      rw [hparse] at hagain
      cases hagain
    | ok output =>
      rw [hparse] at hagain
      obtain ⟨_, nodes, _, rfl⟩ := Css.parse_eq_ok_iff.mp hparse
      cases hagain
      rw [rulesConverted_eq_zero_iff] at hrules
      rw [rootColorsConverted_eq_zero_iff, rootGate?_eq_none_iff] at hroot
      exact ⟨nodes, rfl, hrules, hroot⟩
  · rintro ⟨nodes, hparse, hrules, hroot⟩
    obtain ⟨document', hdocument'⟩ : ∃ document' : Css.Document,
        document' = ⟨(insertGates convert unit document).output, nodes⟩ :=
          ⟨_, rfl⟩
    have hchildren : nodes = document'.children := by rw [hdocument']
    rw [← hdocument'] at hparse
    rw [hchildren] at hrules hroot
    rw [← rootGate?_eq_none_iff convert unit] at hroot
    have hrulesZero :=
      (rulesConverted_eq_zero_iff convert unit document').mpr hrules
    have hrootZero :=
      (rootColorsConverted_eq_zero_iff convert unit document').mpr hroot
    refine ⟨_, insertGates convert unit document',
      hfirst, by rw [transform, hparse]; rfl, ?_, ?_,
      hrulesZero, hrootZero⟩
    · obtain ⟨hsource, htiles⟩ := Css.tiles_of_parse hparse
      rw [Insertion.output, insertGates_eq_self unit hrules hroot,
        Css.Document.toText, hsource, Css.serializeFrom_of_tiles htiles,
        Text.slice_all]
    · rw [Insertion.changed, hrulesZero, hrootZero]
      rfl

/-- The nodes of a document with its gates have their gates exactly when each
gate names the selector of its rule and gates declare the property of each
top-level item for `:root`. -/
theorem gated_iff {convert : Converter} {unit : Text} {document : Css.Document}
    {nodes : List Css.Node} (h : Legible convert unit document)
    (hbare : Css.bareOf nodes =
      Css.bareOf (outputNodes convert unit document)) :
    Gated convert nodes ↔
      Named ⟨document.source, convert, unit⟩
        (sitesOf convert false document.children) ∧
        ∀ item ∈ itemsOf convert document.children,
          item.property ∈
            rootGateProperties (outputNodes convert unit document) := by
  have hextra : scanNodes convert false
      (readBack (rootText convert unit document)) = [] := by
    rcases h.readBack_rootText with hnil | ⟨gate, hread, hgate⟩
    · rw [hnil]
      rfl
    · rw [hread, scanNodes, scanNode_gate convert false [] hgate]
      rfl
  have hrules : NoGroup (scanNodes convert false nodes) ↔
      Named ⟨document.source, convert, unit⟩
        (sitesOf convert false document.children) := by
    rw [← scanNodes_bare, hbare, scanNodes_bare, outputNodes]
    exact noGroup_scanNodes h.gatesRead _ hextra
  have hitems : itemsOf convert nodes = itemsOf convert document.children := by
    have hrootItems :
        itemsOf convert (readBack (rootText convert unit document)) = [] := by
      rcases h.readBack_rootText with hnil | ⟨gate, hread, hgate⟩
      · rw [hnil]
        rfl
      · rw [hread, itemsOf, List.filterMap_cons, reading?_gate convert hgate]
        rfl
    rw [← itemsOf_bare, hbare, itemsOf_bare, outputNodes, itemsOf,
      List.filterMap_append, ← itemsOf, ← itemsOf, hrootItems, List.append_nil]
    exact itemsOf_rereadNodes convert h.gatesRead
  have hproperties : rootGateProperties nodes =
      rootGateProperties (outputNodes convert unit document) := by
    rw [← rootGateProperties_bare, hbare, rootGateProperties_bare]
  rw [Gated, hrules, hitems, hproperties]

/-- If the gates can be told apart, a second run changes nothing exactly when
each gate, as it is read, names the selector of its rule, and gates declare the
property of each top-level item for `:root`. -/
theorem settled_iff_of_legible {convert : Converter} {unit source : Text}
    {document : Css.Document} (h : Css.Document.parse source = .ok document)
    (hlegible : Legible convert unit document) :
    Settled convert unit source ↔
      Named ⟨source, convert, unit⟩ (sitesOf convert false document.children) ∧
        ∀ item ∈ itemsOf convert document.children,
          item.property ∈
            rootGateProperties (outputNodes convert unit document) := by
  obtain ⟨nodes, hparse, hbare⟩ := parse_output convert unit h hlegible
  have hsource : document.source = source := (Css.tiles_of_parse h).1
  rw [settled_iff_gated h, ← hsource, ← gated_iff hlegible hbare]
  constructor
  · rintro ⟨others, hothers, hgated⟩
    rw [hparse] at hothers
    cases hothers
    exact hgated
  · exact fun hgated => ⟨nodes, hparse, hgated⟩

/-- A second run changes nothing exactly when the nodes that the output is read
as have their gates.  If the gates can be told apart, the first run decides
this: each gate, as it is read, has to name the selector of its rule, and gates
have to declare the property of each top-level item for `:root`. -/
theorem settled_iff (convert : Converter) (unit : Text) {source : Text}
    {document : Css.Document} (h : Css.Document.parse source = .ok document) :
    (Settled convert unit source ↔
        ∃ nodes, Css.Document.parse (insertGates convert unit document).output =
            .ok ⟨(insertGates convert unit document).output, nodes⟩ ∧
              Gated convert nodes) ∧
      (Legible convert unit document →
        (Settled convert unit source ↔
          Named ⟨source, convert, unit⟩
            (sitesOf convert false document.children) ∧
            ∀ item ∈ itemsOf convert document.children,
              item.property ∈
                rootGateProperties (outputNodes convert unit document))) :=
  ⟨settled_iff_gated h, settled_iff_of_legible h⟩

/-- A rule in a container, and a top-level declaration that needs a gate. -/
theorem settled_iff_nested :
    ∃ document,
      Css.Document.parse "--x:#fff;@media b\x7ba\x7bc:#000\x7d\x7d".toList = .ok
        document ∧
        Legible (fun _ => some "oklch(0.1 0.2 3)".toList) [' '] document ∧
        Settled (fun _ => some "oklch(0.1 0.2 3)".toList) [' ']
          "--x:#fff;@media b\x7ba\x7bc:#000\x7d\x7d".toList := by
  have hok : (Css.Document.parse
      "--x:#fff;@media b\x7ba\x7bc:#000\x7d\x7d".toList).isOk = true := by
    decide +kernel
  have hdocument : (Css.Document.parse
      "--x:#fff;@media b\x7ba\x7bc:#000\x7d\x7d".toList).toOption.all
        (fun document =>
        Css.Token.allClosed (Css.Token.ofText document.source) &&
        ((patches (fun _ => some "oklch(0.1 0.2 3)".toList) [' '] document).all
          fun patch =>
          readsAsGate patch.text) &&
        !Css.Token.endsOpen false (Css.Token.ofText document.source) &&
        ((sitesOf (fun _ => some "oklch(0.1 0.2 3)".toList) false
          document.children).all
          fun site =>
            (selectorsIn (site.patch
            ⟨"--x:#fff;@media b\x7ba\x7bc:#000\x7d\x7d".toList,
            fun _ => some "oklch(0.1 0.2 3)".toList, [' ']⟩).text).contains
              site.scan.selector) &&
        ((itemsOf (fun _ => some "oklch(0.1 0.2 3)".toList)
          document.children).all fun item =>
          (rootGateProperties
            (outputNodes (fun _ => some "oklch(0.1 0.2 3)".toList) [' ']
            document)).contains item.property)) = true := by
    decide +kernel
  obtain ⟨document, h⟩ := Css.exists_of_isOk hok
  rw [h, Except.toOption, Option.all_some] at hdocument
  simp only [Bool.and_eq_true, List.all_eq_true, List.contains_iff_mem,
    Bool.not_eq_true']
    at hdocument
  obtain ⟨⟨⟨⟨hclosed, hgates⟩, hended⟩, hnamed⟩, hroot⟩ := hdocument
  have hlegible :
      Legible (fun _ => some "oklch(0.1 0.2 3)".toList) [' '] document :=
    ⟨hclosed, hgates, fun _ => hended⟩
  exact ⟨document, h, hlegible, ((settled_iff _ _ h).2 hlegible).mpr
    ⟨fun site hsite _ => hnamed site hsite, hroot⟩⟩

/-- A line break in a selector is printed longer than it was, so the gate does
not name the selector, and every run puts in another gate. -/
theorem not_settled_of_split_selector :
    (transform (fun _ => some "oklch(0.1 0.2 3)".toList) Css.defaultUnit
        "a,\r\nb\x7bcolor:#fff\x7d".toList).isOk = true ∧
      ¬ Settled (fun _ => some "oklch(0.1 0.2 3)".toList) Css.defaultUnit
          "a,\r\nb\x7bcolor:#fff\x7d".toList := by
  refine ⟨by decide +kernel, ?_⟩
  rintro ⟨first, again, hfirst, hagain, _, _, hrules, _⟩
  have hrun :
    ((transform (fun _ => some "oklch(0.1 0.2 3)".toList) Css.defaultUnit
      "a,\r\nb\x7bcolor:#fff\x7d".toList).toOption.bind fun first =>
        (transform (fun _ => some "oklch(0.1 0.2 3)".toList) Css.defaultUnit
          first.output).toOption).map Insertion.rulesConverted = some 1 := by
    decide +kernel
  rw [hfirst, Except.toOption, Option.bind_some, hagain, Except.toOption,
    Option.map_some, hrules] at hrun
  cases hrun

end OklchGate.Gate
