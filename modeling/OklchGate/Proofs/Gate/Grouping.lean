import OklchGate.Proofs.Css.Places
import OklchGate.Proofs.Gate.Patches

/-!
# Which rules get a gate

An insertion of gates adds one gate right after each rule that needs one and
nothing else, the gate for `:root` apart.

There are five groups.

* `Gets`: the rule at a place needs a gate.  It says so by the ancestors, the
  children and the next sibling of the rule, without the scan.
* `gateFor?_cases`: the insertion asks the same of a rule.
* `Grouped`: a document has the gates that another one needs, and otherwise the
  same nodes.  `Sound` says so of one place.
* `sound_of_mem_placesOf` and `readPlaces_placesOf`: nodes with their gates are
  such, by induction on the nodes.
* `perm_walk_gatedNodes`, what generated nodes say, `countP_walk_gatedNodes`,
  which counts them, and `insertGates_grouped`.
-/

namespace OklchGate.Gate

open Css (Place AllRead keptOf placesIn placesOf)

/-! ## Rules that need a gate -/

/-- The declaration that a gate holds in place of a declaration of a hex color
that converts. -/
def converted? (convert : Converter) : Css.Node → Option Css.Leaf
  | .leaf _ (.declaration property value important) =>
    if isHexColor value then
      (convert value).map fun oklch => .declaration property oklch important
    else none
  | _ => none

/-- The node is an at-rule named `supports` or an at-rule whose name ends in
`keyframes`, in any case. -/
def Excludes (node : Css.Node) : Prop :=
  ∃ origin content name params hasBlock children,
    node = .container origin content (.atRule name params hasBlock) children ∧
      (name.lower = gateName ∨ "keyframes".toList <:+ name.lower)

/-- The node is an at-rule named `supports` with a block, right below which
there is a rule with the selector. -/
def GatesSelector (selector : Text) (node : Css.Node) : Prop :=
  ∃ origin content name params children,
    node = .container origin content (.atRule name params true) children ∧
      name.lower = gateName ∧ ∃ child ∈ children, child.selector? =
        some selector

/-- The rule at a place needs a gate for the selector. -/
structure Gets (convert : Converter) (place : Place) (selector : Text) :
    Prop where
  rule : place.node.selector? = some selector
  outside : ∀ ancestor ∈ place.ancestors, ¬ Excludes ancestor
  converts : place.node.children.filterMap (converted? convert) ≠ []
  unpaired : ∀ sibling ∈ place.nextSibling? true,
    ¬ GatesSelector selector sibling

/-- The node was generated as a gate for the selector, with the declarations
that convert among some nodes. -/
def IsGateOf (convert : Converter) (selector : Text) (nodes : List Css.Node)
    (gate : Css.Node) : Prop :=
  ∃ layout, gate =
    .container (.generated layout) none
      (.atRule gateName condition true)
      [.container inner none (.rule selector)
        ((nodes.filterMap (converted? convert)).map (.leaf inner))]

/-! ## What the insertion asks of a rule -/

/-- The head of a container excludes the rules below it. -/
def isInertNode : Css.Node → Bool
  | .leaf _ _ => false
  | .container _ _ head _ => isInert head

theorem isInertNode_iff (node : Css.Node) :
    isInertNode node = true ↔ Excludes node := by
  cases node with
  | leaf origin item =>
    exact ⟨nofun, fun ⟨_, _, _, _, _, _, h, _⟩ => (by cases h)⟩
  | container origin content head children =>
    cases head with
    | rule selector =>
      exact ⟨nofun, fun ⟨_, _, _, _, _, _, h, _⟩ => (by cases h)⟩
    | atRule name params hasBlock =>
      rw [isInertNode, isInert, isGateHead, isKeyframesHead, Bool.or_eq_true,
        decide_eq_true_iff, List.isSuffixOf_iff_suffix]
      constructor
      · intro h
        exact ⟨origin, content, name, params, hasBlock, children, rfl, h⟩
      · rintro ⟨_, _, _, _, _, _, ⟨⟩, h⟩
        exact h

/-- No rule below these containers is eligible. -/
def inertAbove (ancestors : List Css.Node) : Bool := ancestors.any isInertNode

theorem inertAbove_eq_false_iff (ancestors : List Css.Node) :
    inertAbove ancestors = false ↔ ∀ ancestor ∈ ancestors,
      ¬ Excludes ancestor := by
  simp [inertAbove, ← isInertNode_iff]

theorem mem_gateSelectors_iff (selector : Text) (node : Css.Node) :
    selector ∈ gateSelectors node ↔ GatesSelector selector node := by
  cases node with
  | leaf origin item => exact ⟨nofun, fun ⟨_, _, _, _, _, h, _⟩ => (by cases h)⟩
  | container origin content head children =>
    cases head with
    | rule other => exact ⟨nofun, fun ⟨_, _, _, _, _, h, _⟩ => (by cases h)⟩
    | atRule name params hasBlock =>
      rw [gateSelectors, isGateHead, Css.Head.opensBlock]
      constructor
      · intro h
        split at h
        · rename_i hgate
          rw [Bool.and_eq_true, decide_eq_true_iff] at hgate
          obtain ⟨hname, rfl⟩ := hgate
          obtain ⟨child, hchild, hselector⟩ := List.mem_filterMap.mp h
          exact ⟨origin, content, name, params, children, rfl, hname, child,
            hchild, hselector⟩
        · cases h
      · rintro ⟨_, _, _, _, _, ⟨⟩, hname, child, hchild, hselector⟩
        rw [if_pos (by rw [hname]; rfl)]
        exact List.mem_filterMap.mpr ⟨child, hchild, hselector⟩

theorem isPaired_eq_false_iff (selector : Text) (place : Place) :
    isPaired selector place.following = false ↔
      ∀ sibling ∈ place.nextSibling? true,
        ¬ GatesSelector selector sibling := by
  rw [isPaired, Place.nextSibling?, if_pos rfl]
  cases Css.firstSignificant? place.following with
  | none => simp
  | some sibling =>
    simp only [Option.mem_some_iff, forall_eq', ← mem_gateSelectors_iff]
    simp

/-- The items of some nodes are printed as their declarations that convert. -/
theorem map_itemNode_itemsOf (convert : Converter) (nodes : List Css.Node) :
    (itemsOf convert nodes).map itemNode =
      (nodes.filterMap (converted? convert)).map (.leaf inner) := by
  rw [itemsOf, List.map_filterMap, List.map_filterMap]
  congr 1
  funext node
  cases node with
  | container => rfl
  | leaf origin item =>
    cases item with
    | comment => rfl
    | statement => rfl
    | declaration property value important =>
      rw [reading?, converted?]
      by_cases hcolor : isHexColor value = true
      · rw [if_pos hcolor, if_pos hcolor]
        cases convert value <;> rfl
      · rw [if_neg hcolor, if_neg hcolor]
        rfl

theorem itemsOf_eq_nil_iff (convert : Converter) (nodes : List Css.Node) :
    itemsOf convert nodes = [] ↔ nodes.filterMap (converted? convert) = [] := by
  rw [← List.map_eq_nil_iff (f := itemNode), map_itemNode_itemsOf,
    List.map_eq_nil_iff]

theorem isGateOf_gateNode (convert : Converter) (layout : Css.Layout)
    (selector : Text) (nodes : List Css.Node) :
    IsGateOf convert selector nodes
      (gateNode layout selector (itemsOf convert nodes)) := by
  refine ⟨layout, ?_⟩
  rw [gateNode, map_itemNode_itemsOf]

/-- A rule that needs a gate gets one for its selector, and no other node
does. -/
theorem gateFor?_cases (setting : Setting) (place : Place) :
    (∃ selector gate, Gets setting.convert place selector ∧
        gateFor? setting (inertAbove place.ancestors) place.node
          place.following = some gate ∧
        IsGateOf setting.convert selector place.node.children gate) ∨
      ((∀ selector, ¬ Gets setting.convert place selector) ∧
        gateFor? setting (inertAbove place.ancestors) place.node
          place.following = none) := by
  obtain ⟨node, following, ancestors⟩ := place
  cases node with
  | leaf origin item => exact Or.inr ⟨fun selector h => (by cases h.rule), rfl⟩
  | container origin content head children =>
    cases head with
    | atRule name params hasBlock =>
      exact Or.inr ⟨fun selector h => (by cases h.rule), rfl⟩
    | rule selector =>
      by_cases hgets : Gets setting.convert
          ⟨.container origin content (.rule selector) children, following,
            ancestors⟩ selector
      · left
        have hinert := (inertAbove_eq_false_iff ancestors).mpr hgets.outside
        have hpaired := (isPaired_eq_false_iff selector
          ⟨.container origin content (.rule selector) children, following,
            ancestors⟩).mpr hgets.unpaired
        have hitems : itemsOf setting.convert children ≠ [] := fun h =>
          hgets.converts ((itemsOf_eq_nil_iff setting.convert children).mp h)
        refine ⟨selector, gateNode (ruleLayout setting.source setting.unit
          (.container origin content (.rule selector) children)) selector
            (itemsOf setting.convert children), hgets, ?_,
              isGateOf_gateNode _ _ _ _⟩
        simp [gateFor?, scanHead?, RuleScan.ofRule, RuleScan.isGroup, hinert,
          hpaired, hitems]
      · right
        constructor
        · intro other h
          have hother : selector = other := Option.some.inj h.rule
          subst hother
          exact hgets h
        · dsimp only [gateFor?, scanHead?]
          cases hinert : inertAbove ancestors with
          | true => rfl
          | false =>
            have hgroup :
              (RuleScan.ofRule setting.convert selector children
              following).isGroup =
                false := by
              rw [Bool.eq_false_iff]
              intro hgroup
              simp only [RuleScan.ofRule, RuleScan.isGroup, Bool.and_eq_true,
                Bool.not_eq_true']
                at hgroup
              refine hgets ⟨rfl, (inertAbove_eq_false_iff ancestors).mp hinert,
                fun h => ?_,
                (isPaired_eq_false_iff selector ⟨_, following, ancestors⟩).mp
                  hgroup.2⟩
              rw [(itemsOf_eq_nil_iff setting.convert children).mpr h] at hgroup
              exact absurd hgroup.1 (by simp)
            simp [hgroup]

/-! ## Documents with their gates -/

/-- The first of some nodes, if there is one, was read. -/
def StartsRead (nodes : List Css.Node) : Prop :=
  ∀ node ∈ nodes.head?, node.isGenerated = false

/-- What is generated around the node of a place: one gate right after it if it
needs one, and nothing otherwise; and nothing before its first child. -/
structure Sound (convert : Converter) (place : Place) : Prop where
  gate : ∀ selector, Gets convert place.kept selector →
    ∃ gate rest, place.following = gate :: rest ∧
      IsGateOf convert selector place.kept.node.children gate ∧ StartsRead rest
  noGate : (∀ selector, ¬ Gets convert place.kept selector) →
    StartsRead place.following
  first : StartsRead place.node.children

/-- The places of the nodes that were read, without the generated nodes around
them. -/
def readPlaces (places : List Place) : List Place :=
  (places.filter fun place => !place.node.isGenerated).map Place.kept

/-- A document has the nodes of another one and the gates that its rules need,
and no other nodes. -/
structure Grouped (convert : Converter) (document gated : Css.Document) :
    Prop where
  /-- The nodes that were read are those of the other document. -/
  kept : keptOf gated.children = document.children
  /-- So their places are those of the other document, in the same order. -/
  places : readPlaces gated.places = document.places
  first : StartsRead gated.children
  sound : ∀ place ∈ gated.places, place.node.isGenerated = false →
    Sound convert place

/-! ## Nodes with their gates -/

theorem isGenerated_gatedNode (setting : Setting) (inert : Bool)
    (node : Css.Node) :
    (gatedNode setting inert node).isGenerated = node.isGenerated := by
  rw [Css.Node.isGenerated, Css.Node.isGenerated, span?_gatedNode]

/-- A gate that is put in was generated. -/
theorem isGenerated_of_gateFor? {setting : Setting} {inert : Bool}
    {node gate : Css.Node} {following : List Css.Node}
    (h : gateFor? setting inert node following = some gate) :
    gate.isGenerated = true := by
  rw [Css.Node.isGenerated, span?_of_gateFor? h]
  rfl

theorem keptOf_gate (setting : Setting) (inert : Bool) (node : Css.Node)
    (following others : List Css.Node) :
    keptOf ((gateFor? setting inert node following).toList ++ others) =
      keptOf others := by
  cases hgate : gateFor? setting inert node following with
  | none => rfl
  | some gate =>
    rw [Option.toList_some, List.singleton_append,
      Css.keptOf_generated (isGenerated_of_gateFor? hgate)]

mutual

theorem kept_gatedNode (setting : Setting) (inert : Bool) {node : Css.Node}
    (h : AllRead node.children) :
    (gatedNode setting inert node).kept = node := by
  cases node with
  | leaf origin item => rfl
  | container origin content head children =>
    have hchildren :
        keptOf (gatedNodes setting (inert || isInert head) children) =
        children :=
      keptOf_gatedNodes setting _ h
    rw [gatedNode, Css.Node.kept, hchildren]

/-- Without the gates, the nodes are those that were there before. -/
theorem keptOf_gatedNodes (setting : Setting) (inert : Bool)
    {nodes : List Css.Node} (h : AllRead nodes) :
    keptOf (gatedNodes setting inert nodes) = nodes := by
  cases nodes with
  | nil => rfl
  | cons node rest =>
    obtain ⟨hnode, hchildren, hrest⟩ := Css.allRead_cons.mp h
    rw [gatedNodes, Css.keptOf_read (by rw [isGenerated_gatedNode, hnode]),
      keptOf_gate,
      kept_gatedNode setting inert hchildren,
        keptOf_gatedNodes setting inert hrest]

end

theorem startsRead_gatedNodes (setting : Setting) (inert : Bool)
    {nodes : List Css.Node} (h : AllRead nodes) :
    StartsRead (gatedNodes setting inert nodes) := by
  cases nodes with
  | nil => exact nofun
  | cons node rest =>
    rintro _ ⟨⟩
    rw [isGenerated_gatedNode]
    exact (Css.allRead_cons.mp h).1

theorem exists_of_gateFor? {setting : Setting} {inert : Bool}
    {node gate : Css.Node} {following : List Css.Node}
    (h : gateFor? setting inert node following = some gate) :
    ∃ layout selector items, gate = gateNode layout selector items := by
  unfold gateFor? at h
  split at h
  · cases h
  · split at h
    · split at h
      · exact ⟨_, _, _, (Option.some.inj h).symm⟩
      · cases h
    · cases h

/-- The nodes of a gate: the gate, its rule and the declarations. -/
theorem walk_gateNode (layout : Css.Layout) (selector : Text)
    (items : List Item) :
    Css.walk [gateNode layout selector items] =
      gateNode layout selector items ::
        .container inner none (.rule selector) (items.map itemNode) ::
          items.map itemNode := by
  have hitems : Css.walk (items.map itemNode) = items.map itemNode := by
    induction items with
    | nil => rfl
    | cons item rest ih =>
      show itemNode item :: ([] ++ Css.walk (rest.map itemNode)) = _
      rw [List.nil_append, ih]
      rfl
  show gateNode layout selector items ::
    (.container inner none (.rule selector) (items.map itemNode) ::
      (Css.walk (items.map itemNode) ++ []) ++ []) = _
  rw [hitems, List.append_nil, List.append_nil]

/-- Every place in a gate is one of a generated node. -/
theorem generated_of_mem_gate {setting : Setting} {inert : Bool}
    {node gate : Css.Node} {following ancestors others : List Css.Node}
    {place : Place} (hgate : gateFor? setting inert node following = some gate)
    (h : place ∈ placesIn ancestors others gate) :
    place.node.isGenerated = true := by
  have hnode := Css.node_of_mem_placesIn h
  obtain ⟨layout, selector, items, rfl⟩ := exists_of_gateFor? hgate
  have hwalk : place.node ∈ Css.walk [gateNode layout selector items] := by
    show place.node ∈ gateNode layout selector items ::
      (Css.Node.descendants _ ++ [])
    rwa [List.append_nil]
  rw [walk_gateNode, List.mem_cons, List.mem_cons, List.mem_map] at hwalk
  rcases hwalk with hnode | hnode | ⟨item, _, hnode⟩
  · rw [hnode]
    rfl
  · rw [hnode]
    rfl
  · rw [← hnode]
    rfl

/-- The head of a node excludes the rules below it with its gates as without. -/
theorem inertAbove_cons (node : Css.Node) (ancestors : List Css.Node) :
    inertAbove (node :: ancestors) =
      (inertAbove ancestors || isInertNode node) := by
  rw [inertAbove, List.any_cons, Bool.or_comm, inertAbove]

/-- The place of a node with its gate is sound. -/
theorem sound_gatedNode (setting : Setting) {inert : Bool} {node : Css.Node}
    {ancestors rest : List Css.Node}
    (hinert : inertAbove (ancestors.map Css.Node.kept) = inert)
    (hchildren : AllRead node.children) (hrest : AllRead rest) :
    Sound setting.convert ⟨gatedNode setting inert node,
      (gateFor? setting inert node rest).toList ++
        gatedNodes setting inert rest, ancestors⟩ := by
  obtain ⟨place, hplace⟩ : ∃ place : Place, place =
      ⟨gatedNode setting inert node,
        (gateFor? setting inert node rest).toList ++
          gatedNodes setting inert rest,
        ancestors⟩ := ⟨_, rfl⟩
  have hkept : place.kept = ⟨node, rest, ancestors.map Css.Node.kept⟩ := by
    rw [hplace, Place.kept, keptOf_gate, kept_gatedNode setting inert hchildren,
      keptOf_gatedNodes setting inert hrest]
  have hfirst : StartsRead (gatedNode setting inert node).children := by
    cases node with
    | leaf origin item => exact nofun
    | container origin content head children =>
      exact startsRead_gatedNodes _ _ hchildren
  rw [← hplace]
  have hcases :=
    gateFor?_cases setting ⟨node, rest, ancestors.map Css.Node.kept⟩
  dsimp only at hcases
  rw [hinert] at hcases
  rcases hcases with ⟨selector, gate, hgets, hgate, hisGate⟩ | ⟨hnone, hgate⟩
  · refine ⟨fun other hother => ?_, fun hnone =>
      ?_, by rw [hplace]; exact hfirst⟩
    · rw [hkept] at hother ⊢
      have hselector : selector = other := by
        rw [← Option.some.injEq, ← hgets.rule, ← hother.rule]
      subst hselector
      exact ⟨gate, gatedNodes setting inert rest, by rw [hplace, hgate]; rfl,
        hisGate,
        startsRead_gatedNodes setting inert hrest⟩
    · rw [hkept] at hnone
      exact absurd hgets (hnone selector)
  · refine ⟨fun other hother => ?_, fun _ => ?_, by rw [hplace]; exact hfirst⟩
    · rw [hkept] at hother
      exact absurd hother (hnone other)
    · rw [hplace, hgate]
      exact startsRead_gatedNodes setting inert hrest

mutual

theorem sound_of_mem_placesIn {setting : Setting} {inert : Bool}
    {node : Css.Node} {ancestors rest : List Css.Node}
    (hinert : inertAbove (ancestors.map Css.Node.kept) = inert)
    (hchildren : AllRead node.children) (hrest : AllRead rest) {place : Place}
    (h : place ∈ placesIn ancestors
      ((gateFor? setting inert node rest).toList ++
      gatedNodes setting inert rest) (gatedNode setting inert node))
    (hread : place.node.isGenerated = false) : Sound setting.convert place := by
  rw [Css.placesIn_eq, List.mem_cons] at h
  rcases h with rfl | h
  · exact sound_gatedNode setting hinert hchildren hrest
  · cases node with
    | leaf origin item => cases h
    | container origin content head children =>
      have hbelow : inertAbove
        ((gatedNode setting inert (.container origin content head children)
          :: ancestors).map Css.Node.kept) = (inert || isInert head) := by
        rw [List.map_cons, kept_gatedNode setting inert hchildren,
          inertAbove_cons, hinert]
        rfl
      exact sound_of_mem_placesOf hbelow hchildren h hread

/-- The places of the nodes that were read are sound when the gates are put
in. -/
theorem sound_of_mem_placesOf {setting : Setting} {inert : Bool}
    {nodes ancestors : List Css.Node}
    (hinert : inertAbove (ancestors.map Css.Node.kept) = inert)
    (hnodes : AllRead nodes) {place : Place}
    (h : place ∈ placesOf ancestors (gatedNodes setting inert nodes))
    (hread : place.node.isGenerated = false) : Sound setting.convert place := by
  cases nodes with
  | nil => cases h
  | cons node rest =>
    obtain ⟨_, hchildren, hrest⟩ := Css.allRead_cons.mp hnodes
    rw [gatedNodes, placesOf, List.mem_append] at h
    rcases h with h | h
    · exact sound_of_mem_placesIn hinert hchildren hrest h hread
    · cases hgate : gateFor? setting inert node rest with
      | none =>
        rw [hgate] at h
        exact sound_of_mem_placesOf hinert hrest h hread
      | some gate =>
        rw [hgate, Option.toList_some, List.singleton_append, placesOf,
          List.mem_append] at h
        rcases h with h | h
        · rw [generated_of_mem_gate hgate h] at hread
          cases hread
        · exact sound_of_mem_placesOf hinert hrest h hread

end

theorem readPlaces_append (a b : List Place) :
    readPlaces (a ++ b) = readPlaces a ++ readPlaces b := by
  rw [readPlaces, List.filter_append, List.map_append]
  rfl

theorem readPlaces_gate (setting : Setting) (inert : Bool) (node : Css.Node)
    (following ancestors others : List Css.Node) :
    readPlaces (placesOf ancestors
      ((gateFor? setting inert node following).toList ++ others)) =
      readPlaces (placesOf ancestors others) := by
  cases hgate : gateFor? setting inert node following with
  | none => rfl
  | some gate =>
    have hnil : (placesIn ancestors others gate).filter
        (fun place => !place.node.isGenerated) = [] := by
      rw [List.filter_eq_nil_iff]
      intro place hplace
      simp [generated_of_mem_gate hgate hplace]
    rw [Option.toList_some, List.singleton_append, placesOf, readPlaces_append,
      readPlaces, hnil]
    rfl

mutual

theorem readPlaces_placesIn (setting : Setting) (inert : Bool) {node : Css.Node}
    (ancestors : List Css.Node) {rest : List Css.Node}
    (hnode : node.isGenerated = false) (hchildren : AllRead node.children)
    (hrest : AllRead rest) :
    readPlaces (placesIn ancestors
        ((gateFor? setting inert node rest).toList ++
          gatedNodes setting inert rest)
        (gatedNode setting inert node)) =
      placesIn (ancestors.map Css.Node.kept) rest node := by
  have hread : (gatedNode setting inert node).isGenerated = false := by
    rw [isGenerated_gatedNode, hnode]
  have hbelow : readPlaces (placesOf (gatedNode setting inert node :: ancestors)
      (gatedNode setting inert node).children) =
        placesOf (node :: ancestors.map Css.Node.kept) node.children := by
    cases node with
    | leaf origin item => rfl
    | container origin content head children =>
      have h := readPlaces_placesOf setting (inert || isInert head)
        (gatedNode setting inert (.container origin content head children) ::
          ancestors) hchildren
      rwa [List.map_cons, kept_gatedNode setting inert hchildren] at h
  rw [Css.placesIn_eq, Css.placesIn_eq, ← hbelow, readPlaces, List.filter_cons,
    if_pos (by rw [hread]; rfl), List.map_cons, ← readPlaces, Place.kept,
      keptOf_gate,
    kept_gatedNode setting inert hchildren,
      keptOf_gatedNodes setting inert hrest]

/-- The places of the nodes that were read are those without the gates, in the
same order. -/
theorem readPlaces_placesOf (setting : Setting) (inert : Bool)
    (ancestors : List Css.Node) {nodes : List Css.Node} (h : AllRead nodes) :
    readPlaces (placesOf ancestors (gatedNodes setting inert nodes)) =
      placesOf (ancestors.map Css.Node.kept) nodes := by
  cases nodes with
  | nil => rfl
  | cons node rest =>
    obtain ⟨hnode, hchildren, hrest⟩ := Css.allRead_cons.mp h
    rw [gatedNodes, placesOf, placesOf, readPlaces_append, readPlaces_gate,
      readPlaces_placesIn setting inert ancestors hnode hchildren hrest,
      readPlaces_placesOf setting inert ancestors hrest]

end

/-- The gates of rules, put into a document whose nodes were all read. -/
theorem grouped_gatedNodes (convert : Converter) (unit : Text)
    {document : Css.Document} (h : AllRead document.children) :
    Grouped convert document ⟨document.source,
      gatedNodes ⟨document.source, convert, unit⟩ false document.children⟩ where
  kept := keptOf_gatedNodes _ false h
  places := readPlaces_placesOf _ false [] h
  first := startsRead_gatedNodes _ false h
  sound := fun _ hplace hread => sound_of_mem_placesOf rfl h hplace hread

/-! ## Reading generated nodes -/

/-- What is read off generated nodes only, and off the gate of each rule the
parts of the rule. -/
structure YieldsParts {α : Type} (f : Css.Node → Option α)
    (parts : RuleScan → List α) :
    Prop where
  read : ∀ node : Css.Node, node.isGenerated = false → f node = none
  gate : ∀ layout (rule : RuleScan),
    (Css.walk [gateNode layout rule.selector rule.items]).filterMap f =
      parts rule

section Yield

variable {α : Type} {f : Css.Node → Option α} {parts : RuleScan → List α}

/-- What is read off the gate of a node. -/
theorem filterMap_walk_gateFor? (hyields : YieldsParts f parts)
    (setting : Setting) (inert : Bool) (origin : Css.Origin)
    (content : Option Css.Span) (head : Css.Head)
    (children following : List Css.Node) :
    (Css.walk (gateFor? setting inert (.container origin content head children)
        following).toList).filterMap f =
      (((scanHead? setting.convert inert head children following).toList).filter
        RuleScan.isGroup).flatMap parts := by
  rw [gateFor?]
  cases scanHead? setting.convert inert head children following with
  | none => rfl
  | some rule =>
    dsimp only
    by_cases hgroup : rule.isGroup = true
    · rw [if_pos hgroup, Option.toList_some, hyields.gate, Option.toList_some,
        List.filter_cons, if_pos hgroup]
      simp
    · rw [if_neg hgroup, Option.toList_some, List.filter_cons, if_neg hgroup]
      rfl

mutual

theorem perm_walk_gatedNode (hyields : YieldsParts f parts) (setting : Setting)
    (inert : Bool) {node : Css.Node} (following : List Css.Node)
    (hnode : node.isGenerated = false) (hchildren : AllRead node.children) :
    ((Css.walk [gatedNode setting inert node]).filterMap f ++
        (Css.walk (gateFor? setting inert node following).toList).filterMap
          f).Perm
      (((scanNode setting.convert inert following node).filter
        RuleScan.isGroup).flatMap parts) := by
  have hown : f (gatedNode setting inert node) = none :=
    hyields.read _ (by rw [isGenerated_gatedNode, hnode])
  cases node with
  | leaf origin item =>
    show ((gatedNode setting inert (.leaf origin item) :: []).filterMap f ++
      []).Perm []
    rw [List.filterMap_cons_none hown]
    exact List.Perm.refl []
  | container origin content head children =>
    have hbelow :=
      perm_walk_gatedNodes hyields setting (inert || isInert head) hchildren
    have hwalk : Css.walk
      [gatedNode setting inert (.container origin content head children)] =
        gatedNode setting inert (.container origin content head children) ::
          Css.walk (gatedNodes setting (inert || isInert head) children) :=
      List.append_nil _
    rw [hwalk, List.filterMap_cons_none hown,
      filterMap_walk_gateFor? hyields setting inert origin content head children
        following,
      scanNode, List.filter_append, List.flatMap_append]
    -- The gate of a rule comes after the gates of the rules in it.
    exact (hbelow.append_right _).trans List.perm_append_comm

/-- Nodes with their gates say what the parts of the rules that get one say,
each as often as it is said there. -/
theorem perm_walk_gatedNodes (hyields : YieldsParts f parts) (setting : Setting)
    (inert : Bool) {nodes : List Css.Node} (h : AllRead nodes) :
    ((Css.walk (gatedNodes setting inert nodes)).filterMap f).Perm
      (((scanNodes setting.convert inert nodes).filter RuleScan.isGroup).flatMap
        parts) := by
  cases nodes with
  | nil => exact List.Perm.refl []
  | cons node rest =>
    obtain ⟨hnode, hchildren, hrest⟩ := Css.allRead_cons.mp h
    have hfirst :=
      perm_walk_gatedNode hyields setting inert rest hnode hchildren
    have hothers := perm_walk_gatedNodes hyields setting inert hrest
    rw [gatedNodes, ← List.singleton_append, Css.walk_append, Css.walk_append,
      List.filterMap_append, List.filterMap_append, ← List.append_assoc,
      scanNodes, List.filter_append, List.flatMap_append]
    exact hfirst.append hothers

end

end Yield

/-! ## Counting generated nodes -/

/-- The node was generated as an at-rule. -/
def isGeneratedGate : Css.Node → Bool
  | .container (.generated _) _ (.atRule ..) _ => true
  | _ => false

/-- The node was generated as a declaration. -/
def isGeneratedDeclaration : Css.Node → Bool
  | .leaf (.generated _) (.declaration ..) => true
  | _ => false

/-- What counts are generated nodes only, and in the gate of each rule as many
as the rule has parts. -/
structure CountsGates {α : Type} (p : Css.Node → Bool)
    (parts : RuleScan → List α) : Prop where
  read : ∀ node : Css.Node, node.isGenerated = false → p node = false
  gate : ∀ layout (rule : RuleScan),
    (Css.walk [gateNode layout rule.selector rule.items]).countP p =
      (parts rule).length

/-- What counts, read as one mark for each. -/
def mark? (p : Css.Node → Bool) (node : Css.Node) : Option Unit :=
  if p node then some () else none

theorem length_marks (p : Css.Node → Bool) (nodes : List Css.Node) :
    (nodes.filterMap (mark? p)).length = nodes.countP p := by
  rw [List.length_filterMap_eq_countP]
  congr 1
  funext node
  rw [mark?]
  cases p node <;> rfl

theorem CountsGates.yieldsMarks {α : Type} {p : Css.Node → Bool}
    {parts : RuleScan → List α} (hcounts : CountsGates p parts) :
    YieldsParts (mark? p) fun rule =>
      List.replicate (parts rule).length () where
  read := by
    intro node hnode
    rw [mark?, hcounts.read node hnode]
    rfl
  gate := by
    intro layout rule
    rw [List.eq_replicate_iff, length_marks, hcounts.gate]
    exact ⟨rfl, fun _ _ => rfl⟩

/-- What is counted in nodes with their gates is the sum over the rules that get
one. -/
theorem countP_walk_gatedNodes {α : Type} {p : Css.Node → Bool}
    {parts : RuleScan → List α} (hcounts : CountsGates p parts)
    (setting : Setting) (inert : Bool) {nodes : List Css.Node}
    (h : AllRead nodes) :
    (Css.walk (gatedNodes setting inert nodes)).countP p =
      (((scanNodes setting.convert inert nodes).filter RuleScan.isGroup).flatMap
        parts).length := by
  have hmarks :=
    (perm_walk_gatedNodes hcounts.yieldsMarks setting inert h).length_eq
  rw [length_marks] at hmarks
  rw [hmarks, List.length_flatMap, List.length_flatMap]
  congr 2
  funext rule
  exact List.length_replicate

theorem countP_items_gate (items : List Item) :
    (items.map itemNode).countP isGeneratedGate = 0 := by
  rw [List.countP_eq_zero]
  intro node hnode
  obtain ⟨item, _, rfl⟩ := List.mem_map.mp hnode
  exact Bool.false_ne_true

theorem countP_items_declaration (items : List Item) :
    (items.map itemNode).countP isGeneratedDeclaration = items.length := by
  rw [← List.length_map (f := itemNode), List.countP_eq_length]
  intro node hnode
  obtain ⟨item, _, rfl⟩ := List.mem_map.mp hnode
  rfl

/-- There is one generated at-rule in a gate. -/
theorem countsGates_gate : CountsGates isGeneratedGate fun rule => [rule] where
  read := by
    rintro (⟨_ | _, _⟩ | ⟨_ | _, _, _ | _, _⟩) h <;> first | rfl | cases h
  gate := by
    intro layout rule
    rw [walk_gateNode, List.countP_cons, List.countP_cons, countP_items_gate]
    rfl

/-- There is one generated declaration for each item of a gate. -/
theorem countsGates_declaration :
    CountsGates isGeneratedDeclaration RuleScan.items where
  read := by
    rintro (⟨_ | _, _ | _ | _⟩ | ⟨_ | _, _, _ | _, _⟩) h <;>
      first | rfl | cases h
  gate := by
    intro layout rule
    rw [walk_gateNode, List.countP_cons, List.countP_cons,
      countP_items_declaration]
    rfl

/-! ## The gate for `:root` -/

/-- The gate for `:root` holds the top-level declarations that convert. -/
theorem isGateOf_rootGate? {convert : Converter} {unit : Text}
    {document : Css.Document} {gate : Css.Node}
    (h : rootGate? unit (scan convert document) = some gate) :
    IsGateOf convert rootSelector document.children gate := by
  rw [rootGate?] at h
  split at h
  · cases h
  · rw [← Option.some.inj h]
    exact isGateOf_gateNode convert _ rootSelector document.children

/-- The gate for `:root` holds as many declarations as are counted. -/
theorem countP_rootGate? (unit : Text) (scan : Scan) :
    (Css.walk (rootGate? unit scan).toList).countP isGeneratedDeclaration =
      if (rootGate? unit scan).isSome then scan.rootItems.length else 0 := by
  cases hgate : rootGate? unit scan with
  | none => rfl
  | some gate =>
    rw [rootGate?] at hgate
    split at hgate
    · cases hgate
    · rw [← Option.some.inj hgate]
      exact countsGates_declaration.gate _ ⟨rootSelector, scan.rootItems,
        [], false⟩

/-! ## Insertions -/

/-- Inserting gates into a style sheet that was read adds one gate right after
each rule that needs one, and one at the end for the top-level declarations or
none; the nodes of the style sheet stay as they are.  The counts are those of
the generated nodes. -/
theorem insertGates_grouped (convert : Converter) (unit : Text) {source : Text}
    {document : Css.Document} (h : Css.Document.parse source = .ok document) :
    ∃ (insertion : Insertion) (gated : Css.Document) (root? : Option Css.Node),
      transform convert unit source = .ok insertion ∧
      Grouped convert document gated ∧
      insertion.document = ⟨source, gated.children ++ root?.toList⟩ ∧
      (∀ gate ∈ root?, IsGateOf convert rootSelector document.children gate) ∧
      insertion.rulesConverted =
        (Css.walk gated.children).countP isGeneratedGate ∧
      insertion.colorsConverted =
        (Css.walk insertion.document.children).countP isGeneratedDeclaration ∧
      insertion.rootColorsConverted =
        (Css.walk root?.toList).countP isGeneratedDeclaration := by
  have hread := Css.allRead_of_parse h
  have hsource := (Css.tiles_of_parse h).1
  have hgates := countP_walk_gatedNodes countsGates_gate ⟨document.source,
    convert, unit⟩ false hread
  have hdeclarations := countP_walk_gatedNodes countsGates_declaration
    ⟨document.source, convert, unit⟩ false hread
  have hroot := countP_rootGate? unit (scan convert document)
  refine ⟨insertGates convert unit document, _,
    rootGate? unit (scan convert document),
    by rw [transform, h]; rfl, grouped_gatedNodes convert unit hread,
    ?_, ?_, ?_, ?_, ?_⟩
  · rw [insertGates, hsource]
  · exact fun gate hgate => isGateOf_rootGate? hgate
  · show ((scanNodes convert false document.children).filter
      RuleScan.isGroup).length = _
    rw [hgates, List.flatMap_singleton']
  · show (scan convert document).groupItems + _ = (Css.walk (_ ++ _)).countP _
    rw [Css.walk_append, List.countP_append, hdeclarations, hroot,
      Scan.groupItems]
    rfl
  · rw [hroot]
    rfl

/-- A rule in a container that gets a gate, and a top-level declaration that
gets one too. -/
theorem insertGates_grouped_nested :
    ∃ (document : Css.Document) (insertion : Insertion) (gated : Css.Document)
        (root? : Option Css.Node),
      Css.Document.parse "--x:#fff;@media b\x7ba\x7bc:#000\x7d\x7d".toList = .ok
        document ∧
        transform (fun _ => some "oklch(0 0 0)".toList) [' ']
          "--x:#fff;@media b\x7ba\x7bc:#000\x7d\x7d".toList = .ok insertion ∧
        Grouped (fun _ => some "oklch(0 0 0)".toList) document gated ∧
        insertion.document = ⟨"--x:#fff;@media b\x7ba\x7bc:#000\x7d\x7d".toList,
          gated.children ++ root?.toList⟩ := by
  have hok : (Css.Document.parse
      "--x:#fff;@media b\x7ba\x7bc:#000\x7d\x7d".toList).isOk = true := by
    decide +kernel
  obtain ⟨document, h⟩ := Css.exists_of_isOk hok
  obtain ⟨insertion, gated, root?, htransform, hgrouped, hdocument, _⟩ :=
    insertGates_grouped (fun _ => some "oklch(0 0 0)".toList) [' '] h
  exact ⟨document, insertion, gated, root?, h, htransform, hgrouped, hdocument⟩

end OklchGate.Gate
