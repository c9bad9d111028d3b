import OklchGate.Proofs.Gate.Grouping

/-!
# What becomes of each declaration

A scan accounts for each declaration of a hex color that counts, and for each
once: the color fails, or the declaration becomes an item of its rule or of the
style sheet, or its rule is paired already.

There are four groups.

* `Counts`: the declaration is a child of the style sheet or of an eligible
  rule.
* `Account`, a declaration with its `Fate`, and `Accounts`, which says that what
  a scan lists is what became of the declarations.
* `perm_declarationsOf`: the declarations of eligible rules and of the style
  sheet are those that count, by induction on the nodes.
* `exists_accounts`, for a style sheet that is read, and
  `failures_not_in_order`: the failures are listed rule by rule.
-/

namespace OklchGate.Gate

open Css (Place placesIn placesOf)

/-! ## Declarations that count -/

/-- The node is a declaration of a hex color. -/
def hasHexColor : Css.Node → Bool
  | .leaf _ (.declaration _ value _) => isHexColor value
  | _ => false

/-- The place is one of a declaration of a hex color, right below the style
sheet or below a rule outside every `supports` and keyframes at-rule. -/
structure Counts (place : Place) : Prop where
  color : hasHexColor place.node = true
  parent : place.ancestors = [] ∨ ∃ rule above selector, place.ancestors =
    rule :: above ∧
    rule.selector? = some selector ∧ ∀ ancestor ∈ above, ¬ Excludes ancestor

/-- The node is an eligible rule. -/
def isEligible (node : Css.Node) (ancestors : List Css.Node) : Bool :=
  node.selector?.isSome && !inertAbove ancestors

/-- The place is one of an eligible rule. -/
def isEligibleRule (place : Place) : Bool :=
  isEligible place.node place.ancestors

/-- Declarations below these containers count. -/
def holdsDeclarations : List Css.Node → Bool
  | [] => true
  | parent :: above => isEligible parent above

theorem isEligible_iff (node : Css.Node) (ancestors : List Css.Node) :
    isEligible node ancestors = true ↔
      (∃ selector, node.selector? = some selector) ∧
        ∀ ancestor ∈ ancestors, ¬ Excludes ancestor := by
  rw [isEligible, Bool.and_eq_true, Option.isSome_iff_exists, Bool.not_eq_true',
    inertAbove_eq_false_iff]

theorem counts_iff (place : Place) :
    Counts place ↔
      (hasHexColor place.node && holdsDeclarations place.ancestors) = true := by
  obtain ⟨node, following, ancestors⟩ := place
  rw [Bool.and_eq_true]
  cases ancestors with
  | nil => exact ⟨fun h => ⟨h.color, rfl⟩, fun h => ⟨h.1, Or.inl rfl⟩⟩
  | cons parent above =>
    rw [holdsDeclarations, isEligible_iff]
    constructor
    · rintro ⟨hcolor,
        hnil | ⟨rule, others, selector, hancestors, hselector, houtside⟩⟩
      · cases hnil
      · obtain ⟨rfl, rfl⟩ := List.cons.inj hancestors
        exact ⟨hcolor, ⟨selector, hselector⟩, houtside⟩
    · rintro ⟨hcolor, ⟨selector, hselector⟩, houtside⟩
      exact ⟨hcolor, Or.inr ⟨parent, above, selector, rfl, hselector, houtside⟩⟩

/-! ## Accounts -/

/-- What becomes of a declaration of a hex color. -/
inductive Fate where
  /-- The color does not convert. -/
  | failed (failure : Text)
  /-- The declaration is an item of its rule, which gets a gate. -/
  | grouped (item : Item)
  /-- The color converts, and the rule is paired already. -/
  | skipped (item : Item)
  /-- The declaration is an item of the style sheet. -/
  | root (item : Item)

namespace Fate

def failure? : Fate → Option Text
  | failed failure => some failure
  | _ => none

def grouped? : Fate → Option Item
  | grouped item => some item
  | _ => none

def skipped? : Fate → Option Item
  | skipped item => some item
  | _ => none

def root? : Fate → Option Item
  | root item => some item
  | _ => none

end Fate

/-- A declaration and what becomes of it. -/
structure Account where
  declaration : Css.Node
  fate : Fate

/-- A rule and the accounts of its declarations. -/
structure RuleAccounts where
  rule : Place
  own : List Account

namespace RuleAccounts

/-- The selector of the rule. -/
def selector (rule : RuleAccounts) : Text := rule.rule.node.selector?.getD []

/-- What is read off the fates of the declarations. -/
def read {α : Type} (f : Fate → Option α) (rule : RuleAccounts) : List α :=
  rule.own.filterMap fun account => f account.fate

end RuleAccounts

/-- The account of a declaration in the rule at a place is right. -/
inductive Account.InRule (convert : Converter) (selector : Text)
    (place : Place) :
    Account → Prop
  where
  | failed {node : Css.Node} {failure : Text}
      (fails : reading? convert node = some (.error failure)) :
      InRule convert selector place ⟨node, .failed failure⟩
  | grouped {node : Css.Node} {item : Item} (converts : reading? convert node =
    some (.ok item))
      (unpaired : ∀ sibling ∈ place.nextSibling? true,
        ¬ GatesSelector selector sibling) :
      InRule convert selector place ⟨node, .grouped item⟩
  | skipped {node : Css.Node} {item : Item} (converts : reading? convert node =
    some (.ok item))
      (paired : ∃ sibling ∈ place.nextSibling? true,
        GatesSelector selector sibling) :
      InRule convert selector place ⟨node, .skipped item⟩

/-- The account of a declaration right below the style sheet is right. -/
inductive Account.AtTop (convert : Converter) : Account → Prop where
  | failed {node : Css.Node} {failure : Text}
      (fails : reading? convert node = some (.error failure)) :
      AtTop convert ⟨node, .failed failure⟩
  | root {node : Css.Node} {item : Item} (converts : reading? convert node =
    some (.ok item)) : AtTop convert ⟨node, .root item⟩

/-- The accounts of the rules of a style sheet and of its top level are right,
and what a scan lists are their fates. -/
structure Accounts (convert : Converter) (document : Css.Document)
    (rules : List RuleAccounts) (top : List Account) : Prop where
  listed : rules.map RuleAccounts.rule = document.places.filter isEligibleRule
  own : ∀ rule ∈ rules, rule.own.map Account.declaration =
    rule.rule.node.children.filter hasHexColor
  topOwn : top.map Account.declaration = document.children.filter hasHexColor
  inRule : ∀ rule ∈ rules, ∀ account ∈ rule.own,
    account.InRule convert rule.selector rule.rule
  atTop : ∀ account ∈ top, account.AtTop convert
  failures : (scan convert document).failures =
    rules.flatMap (RuleAccounts.read Fate.failure?) ++
      top.filterMap fun account => account.fate.failure?
  groups : (scan convert document).groups.map
    (fun group => (group.selector, group.items)) =
    (rules.map fun rule => (rule.selector, rule.read Fate.grouped?)).filter
      fun group =>
      !group.2.isEmpty
  skipped : (scan convert document).skipped =
    (rules.filter fun rule => !(rule.read Fate.skipped?).isEmpty).map
      RuleAccounts.selector
  rootItems : (scan convert document).rootItems =
    top.filterMap fun account => account.fate.root?

/-- All declarations of some accounts. -/
def declarationsOf (rules : List RuleAccounts) (top : List Account) :
    List Css.Node :=
  rules.flatMap (fun rule => rule.own.map Account.declaration) ++
    top.map Account.declaration

/-! ## The scan by places -/

/-- The scan of the rule at a place. -/
def scanAt (convert : Converter) (place : Place) : RuleScan :=
  .ofRule convert (place.node.selector?.getD []) place.node.children
    place.following

mutual

theorem map_scanAt_placesIn (convert : Converter)
    (ancestors following : List Css.Node) (node : Css.Node) :
    ((placesIn ancestors following node).filter isEligibleRule).map
      (scanAt convert) =
      scanNode convert (inertAbove ancestors) following node := by
  cases node with
  | leaf origin item => rfl
  | container origin content head children =>
    have hbelow := map_scanAt_placesOf convert
      (.container origin content head children :: ancestors) children
    rw [inertAbove_cons, isInertNode] at hbelow
    rw [placesIn, scanNode, ← hbelow, List.filter_cons]
    cases head with
    | atRule name params hasBlock => rfl
    | rule selector =>
      have hown : isEligibleRule
          ⟨.container origin content (.rule selector) children, following,
            ancestors⟩ = !inertAbove ancestors := rfl
      rw [hown, scanHead?]
      cases inertAbove ancestors <;> rfl

/-- The scans are those of the eligible rules, in their order. -/
theorem map_scanAt_placesOf (convert : Converter)
    (ancestors nodes : List Css.Node) :
    ((placesOf ancestors nodes).filter isEligibleRule).map (scanAt convert) =
      scanNodes convert (inertAbove ancestors) nodes := by
  cases nodes with
  | nil => rfl
  | cons node rest =>
    rw [placesOf, scanNodes, List.filter_append, List.map_append,
      map_scanAt_placesIn convert ancestors rest node,
      map_scanAt_placesOf convert ancestors rest]

end

/-! ## The declarations that count -/

mutual

theorem perm_declarationsIn (ancestors following : List Css.Node)
    (node : Css.Node) :
    (((placesIn ancestors following node).filter fun place =>
        hasHexColor place.node && holdsDeclarations place.ancestors).map
          Place.node).Perm
      ((if holdsDeclarations ancestors then [node].filter hasHexColor
        else []) ++
        ((placesIn ancestors following node).filter isEligibleRule).flatMap
          fun place =>
          place.node.children.filter hasHexColor) := by
  have hbelow :
    (((placesOf (node :: ancestors) node.children).filter fun place =>
        hasHexColor place.node && holdsDeclarations place.ancestors).map
          Place.node).Perm
      ((if isEligible node ancestors then node.children.filter hasHexColor
        else []) ++
        ((placesOf (node :: ancestors) node.children).filter
          isEligibleRule).flatMap fun place =>
          place.node.children.filter hasHexColor) := by
    cases node with
    | leaf origin item => exact List.Perm.refl []
    | container origin content head children =>
      exact perm_declarationsOf _ children
  have hown : ∀ places : List Place,
      ((⟨node, following, ancestors⟩ :: places).filter isEligibleRule).flatMap
          (fun place => place.node.children.filter hasHexColor) =
        (if isEligible node ancestors then node.children.filter hasHexColor
          else []) ++
          (places.filter isEligibleRule).flatMap fun place =>
            place.node.children.filter hasHexColor := by
    intro places
    rw [List.filter_cons, isEligibleRule]
    cases isEligible node ancestors <;> rfl
  have hself : ∀ places : List Place,
      (((⟨node, following, ancestors⟩ :: places).filter fun place =>
        hasHexColor place.node && holdsDeclarations place.ancestors).map
          Place.node) =
      (if holdsDeclarations ancestors then [node].filter hasHexColor else []) ++
        (places.filter fun place =>
          hasHexColor place.node && holdsDeclarations place.ancestors).map
            Place.node := by
    intro places
    rw [List.filter_cons, List.filter_cons]
    cases hasHexColor node <;> cases holdsDeclarations ancestors <;> rfl
  rw [Css.placesIn_eq, hown, hself]
  exact hbelow.append_left _

/-- The declarations of hex colors in the eligible rules are those that count;
with those right here, if they count. -/
theorem perm_declarationsOf (ancestors nodes : List Css.Node) :
    (((placesOf ancestors nodes).filter fun place =>
        hasHexColor place.node && holdsDeclarations place.ancestors).map
          Place.node).Perm
      ((if holdsDeclarations ancestors then nodes.filter hasHexColor else []) ++
        ((placesOf ancestors nodes).filter isEligibleRule).flatMap fun place =>
          place.node.children.filter hasHexColor) := by
  cases nodes with
  | nil =>
    rw [List.filter_nil, ite_self]
    exact List.Perm.refl []
  | cons node rest =>
    have hfirst := perm_declarationsIn ancestors rest node
    have hrest := perm_declarationsOf ancestors rest
    have hhere : (if holdsDeclarations ancestors then
      (node :: rest).filter hasHexColor else []) =
        (if holdsDeclarations ancestors then [node].filter hasHexColor
          else []) ++
          if holdsDeclarations ancestors then rest.filter hasHexColor
          else [] := by
      cases holdsDeclarations ancestors with
      | false => rfl
      | true => exact List.filter_append [node] rest
    rw [placesOf, List.filter_append, List.map_append, List.filter_append,
      List.flatMap_append, hhere, List.append_assoc]
    refine (hfirst.append hrest).trans ?_
    rw [List.append_assoc]
    exact (List.perm_append_comm_assoc ..).append_left _

end

/-! ## The accounts of a style sheet -/

/-- The account of a declaration of a hex color, with what becomes of an
item. -/
def accountOf? (convert : Converter) (fate : Item → Fate) (node : Css.Node) :
    Option Account :=
  (reading? convert node).map fun
    | .error failure => ⟨node, .failed failure⟩
    | .ok item => ⟨node, fate item⟩

/-- The accounts of the declarations of hex colors among some nodes. -/
def accountsOf (convert : Converter) (fate : Item → Fate)
    (nodes : List Css.Node) :
    List Account :=
  nodes.filterMap (accountOf? convert fate)

section AccountsOf

variable {convert : Converter} {fate : Item → Fate}

theorem isSome_reading? (convert : Converter) (node : Css.Node) :
    (reading? convert node).isSome = hasHexColor node := by
  cases node with
  | container => rfl
  | leaf origin item =>
    cases item with
    | comment => rfl
    | statement => rfl
    | declaration property value important =>
      rw [reading?, hasHexColor]
      cases isHexColor value with
      | false => rfl
      | true => cases convert value <;> rfl

theorem declaration_accountsOf (nodes : List Css.Node) :
    (accountsOf convert fate nodes).map Account.declaration =
      nodes.filter hasHexColor := by
  rw [accountsOf, List.map_filterMap, ← List.filterMap_eq_filter]
  congr 1
  funext node
  have hcolor := isSome_reading? convert node
  rw [accountOf?, Option.guard, ← hcolor]
  rcases reading? convert node with _ | _ | _ <;> rfl

theorem failures_accountsOf (hfate : ∀ item, (fate item).failure? = none)
    (nodes : List Css.Node) :
    (accountsOf convert fate nodes).filterMap
      (fun account => account.fate.failure?) = failuresOf convert nodes := by
  rw [accountsOf, List.filterMap_filterMap, failuresOf]
  congr 1
  funext node
  rw [accountOf?]
  rcases reading? convert node with _ | failure | item
  · rfl
  · rfl
  · exact hfate item

theorem items_accountsOf {f : Fate → Option Item}
    (hfate : ∀ item, f (fate item) = some item)
    (hfailed : ∀ failure, f (.failed failure) = none) (nodes : List Css.Node) :
    (accountsOf convert fate nodes).filterMap (fun account => f account.fate) =
      itemsOf convert nodes := by
  rw [accountsOf, List.filterMap_filterMap, itemsOf]
  congr 1
  funext node
  rw [accountOf?]
  rcases reading? convert node with _ | failure | item
  · rfl
  · exact hfailed failure
  · exact hfate item

theorem nothing_accountsOf {f : Fate → Option Item}
    (hfate : ∀ item, f (fate item) = none)
    (hfailed : ∀ failure, f (.failed failure) = none) (nodes : List Css.Node) :
    (accountsOf convert fate nodes).filterMap (fun account => f account.fate) =
      [] := by
  rw [List.filterMap_eq_nil_iff]
  intro account haccount
  obtain ⟨node, _, hnode⟩ := List.mem_filterMap.mp haccount
  obtain ⟨failure | item, _, rfl⟩ := Option.map_eq_some_iff.mp hnode
  · exact hfailed failure
  · exact hfate item

end AccountsOf

/-- What becomes of the items of a rule. -/
def itemFate (paired : Bool) : Item → Fate :=
  if paired then .skipped else .grouped

/-- The accounts of the rule at a place. -/
def RuleAccounts.ofPlace (convert : Converter) (place : Place) : RuleAccounts :=
  ⟨place, accountsOf convert (itemFate (scanAt convert place).paired)
    place.node.children⟩

namespace RuleAccounts

variable (convert : Converter) (place : Place)

theorem failures_ofPlace :
    (ofPlace convert place).read Fate.failure? =
      (scanAt convert place).failures := by
  refine failures_accountsOf (fun item => ?_) _
  rw [itemFate]
  split <;> rfl

theorem grouped_ofPlace :
    (ofPlace convert place).read Fate.grouped? =
      if (scanAt convert place).paired then []
      else (scanAt convert place).items := by
  rw [read, ofPlace]
  cases (scanAt convert place).paired with
  | true => exact nothing_accountsOf (fun _ => rfl) (fun _ => rfl) _
  | false => exact items_accountsOf (fun _ => rfl) (fun _ => rfl) _

theorem skipped_ofPlace :
    (ofPlace convert place).read Fate.skipped? =
      if (scanAt convert place).paired then (scanAt convert place).items
      else [] := by
  rw [read, ofPlace]
  cases (scanAt convert place).paired with
  | true => exact items_accountsOf (fun _ => rfl) (fun _ => rfl) _
  | false => exact nothing_accountsOf (fun _ => rfl) (fun _ => rfl) _

theorem inRule_ofPlace : ∀ account ∈ (ofPlace convert place).own,
    account.InRule convert (ofPlace convert place).selector place := by
  intro account haccount
  obtain ⟨node, _, hnode⟩ := List.mem_filterMap.mp haccount
  have hpaired := isPaired_eq_false_iff (ofPlace convert place).selector place
  obtain ⟨failure | item, hreading, rfl⟩ := Option.map_eq_some_iff.mp hnode
  · exact .failed hreading
  · have hscan : (scanAt convert place).paired =
        isPaired (ofPlace convert place).selector place.following := rfl
    rw [itemFate, hscan]
    cases h : isPaired (ofPlace convert place).selector place.following with
    | false => exact .grouped hreading (hpaired.mp h)
    | true =>
      refine .skipped hreading (Classical.byContradiction fun hnone => ?_)
      rw [hpaired.mpr fun sibling hsibling hgates =>
        hnone ⟨sibling, hsibling, hgates⟩] at h
      cases h

end RuleAccounts

theorem atTop_accountsOf (convert : Converter) (nodes : List Css.Node) :
    ∀ account ∈ accountsOf convert .root nodes, account.AtTop convert := by
  intro account haccount
  obtain ⟨node, _, hnode⟩ := List.mem_filterMap.mp haccount
  obtain ⟨failure | item, hreading, rfl⟩ := Option.map_eq_some_iff.mp hnode
  · exact .failed hreading
  · exact .root hreading

/-- A rule is a group exactly if it has grouped declarations. -/
theorem isGroup_scanAt (convert : Converter) (place : Place) :
    (scanAt convert place).isGroup =
      !((RuleAccounts.ofPlace convert place).read Fate.grouped?).isEmpty := by
  rw [RuleAccounts.grouped_ofPlace, RuleScan.isGroup]
  cases (scanAt convert place).paired with
  | true => rw [Bool.not_true, Bool.and_false]; rfl
  | false => rw [Bool.not_false, Bool.and_true]; rfl

/-- A rule is skipped exactly if it has skipped declarations. -/
theorem isSkipped_scanAt (convert : Converter) (place : Place) :
    (scanAt convert place).isSkipped =
      !((RuleAccounts.ofPlace convert place).read Fate.skipped?).isEmpty := by
  rw [RuleAccounts.skipped_ofPlace, RuleScan.isSkipped]
  cases (scanAt convert place).paired with
  | true => rw [Bool.and_true]; rfl
  | false => rw [Bool.and_false]; rfl

/-- The accounts of a style sheet. -/
theorem accounts_ofPlace (convert : Converter) (document : Css.Document) :
    Accounts convert document
      ((document.places.filter isEligibleRule).map
        (RuleAccounts.ofPlace convert))
      (accountsOf convert .root document.children) := by
  have hrules : (scan convert document).rules =
      (document.places.filter isEligibleRule).map (scanAt convert) :=
    (map_scanAt_placesOf convert [] document.children).symm
  refine ⟨?_, ?_, declaration_accountsOf _, ?_, atTop_accountsOf convert _, ?_,
    ?_, ?_, ?_⟩
  · rw [List.map_map]
    exact List.map_id _
  · exact List.forall_mem_map.mpr fun place _ => declaration_accountsOf _
  · exact List.forall_mem_map.mpr fun place _ =>
      RuleAccounts.inRule_ofPlace convert place
  · rw [Scan.failures, hrules, List.flatMap_map, List.flatMap_map,
      failures_accountsOf fun _ => rfl]
    congr 2
    funext place
    exact (RuleAccounts.failures_ofPlace convert place).symm
  · rw [Scan.groups, hrules, List.map_map, List.filter_map, List.filter_map,
      List.map_map]
    simp only [Function.comp_def, ← isGroup_scanAt]
    refine List.map_congr_left fun place hplace => ?_
    have hunpaired : (scanAt convert place).paired = false := by
      have hgroup := (List.mem_filter.mp hplace).2
      rw [RuleScan.isGroup, Bool.and_eq_true] at hgroup
      simpa using hgroup.2
    rw [RuleAccounts.grouped_ofPlace, hunpaired]
    rfl
  · rw [Scan.skipped, hrules, List.filter_map, List.filter_map, List.map_map,
      List.map_map]
    simp only [Function.comp_def, ← isSkipped_scanAt]
    rfl
  · exact (items_accountsOf (fun _ => rfl) (fun _ => rfl) _).symm

/-! ## Style sheets -/

/-- The declarations of the accounts of a style sheet are those that count. -/
theorem perm_declarationsOf_accounts {convert : Converter}
    {document : Css.Document} {rules : List RuleAccounts} {top : List Account}
    (h : Accounts convert document rules top) :
    (declarationsOf rules top).Perm ((document.places.filter fun place =>
      hasHexColor place.node && holdsDeclarations place.ancestors).map
        Place.node) := by
  have hrules : rules.flatMap (fun rule => rule.own.map Account.declaration) =
      (document.places.filter isEligibleRule).flatMap fun place =>
        place.node.children.filter hasHexColor := by
    rw [← h.listed, List.flatMap_map, List.flatMap_def, List.flatMap_def,
      List.map_congr_left h.own]
  rw [declarationsOf, hrules, h.topOwn]
  exact List.perm_append_comm.trans
    (perm_declarationsOf [] document.children).symm

/-- A scan of a style sheet accounts once for each declaration of a hex color
that counts, and for nothing else.  It lists the failures rule by rule, and
those at top level after them; and so does an insertion of gates. -/
theorem exists_accounts (convert : Converter) (unit : Text) {source : Text}
    {document : Css.Document} (h : Css.Document.parse source = .ok document) :
    ∃ rules top, Accounts convert document rules top ∧
      (declarationsOf rules top).Nodup ∧
      (∀ node, node ∈ declarationsOf rules top ↔
        ∃ place ∈ document.places, place.node = node ∧ Counts place) ∧
      ∃ insertion, transform convert unit source = .ok insertion ∧
        insertion.failures = (scan convert document).failures := by
  have haccounts := accounts_ofPlace convert document
  have hperm := perm_declarationsOf_accounts haccounts
  refine ⟨_, _, haccounts, ?_, fun node => ?_,
    insertGates convert unit document, by rw [transform, h]; rfl, rfl⟩
  · have hnodup := Css.nodup_walk_of_parse h
    rw [← Css.map_node_places] at hnodup
    exact hperm.nodup_iff.mpr
      (hnodup.sublist (List.filter_sublist.map Place.node))
  · rw [hperm.mem_iff, List.mem_map]
    constructor
    · rintro ⟨place, hplace, rfl⟩
      rw [List.mem_filter] at hplace
      exact ⟨place, hplace.1, rfl, (counts_iff place).mpr hplace.2⟩
    · rintro ⟨place, hplace, rfl, hcounts⟩
      exact ⟨place, List.mem_filter.mpr ⟨hplace, (counts_iff place).mp hcounts⟩,
        rfl⟩

/-- A rule in another one, a paired rule with its gate, and a top-level
declaration. -/
theorem exists_accounts_nested :
    ∃ source document rules top,
      source = ("--x:#111;a\x7bb:#222;c\x7bd:#333\x7d\x7d" ++
        "e\x7bf:#444\x7d@supports g\x7be\x7bf:#555\x7d\x7d").toList ∧
      Css.Document.parse source = .ok document ∧
      Accounts (fun _ => some "oklch(1 0 0)".toList) document rules top ∧
      (declarationsOf rules top).Nodup ∧
      (∀ node, node ∈ declarationsOf rules top ↔
        ∃ place ∈ document.places, place.node = node ∧ Counts place) ∧
      ∃ insertion, transform (fun _ => some "oklch(1 0 0)".toList)
        [' '] source = .ok insertion ∧
        insertion.failures =
          (scan (fun _ => some "oklch(1 0 0)".toList) document).failures := by
  have hok : (Css.Document.parse ("--x:#111;a\x7bb:#222;c\x7bd:#333\x7d\x7d" ++
      "e\x7bf:#444\x7d@supports g\x7be\x7bf:#555\x7d\x7d").toList).isOk =
        true := by
    decide +kernel
  obtain ⟨document, h⟩ := Css.exists_of_isOk hok
  obtain ⟨rules, top, haccounts⟩ :=
    exists_accounts (fun _ => some "oklch(1 0 0)".toList) [' '] h
  exact ⟨_, document, rules, top, rfl, h, haccounts⟩

/-- Of a rule with a rule in it, the failures of both are not listed in the
order of the text. -/
theorem failures_not_in_order :
    ∃ document,
      Css.Document.parse "a\x7bb:#111;c\x7bd:#222\x7de:#333\x7d".toList = .ok
        document ∧ document.children.filter hasHexColor = [] ∧
        (∀ place ∈ document.places, hasHexColor place.node = true →
          Counts place) ∧
        (scan (fun _ => none) document).failures ≠
          failuresOf (fun _ => none) (Css.walk document.children) := by
  have hok : (Css.Document.parse
      "a\x7bb:#111;c\x7bd:#222\x7de:#333\x7d".toList).isOk = true := by
    decide +kernel
  obtain ⟨document, h⟩ := Css.exists_of_isOk hok
  have hfound : (Css.Document.parse
      "a\x7bb:#111;c\x7bd:#222\x7de:#333\x7d".toList).toOption.all
        (fun document =>
        (document.children.filter hasHexColor).isEmpty &&
          (document.places.all fun place =>
            !hasHexColor place.node || holdsDeclarations place.ancestors) &&
          (scan (fun _ => none) document).failures ≠
            failuresOf (fun _ => none) (Css.walk document.children)) =
              true := by
    decide +kernel
  rw [h] at hfound
  simp only [Except.toOption, Option.all_some, Bool.and_eq_true,
    List.isEmpty_iff, List.all_eq_true, Bool.or_eq_true, Bool.not_eq_true',
    decide_eq_true_eq] at hfound
  obtain ⟨⟨htop, hplaces⟩, hfailures⟩ := hfound
  refine ⟨document, h, htop, fun place hplace hcolor => ?_, hfailures⟩
  rw [counts_iff, hcolor, Bool.true_and]
  rcases hplaces place hplace with hnot | hholds
  · rw [hcolor] at hnot
    cases hnot
  · exact hholds

end OklchGate.Gate
