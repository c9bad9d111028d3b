import OklchGate.Proofs.Css.Traversal
import OklchGate.Proofs.Gate.Accounting

/-!
# The order of rows

The rows of a scan are in the order of the text rule by rule: the rules in the
order in which they start, and the declarations of a rule in theirs.  Those at
top level come last.

There are four groups.

* `Shows`, which says what a row shows of a declaration, and `RowOrigin`, a row
  with its declaration and its rule.  `RowOrigin.Belongs` says which rows there
  have to be, and `RowOrigin.Precedes` in which order.
* `originsOf`, the rows of the declarations among some nodes.
* `origins`, the rows of a style sheet: `map_row_origins`, `mem_origins_iff` and
  `pairwise_origins`.
* `rows_in_order`, for a style sheet that is read.
-/

namespace OklchGate.Gate

open Css (Place)

/-! ## Rows and their declarations -/

/-- A row shows a declaration of a hex color and what the color converts to. -/
inductive Shows (convert : Converter) (scope : Text) :
    Css.Node → Row → Prop where
  | declaration {origin : Css.Origin} {property value oklch : Text}
    {important : Bool}
      (color : isHexColor value = true)
        (converts : convert value = some oklch) :
      Shows convert scope (.leaf origin (.declaration property value important))
        ⟨scope, property, value, oklch⟩

/-- A row, the declaration that it shows, and the place of the rule of that
declaration; at top level there is no rule. -/
structure RowOrigin where
  rule : Option Place
  declaration : Css.Node
  row : Row

namespace RowOrigin

/-- The row shows a declaration of a rule that needs a gate, or one of the top
level. -/
inductive Belongs (convert : Converter) (document : Css.Document) :
    RowOrigin → Prop where
  | inRule {place : Place} {selector : Text} {declaration : Css.Node}
    {row : Row}
      (there : place ∈ document.places) (gets : Gets convert place selector)
      (child : declaration ∈ place.node.children)
      (shown : Shows convert selector declaration row) :
      Belongs convert document ⟨some place, declaration, row⟩
  | atTop {declaration : Css.Node} {row : Row}
    (child : declaration ∈ document.children)
      (shown : Shows convert rootSelector declaration row) :
      Belongs convert document ⟨none, declaration, row⟩

/-- The order of rows: by the starts of their rules, in one rule by the starts
of the declarations, and at last those of the top level by their starts. -/
inductive Precedes : RowOrigin → RowOrigin → Prop where
  | rules {place later : Place} {declaration other : Css.Node} {row next : Row}
      (starts : place.node.StartsBefore later.node) :
      Precedes ⟨some place, declaration, row⟩ ⟨some later, other, next⟩
  | inRule {place : Place} {declaration other : Css.Node} {row next : Row}
      (starts : declaration.StartsBefore other) :
      Precedes ⟨some place, declaration, row⟩ ⟨some place, other, next⟩
  | ruleThenTop {place : Place} {declaration other : Css.Node}
    {row next : Row} :
      Precedes ⟨some place, declaration, row⟩ ⟨none, other, next⟩
  | atTop {declaration other : Css.Node} {row next : Row}
      (starts : declaration.StartsBefore other) :
      Precedes ⟨none, declaration, row⟩ ⟨none, other, next⟩

end RowOrigin

/-! ## The rows of some nodes -/

/-- The row of a declaration of a hex color that converts. -/
def row? (convert : Converter) (scope : Text) (node : Css.Node) : Option Row :=
  match reading? convert node with
  | some (.ok item) => some (.ofItem scope item)
  | _ => none

theorem row?_eq_some_iff {convert : Converter} {scope : Text} {node : Css.Node}
    {row : Row} :
    row? convert scope node = some row ↔ Shows convert scope node row := by
  constructor
  · intro h
    cases node with
    | container => cases h
    | leaf origin item =>
      cases item with
      | comment => cases h
      | statement => cases h
      | declaration property value important =>
        rw [row?, reading?] at h
        by_cases hcolor : isHexColor value = true
        · rw [if_pos hcolor] at h
          cases hoklch : convert value with
          | none =>
            rw [hoklch] at h
            cases h
          | some oklch =>
            rw [hoklch] at h
            cases h
            exact .declaration hcolor hoklch
        · rw [if_neg hcolor] at h
          cases h
  · rintro ⟨hcolor, hoklch⟩
    rw [row?, reading?, if_pos hcolor, hoklch]
    rfl

theorem filterMap_row? (convert : Converter) (scope : Text)
    (nodes : List Css.Node) :
    nodes.filterMap (row? convert scope) =
      (itemsOf convert nodes).map (Row.ofItem scope) := by
  rw [itemsOf, List.map_filterMap]
  congr 1
  funext node
  rw [row?]
  rcases reading? convert node with _ | _ | _ <;> rfl

/-- The rows of the declarations among the children of a rule, or of the style
sheet. -/
def originsOf (convert : Converter) (rule : Option Place) (scope : Text)
    (nodes : List Css.Node) : List RowOrigin :=
  nodes.filterMap fun node => (row? convert scope node).map fun row =>
    ⟨rule, node, row⟩

section OriginsOf

variable {convert : Converter} {rule : Option Place} {scope : Text}
  {nodes : List Css.Node}

theorem map_row_originsOf :
    (originsOf convert rule scope nodes).map RowOrigin.row =
      (itemsOf convert nodes).map (Row.ofItem scope) := by
  rw [originsOf, List.map_filterMap, ← filterMap_row?]
  congr 1
  funext node
  rw [Option.map_map]
  exact Option.map_id_apply

theorem mem_originsOf_iff {origin : RowOrigin} :
    origin ∈ originsOf convert rule scope nodes ↔
      origin.rule = rule ∧ origin.declaration ∈ nodes ∧
        Shows convert scope origin.declaration origin.row := by
  rw [originsOf, List.mem_filterMap]
  constructor
  · rintro ⟨node, hnode, horigin⟩
    obtain ⟨row, hrow, rfl⟩ := Option.map_eq_some_iff.mp horigin
    exact ⟨rfl, hnode, row?_eq_some_iff.mp hrow⟩
  · rintro ⟨rfl, hnode, hshown⟩
    exact ⟨_, hnode, by rw [row?_eq_some_iff.mpr hshown]; rfl⟩

/-- The rows are in the order of their declarations. -/
theorem pairwise_originsOf (h : nodes.Pairwise Css.Node.StartsBefore) :
    (originsOf convert rule scope nodes).Pairwise RowOrigin.Precedes := by
  refine h.filterMap _ fun node other hstarts origin horigin next hnext => ?_
  obtain ⟨row, _, rfl⟩ := Option.map_eq_some_iff.mp horigin
  obtain ⟨nextRow, _, rfl⟩ := Option.map_eq_some_iff.mp hnext
  cases rule with
  | none => exact .atTop hstarts
  | some place => exact .inRule hstarts

end OriginsOf

/-! ## The rows of a style sheet -/

/-- The rule at a place gets a gate. -/
def isGroupAt (convert : Converter) (place : Place) : Bool :=
  isEligibleRule place && (scanAt convert place).isGroup

/-- A rule gets a gate exactly if it needs one. -/
theorem isGroupAt_iff (convert : Converter) (place : Place) :
    isGroupAt convert place = true ↔ ∃ selector,
      Gets convert place selector := by
  rw [isGroupAt, Bool.and_eq_true, isEligibleRule, isEligible_iff,
    RuleScan.isGroup, Bool.and_eq_true, Bool.not_eq_true', Bool.not_eq_true',
    List.isEmpty_eq_false_iff, Ne, scanAt, RuleScan.ofRule, itemsOf_eq_nil_iff]
  constructor
  · rintro ⟨⟨⟨selector, hselector⟩, houtside⟩, hconverts, hpaired⟩
    rw [hselector, Option.getD_some] at hpaired
    exact ⟨selector, hselector, houtside, hconverts,
      (isPaired_eq_false_iff selector place).mp hpaired⟩
  · rintro ⟨selector, hgets⟩
    rw [hgets.rule, Option.getD_some]
    exact ⟨⟨⟨selector, rfl⟩, hgets.outside⟩, hgets.converts,
      (isPaired_eq_false_iff selector place).mpr hgets.unpaired⟩

/-- The rows of the rule at a place. -/
def originsAt (convert : Converter) (place : Place) : List RowOrigin :=
  originsOf convert (some place) (place.node.selector?.getD [])
    place.node.children

/-- The rows of a style sheet: those of the rules that get a gate, and those of
the top level. -/
def origins (convert : Converter) (document : Css.Document) : List RowOrigin :=
  (document.places.filter (isGroupAt convert)).flatMap (originsAt convert) ++
    originsOf convert none rootSelector document.children

theorem groups_eq_map_scanAt (convert : Converter) (document : Css.Document) :
    (scan convert document).groups =
      (document.places.filter (isGroupAt convert)).map (scanAt convert) := by
  have hrules : (scan convert document).rules =
      (document.places.filter isEligibleRule).map (scanAt convert) :=
    (map_scanAt_placesOf convert [] document.children).symm
  rw [Scan.groups, hrules, List.filter_map, List.filter_filter]
  congr 2
  funext place
  exact Bool.and_comm _ _

/-- The rows that a scan lists. -/
theorem map_row_origins (convert : Converter) (document : Css.Document) :
    (origins convert document).map RowOrigin.row =
      (scan convert document).rows := by
  rw [origins, List.map_append, List.map_flatMap, map_row_originsOf, Scan.rows,
    groups_eq_map_scanAt, List.flatMap_map]
  congr 2
  funext place
  exact map_row_originsOf

theorem mem_origins_iff {convert : Converter} {document : Css.Document}
    {origin : RowOrigin} :
    origin ∈ origins convert document ↔ origin.Belongs convert document := by
  rw [origins, List.mem_append, List.mem_flatMap, mem_originsOf_iff]
  constructor
  · rintro (⟨place, hplace, horigin⟩ | ⟨hrule, hchild, hshown⟩)
    · obtain ⟨hthere, hgroup⟩ := List.mem_filter.mp hplace
      obtain ⟨selector, hgets⟩ := (isGroupAt_iff convert place).mp hgroup
      obtain ⟨hrule, hchild, hshown⟩ := mem_originsOf_iff.mp horigin
      rw [hgets.rule, Option.getD_some] at hshown
      obtain ⟨rule, declaration, row⟩ := origin
      cases hrule
      exact .inRule hthere hgets hchild hshown
    · obtain ⟨rule, declaration, row⟩ := origin
      cases hrule
      exact .atTop hchild hshown
  · rintro (⟨hthere, hgets, hchild, hshown⟩ | ⟨hchild, hshown⟩)
    · have hgroup := (isGroupAt_iff convert _).mpr ⟨_, hgets⟩
      refine Or.inl ⟨_, List.mem_filter.mpr ⟨hthere, hgroup⟩, ?_⟩
      refine mem_originsOf_iff.mpr ⟨rfl, hchild, ?_⟩
      rwa [hgets.rule, Option.getD_some]
    · exact Or.inr ⟨rfl, hchild, hshown⟩

/-- If a traversal meets the nodes in the order in which they start, then the
rows are in order. -/
theorem pairwise_origins (convert : Converter) {document : Css.Document}
    (h : Css.Ascending (Css.walk document.children)) :
    (origins convert document).Pairwise RowOrigin.Precedes := by
  have hplaces : document.places.Pairwise fun place later =>
      place.node.StartsBefore later.node := by
    have hordered := h.ordered
    rwa [← Css.map_node_places, List.pairwise_map] at hordered
  have htop := (h.sublist (Css.sublist_walk document.children)).ordered
  rw [origins, List.pairwise_append, List.pairwise_flatMap]
  refine ⟨⟨fun place hplace => ?_, ?_⟩, pairwise_originsOf htop, ?_⟩
  · have hnode := Css.node_of_mem_placesOf (List.mem_filter.mp hplace).1
    exact pairwise_originsOf (h.children hnode).ordered
  -- The rows of a rule all come before those of a later rule, also if that one
  -- lies in it.
  · refine (hplaces.filter _).imp fun hstarts origin horigin next hnext => ?_
    obtain ⟨hrule, _⟩ := mem_originsOf_iff.mp horigin
    obtain ⟨hlater, _⟩ := mem_originsOf_iff.mp hnext
    obtain ⟨rule, declaration, row⟩ := origin
    obtain ⟨later, other, nextRow⟩ := next
    cases hrule
    cases hlater
    exact .rules hstarts
  · intro origin horigin next hnext
    obtain ⟨place, _, horigin⟩ := List.mem_flatMap.mp horigin
    obtain ⟨hrule, _⟩ := mem_originsOf_iff.mp horigin
    obtain ⟨hnoRule, _⟩ := mem_originsOf_iff.mp hnext
    obtain ⟨rule, declaration, row⟩ := origin
    obtain ⟨noRule, other, nextRow⟩ := next
    cases hrule
    cases hnoRule
    exact .ruleThenTop

/-! ## Style sheets that are read -/

/-- A traversal of a style sheet meets each node once and in the order in which
the nodes start. A scan lists one row for each declaration that belongs to it:
rule by rule in the order in which the rules start, in a rule in the order in
which the declarations start, and at last the declarations of the top level in
theirs. -/
theorem rows_in_order (convert : Converter) {source : Text}
    {document : Css.Document} (h : Css.Document.parse source = .ok document) :
    (∃ paths, document.Visits paths (Css.walk document.children)) ∧
      Css.Ascending (Css.walk document.children) ∧
      ∃ listed : List RowOrigin,
        (scan convert document).rows = listed.map RowOrigin.row ∧
        (∀ origin, origin ∈ listed ↔ origin.Belongs convert document) ∧
        listed.Pairwise RowOrigin.Precedes := by
  have hascending := Css.ascending_walk_of_parse h
  exact ⟨⟨_, document.visits_walk⟩, hascending, origins convert document,
    (map_row_origins convert document).symm, fun _ => mem_origins_iff,
    pairwise_origins convert hascending⟩

/-- A rule with declarations before, between and after the rules in it, one of
which stands in an at-rule, and declarations of the top level around it. -/
theorem rows_in_order_nested :
    ∃ source document,
      source =
        ("--x:#111;a\x7bb:#222;c\x7bd:#333\x7de:#444;@media f\x7bg\x7bh:#555\x7d\x7d" ++
        "i:#666\x7d--y:#777").toList ∧
      Css.Document.parse source = .ok document ∧
      ((∃ paths, document.Visits paths (Css.walk document.children)) ∧
        Css.Ascending (Css.walk document.children) ∧
        ∃ listed : List RowOrigin,
          (scan (fun _ => some "oklch(1 0 0)".toList) document).rows =
            listed.map RowOrigin.row ∧
          (∀ origin, origin ∈ listed ↔
            origin.Belongs (fun _ => some "oklch(1 0 0)".toList) document) ∧
          listed.Pairwise RowOrigin.Precedes) ∧
      (scan (fun _ => some "oklch(1 0 0)".toList) document).rows.map
        Row.property =
        ["b", "e", "i", "d", "h", "--x", "--y"].map String.toList := by
  have hfound : (Css.Document.parse
      ("--x:#111;a\x7bb:#222;c\x7bd:#333\x7de:#444;@media f\x7bg\x7bh:#555\x7d\x7d" ++
        "i:#666\x7d--y:#777").toList).toOption.any (fun document =>
      (scan (fun _ => some "oklch(1 0 0)".toList) document).rows.map
        Row.property =
        ["b", "e", "i", "d", "h", "--x", "--y"].map String.toList) = true := by
    decide +kernel
  cases h : Css.Document.parse
      ("--x:#111;a\x7bb:#222;c\x7bd:#333\x7de:#444;@media f\x7bg\x7bh:#555\x7d\x7d" ++
        "i:#666\x7d--y:#777").toList with
  | error error =>
    rw [h] at hfound
    cases hfound
  | ok document =>
    rw [h] at hfound
    exact ⟨_, document, rfl, h,
      rows_in_order (fun _ => some "oklch(1 0 0)".toList) h,
      of_decide_eq_true hfound⟩

end OklchGate.Gate
