import OklchGate.Proofs.Css.OpenEnds
import OklchGate.Proofs.Gate.Printing

/-!
# The tree of the output

The output of an insertion of gates is read as the tree that the insertion left,
unless a gate copies a selector that ends in a dead backslash: before the space
of the gate it starts an escape.

There are three groups.

* `Site.Kept`, a gate that is read as it was.  `bareOf_rereadNodes_iff` says
  that nodes with their gates are read as they were exactly when the gates are.
* The gates of an ordinary style sheet.  `copies_of_mem_sitesOf` says what a
  gate copies, `KeepsBreaks` that it keeps the line breaks of that, and
  `kept_iff` which gates are read as they were.
* `output_agrees_iff`, which puts this together, and a selector that becomes an
  at-keyword.
-/

namespace OklchGate.Gate

/-! ## Gates that are read as they were -/

theorem bareOf_items (items : List Item) :
    Css.bareOf (items.map itemNode) = items.map itemNode := by
  induction items with
  | nil => rfl
  | cons item rest ih => rw [List.map_cons, Css.bareOf_cons, ih]; rfl

/-- The gate of a rule without its place. -/
theorem bare_gateNode (layout : Css.Layout) (selector : Text)
    (items : List Item) :
    (gateNode layout selector items).bare =
      gateShape (.rule selector) items := by
  have hitems := bareOf_items items
  rw [gateNode, Css.Node.bare, Css.bareOf_cons, Css.bareOf_nil, Css.Node.bare,
    hitems]
  rfl

/-- The gate of a site is read as it was. -/
def Site.Kept (setting : Setting) (site : Site) : Prop :=
  Css.bareOf (readBack (site.patch setting).text) =
    [gateShape (.rule site.scan.selector) site.scan.items]

/-- The gates of the sites that get one are read as they were. -/
def AllKept (setting : Setting) (sites : List Site) : Prop :=
  ∀ site ∈ sites, site.scan.isGroup = true → site.Kept setting

theorem allKept_append {setting : Setting} {a b : List Site} :
    AllKept setting (a ++ b) ↔ AllKept setting a ∧ AllKept setting b :=
  List.forall_mem_append

/-- The gate of a node is read as it was exactly when the gate of its site
is. -/
theorem allKept_own (setting : Setting) (inert : Bool) (origin : Css.Origin)
    (content : Option Css.Span) (head : Css.Head)
    (children following : List Css.Node) :
    AllKept setting
      ((scanHead? setting.convert inert head children following).map
        (Site.mk (.container origin content head children))).toList ↔
      Css.bareOf (readBack
        (gateText setting inert (.container origin content head children)
          following)) =
        Css.bareOf (gateFor? setting inert
          (.container origin content head children) following).toList := by
  rw [gateText, gateFor?]
  cases hrule : scanHead? setting.convert inert head children following with
  | none => exact iff_of_true (List.forall_mem_nil _) rfl
  | some rule =>
    dsimp only [Option.map_some, Option.toList_some]
    rw [AllKept, List.forall_mem_singleton]
    by_cases hgroup : rule.isGroup = true
    · rw [if_pos hgroup, Option.map_some, Option.getD_some, Option.toList_some,
        Css.bareOf_cons, Css.bareOf_nil, bare_gateNode]
      exact ⟨fun h => h hgroup, fun h _ => h⟩
    · rw [if_neg hgroup]
      exact iff_of_true (fun h => absurd h hgroup) rfl

/-- As many nodes are read of the gate of a node as were put in. -/
theorem GatesRead.length_readBack {setting : Setting} {inert : Bool}
    {node : Css.Node} {following : List Css.Node}
    (h : GatesRead setting inert (node :: following)) :
    (Css.bareOf (readBack (gateText setting inert node following))).length =
      (Css.bareOf (gateFor? setting inert node following).toList).length := by
  rw [bareOf_eq_map, bareOf_eq_map, List.length_map, List.length_map]
  rcases h.gateText_cases with ⟨hnone, hnil⟩ | ⟨hsome, hread⟩
  · rw [hnone, hnil]
    rfl
  · obtain ⟨_, _, gate, hgate, _⟩ := readsAsGate_cases hread
    obtain ⟨own, hown⟩ := Option.isSome_iff_exists.mp hsome
    rw [hgate, hown]
    rfl

mutual

theorem bare_rereadNode_iff {setting : Setting} {inert : Bool} {node : Css.Node}
    {following : List Css.Node}
    (hgates : GatesRead setting inert (node :: following)) :
    (rereadNode setting inert node).bare = (gatedNode setting inert node).bare ∧
        Css.bareOf (readBack (gateText setting inert node following)) =
          Css.bareOf (gateFor? setting inert node following).toList ↔
      AllKept setting (sitesIn setting.convert inert following node) := by
  cases node with
  | leaf origin item => exact iff_of_true ⟨rfl, rfl⟩ (List.forall_mem_nil _)
  | container origin content head children =>
    have hchildren := bareOf_rereadNodes_iff hgates.children
    rw [inertBelow, Css.Node.children] at hchildren
    rw [sitesIn, allKept_append, allKept_own, ← hchildren, rereadNode,
      gatedNode, Css.Node.bare, Css.Node.bare, Css.Node.container.injEq]
    constructor
    · rintro ⟨⟨_, _, _, hnodes⟩, hgate⟩
      exact ⟨hgate, hnodes⟩
    · rintro ⟨hgate, hnodes⟩
      exact ⟨⟨rfl, rfl, rfl, hnodes⟩, hgate⟩

/-- Nodes with their gates are read as they were exactly when the gates are. -/
theorem bareOf_rereadNodes_iff {setting : Setting} {inert : Bool}
    {nodes : List Css.Node} (hgates : GatesRead setting inert nodes) :
    Css.bareOf (rereadNodes setting inert nodes) =
      Css.bareOf (gatedNodes setting inert nodes) ↔
      AllKept setting (sitesOf setting.convert inert nodes) := by
  cases nodes with
  | nil => exact iff_of_true rfl (List.forall_mem_nil _)
  | cons node rest =>
    rw [sitesOf, allKept_append, ← bare_rereadNode_iff hgates,
      ← bareOf_rereadNodes_iff hgates.tail, rereadNodes, gatedNodes,
      Css.bareOf_cons, Css.bareOf_cons, List.cons.injEq, Css.bareOf_append,
      Css.bareOf_append, and_assoc]
    refine and_congr_right fun _ => ⟨fun h => ?_, fun h => by rw [h.1, h.2]⟩
    exact List.append_inj h hgates.length_readBack

end

/-! ## Gates that are printed for an ordinary style sheet -/

/-- The indent before an offset of an ordinary text is white space. -/
theorem white_lineIndent {source : Text} (h : Css.Ordinary source)
    (offset : Nat) :
    Css.White (lineIndent source offset) := by
  intro c hc
  have hmem : ∀ text : Text, c ∈ lastLine text → c ∈ text := by
    intro text hlast
    rw [lastLine, List.mem_reverse] at hlast
    exact List.mem_reverse.mp (List.takeWhile_subset _ hlast)
  rw [lineIndent] at hc
  split at hc
  · rename_i hblank
    exact h c (List.mem_of_mem_take (hmem _ hc))
      (List.all_eq_true.mp hblank c hc)
  · cases hc

/-- The layout of the gate of a rule of an ordinary text is white space. -/
theorem white_ruleLayout {source unit : Text} (h : Css.Ordinary source)
    (hunit : ∀ c ∈ unit, Css.isSpace c = true) (rule : Css.Node) :
    Css.White (ruleLayout source unit rule).indent ∧
      Css.White (ruleLayout source unit rule).unit := by
  refine ⟨white_lineIndent h _, ?_⟩
  rw [ruleLayout, indentUnit]
  dsimp only
  cases hunit' : rule.children.findSome? _ with
  | none => exact Css.white_of_space hunit
  | some own =>
    obtain ⟨node, _, hnode⟩ := List.exists_of_findSome?_eq_some hunit'
    split at hnode
    · obtain rfl := Option.some.inj hnode
      exact fun c hc => white_lineIndent h _ c (List.mem_of_mem_drop hc)
    · cases hnode

mutual

theorem items_of_mem_sitesIn {convert : Converter} {inert : Bool}
    {following : List Css.Node} {node : Css.Node} {site : Site}
    (h : site ∈ sitesIn convert inert following node) :
    site.scan.items = itemsOf convert site.rule.children := by
  cases node with
  | leaf origin item => cases h
  | container origin content head children =>
    rw [sitesIn, List.mem_append, Option.mem_toList,
      Option.map_eq_some_iff] at h
    rcases h with ⟨rule, hrule, rfl⟩ | h
    · rw [selector_of_scanHead? hrule, scanHead?] at hrule
      split at hrule
      · cases hrule
      · rw [← Option.some.inj hrule]
        rfl
    · exact items_of_mem_sitesOf h

/-- The items of a site are those of the children of its rule. -/
theorem items_of_mem_sitesOf {convert : Converter} {inert : Bool}
    {nodes : List Css.Node} {site : Site}
    (h : site ∈ sitesOf convert inert nodes) :
    site.scan.items = itemsOf convert site.rule.children := by
  cases nodes with
  | nil => cases h
  | cons node rest =>
    rw [sitesOf, List.mem_append] at h
    rcases h with h | h
    · exact items_of_mem_sitesIn h
    · exact items_of_mem_sitesOf h

end

/-- An item comes from a declaration whose value converts. -/
theorem exists_declaration {convert : Converter} {nodes : List Css.Node}
    {item : Item} (h : item ∈ itemsOf convert nodes) :
    ∃ origin important, .leaf origin
      (.declaration item.property item.value important) ∈ nodes ∧
      convert item.value = some item.oklch := by
  rw [itemsOf, List.mem_filterMap] at h
  obtain ⟨node, hnode, hitem⟩ := h
  split at hitem
  · rename_i own hreading
    obtain rfl := Option.some.inj hitem
    cases node with
    | container => cases hreading
    | leaf origin leaf =>
      cases leaf with
      | declaration property value important =>
        rw [reading?] at hreading
        split at hreading
        · cases hconvert : convert value with
          | none =>
            rw [hconvert] at hreading
            cases hreading
          | some oklch =>
            rw [hconvert] at hreading
            cases hreading
            exact ⟨_, _, hnode, hconvert⟩
        · cases hreading
      | comment => cases hreading
      | statement => cases hreading
  · cases hitem

/-- What a gate copies from a style sheet: a selector, properties and colors. -/
structure Copies (source selector : Text) (items : List Item) : Prop where
  selector : Css.StandsAsSelector source selector
  property : ∀ item ∈ items, Css.StandsAsProperty item.property
  value : ∀ item ∈ items, IsOklch item.oklch

/-- The line breaks of what a gate copies are printed as they are: a selector
has no other than LF, and what holds a line feed is copied only to a style sheet
that breaks its lines with LF. -/
structure KeepsBreaks (source selector : Text) (items : List Item) : Prop where
  plain : Css.Plain selector
  selector : '\n' ∈ selector → newlineStyle source = ['\n']
  property : ∀ item ∈ items, '\n' ∈ item.property → newlineStyle source = ['\n']

/-- A text is printed as it is if it holds no line feed, or the style is LF. -/
theorem rebreak_newlineStyle {source text : Text}
    (h : '\n' ∈ text → newlineStyle source = ['\n']) :
    Text.rebreak (newlineStyle source) text = text := by
  by_cases hbreak : '\n' ∈ text
  · rw [h hbreak, Text.rebreak_lf]
  · exact Text.rebreak_eq_self _ hbreak

/-- Items are printed as they are in a style sheet if no property with a line
break is written in another style than LF. -/
theorem printsAll_newlineStyle {source : Text} {items : List Item}
    (h : ∀ item ∈ items, '\n' ∈ item.property → newlineStyle source = ['\n']) :
    PrintsAll (newlineStyle source) items := by
  have hmark : newlineStyle source ≠ [] ∧ Css.White (newlineStyle source) := by
    rcases Text.newlineStyle_cases source with hstyle | hstyle | hstyle <;>
      rw [hstyle] <;> decide
  exact ⟨hmark.2, hmark.1, fun item hitem =>
    rebreak_newlineStyle (h item hitem)⟩

/-- A gate of a plain text keeps the line breaks of what it copies. -/
theorem keepsBreaks_of_plain {source selector : Text} (h : Css.Plain source)
    (hselector : Css.StandsAsSelector source selector) (items : List Item) :
    KeepsBreaks source selector items := by
  have hstyle := Text.newlineStyle_of_lf h.lf.1
  exact ⟨fun c hc => h c (hselector.subset hc), fun _ => hstyle,
    fun _ _ _ => hstyle⟩

/-- The gate of a rule of an ordinary text that keeps its line breaks is read as
a gate.  The rule in it is read as it was, but as an at-rule if its selector is
the start of an at-keyword. -/
theorem readsAsGate_site {setting : Setting}
    (hordinary : Css.Ordinary setting.source)
    (hunit : ∀ c ∈ setting.unit, Css.isSpace c = true) {site : Site}
    (h : Copies setting.source site.scan.selector site.scan.items)
    (hbreaks : KeepsBreaks setting.source site.scan.selector site.scan.items) :
    readsAsGate (site.patch setting).text = true ∧
      ∃ head, Css.bareOf (readBack (site.patch setting).text) =
        [gateShape head site.scan.items] ∧
        (site.scan.selector ∉ Css.splitSelectors ∧
          head = .rule site.scan.selector ∨
          site.scan.selector ∈ Css.splitSelectors ∧ ∃ name,
            head = .atRule name [] true) := by
  obtain ⟨hindent, hlevel⟩ := white_ruleLayout hordinary hunit site.rule
  have hread : ∀ {head : Css.Head}, Css.ReadsAsHead site.scan.selector head →
      readsAsGate (site.patch setting).text = true ∧
        Css.bareOf (readBack (site.patch setting).text) =
          [gateShape head site.scan.items] := by
    intro head hhead
    rw [Site.patch, serialize_gateNode]
    exact readsAsGate_gateLines (printsAll_newlineStyle hbreaks.property) rfl
      hindent hlevel hhead
      (rebreak_newlineStyle hbreaks.selector)
        (fun item hitem => (h.property item hitem).readsAsProperty) h.value
  by_cases hsplit : site.scan.selector ∈ Css.splitSelectors
  · obtain ⟨name, hhead⟩ := Css.readsAsHead_split hsplit
    exact ⟨(hread hhead).1, _, (hread hhead).2, Or.inr ⟨hsplit, name, rfl⟩⟩
  · have hhead := h.selector.readsAsHead hordinary hbreaks.plain hsplit
    exact ⟨(hread hhead).1, _, (hread hhead).2, Or.inl ⟨hsplit, rfl⟩⟩

/-- The gate of a rule of an ordinary text that keeps its line breaks is read as
a gate, and it is read as it was exactly when its selector is not the start of
an at-keyword. -/
theorem kept_iff {setting : Setting} (hordinary : Css.Ordinary setting.source)
    (hunit : ∀ c ∈ setting.unit, Css.isSpace c = true) {site : Site}
    (h : Copies setting.source site.scan.selector site.scan.items)
    (hbreaks : KeepsBreaks setting.source site.scan.selector site.scan.items) :
    readsAsGate (site.patch setting).text = true ∧
      (site.Kept setting ↔ site.scan.selector ∉ Css.splitSelectors) := by
  obtain ⟨hgate, head, hread, hhead⟩ :=
    readsAsGate_site hordinary hunit h hbreaks
  refine ⟨hgate, ?_⟩
  rw [Site.Kept, hread]
  rcases hhead with ⟨hsplit, rfl⟩ | ⟨hsplit, name, rfl⟩
  · exact iff_of_true rfl hsplit
  · exact iff_of_false (by simp [gateShape]) fun hno => hno hsplit

/-- The gate of a rule copies from the style sheet what stands as such in it. -/
theorem copies_of_mem_sitesOf {convert : Converter} {inert : Bool}
    {source : Text} {nodes : List Css.Node}
    (hcopied : ∀ node ∈ Css.walk nodes, node.Copied source)
    (hconvert : ∀ value oklch, convert value = some oklch → IsOklch oklch)
    {site : Site} (h : site ∈ sitesOf convert inert nodes) :
    Copies source site.scan.selector site.scan.items := by
  obtain ⟨hrule, hselector⟩ := rule_of_mem_sitesOf h
  have hitems := items_of_mem_sitesOf h
  refine ⟨?_, fun item hitem => ?_, fun item hitem => ?_⟩
  · have hstands := hcopied _ hrule
    cases hnode : site.rule with
    | leaf origin item =>
      rw [hnode] at hselector
      cases hselector
    | container origin content head children =>
      rw [hnode] at hselector hstands
      cases head with
      | rule selector =>
        rw [← Option.some.inj hselector]
        exact hstands
      | atRule => cases hselector
  · rw [hitems] at hitem
    obtain ⟨origin, important, hmem, _⟩ := exists_declaration hitem
    exact hcopied _ (Css.mem_walk_of_mem hrule hmem)
  · rw [hitems] at hitem
    obtain ⟨_, _, _, hvalue⟩ := exists_declaration hitem
    exact hconvert _ _ hvalue

/-! ## The tree of the output -/

/-- The groups of a scan are the scans of the sites that get a gate. -/
theorem forall_groups_iff (convert : Converter) (document : Css.Document)
    (p : RuleScan → Prop) :
    (∀ group ∈ (scan convert document).groups, p group) ↔
      ∀ site ∈ sitesOf convert false document.children, site.scan.isGroup =
        true → p site.scan := by
  rw [Scan.groups, scan]
  dsimp only
  rw [← map_scan_sitesOf]
  simp only [List.mem_filter, List.mem_map]
  constructor
  · exact fun h site hsite hgroup => h _ ⟨⟨site, hsite, rfl⟩, hgroup⟩
  · rintro h _ ⟨⟨site, hsite, rfl⟩, hgroup⟩
    exact h site hsite hgroup

/-- The output for a plain style sheet whose curly blocks are closed is read,
and it is read as the tree that the insertion left exactly when no rule that
gets a gate has a selector that is the start of an at-keyword. -/
theorem output_agrees_iff {convert : Converter} {unit source : Text}
    {document : Css.Document} (h : Css.Document.parse source = .ok document)
    (hcurly : Css.Token.allCurlyClosed (Css.Token.ofText source) = true)
    (hplain : Css.Plain source) (hunit : ∀ c ∈ unit, Css.isSpace c = true)
    (hconvert : ∀ value oklch, convert value = some oklch → IsOklch oklch)
    (hroot : rootGate? unit (scan convert document) = none) :
    ∃ nodes, Css.Document.parse (insertGates convert unit document).output =
        .ok ⟨(insertGates convert unit document).output, nodes⟩ ∧
      (Css.bareOf nodes =
        Css.bareOf (insertGates convert unit document).document.children ↔
        ∀ group ∈ (scan convert document).groups,
          group.selector ∉ Css.splitSelectors) := by
  obtain ⟨hfaultless, nodes, hread, rfl⟩ := Css.parse_eq_ok_iff.mp h
  obtain ⟨lead, tail, hparts, htrailing, htail⟩ :=
    Css.exists_trailing hfaultless hcurly
  have htext : Css.Part.textOf (lead ++ tail) = source := by
    rw [← hparts, Css.Part.textOf_ofText]
  rw [← Css.Part.ofText, hparts] at hread
  have hbare : Css.bareOf nodes = Css.shapesOf (lead ++ tail) := by
    have hshapes :=
      Css.bareOf_readParts [] [] (lead ++ tail) htrailing.bracedAll
    rw [List.nil_append, List.append_nil, List.length_nil, Nat.zero_add, htext,
      hread] at hshapes
    exact Option.some.inj hshapes
  have hsegmented : Css.SegmentedAll (lead ++ tail) := by
    rw [← hparts]
    exact Css.segmentedAll_group _ Css.isSegment_nil
  have hcopied := Css.copied_of_trailing htrailing htail htext hsegmented hbare
  have hsites : ∀ site ∈ sitesOf convert false nodes,
      readsAsGate (site.patch ⟨source, convert, unit⟩).text = true ∧
        (site.Kept ⟨source, convert, unit⟩ ↔
          site.scan.selector ∉ Css.splitSelectors) :=
    fun site hsite =>
      have hcopies := copies_of_mem_sitesOf hcopied hconvert hsite
      kept_iff hplain.ordinary hunit hcopies
        (keepsBreaks_of_plain hplain hcopies.selector _)
  have hgates : GatesRead ⟨source, convert, unit⟩ false nodes := by
    intro patch hpatch
    rw [sitePatches, List.mem_map] at hpatch
    obtain ⟨site, hsite, rfl⟩ := hpatch
    exact (hsites site (List.mem_filter.mp hsite).1).1
  obtain ⟨lead', tail', hplant, hlead', htail'⟩ :=
    (planted_plant (lead ++ tail) hgates).append_inv
  have hkept : tail' = tail := by
    refine htail'.eq_of_isBlock ?_
    rcases htail with rfl | ⟨first, others, rfl⟩
    · exact List.forall_mem_nil _
    · exact List.forall_mem_singleton.mpr rfl
  subst hkept
  obtain ⟨nodes', hparse, hbare'⟩ := (hlead'.trailing htrailing).parse
  have houtput : (insertGates convert unit ⟨source, nodes⟩).output =
      Css.Part.textOf (lead' ++ tail') := by
    have hlawful := htrailing.lawful
    rw [htext] at hlawful
    have hprinted :=
      textOf_plant ⟨source, convert, unit⟩ false [] [] (lead ++ tail')
      (by rw [htext, List.nil_append, List.append_nil]) hlawful
        htrailing.bracedAll
      (by rw [List.length_nil, Nat.zero_add, htext]; exact hread)
    rw [List.length_nil, Nat.zero_add, htext, hplant] at hprinted
    rw [hprinted, Insertion.output, Css.Document.toText, insertGates]
    dsimp only
    rw [hroot, Option.toList_none, List.append_nil]
  have hchildren :
    (insertGates convert unit ⟨source, nodes⟩).document.children =
      gatedNodes ⟨source, convert, unit⟩ false nodes := by
    rw [insertGates]
    dsimp only
    rw [hroot, Option.toList_none, List.append_nil]
  refine ⟨nodes', by rw [houtput]; exact hparse, ?_⟩
  rw [hbare', ← hplant, shapesOf_plant _ hgates hbare, hchildren,
    bareOf_rereadNodes_iff hgates, forall_groups_iff]
  exact forall₃_congr fun site hsite _ => (hsites site hsite).2

/-- A rule in a container, with a line break and an escape in its selector. -/
theorem output_agrees_iff_nested :
    ∃ document nodes,
      Css.Document.parse "@media b\x7ba,\n\\@c\x7bd:#000\x7d\x7d".toList = .ok
        document ∧
        Css.Document.parse
            (insertGates (fun _ => some "oklch(0.1 0.2 3)".toList)
              ['\t'] document).output =
          .ok ⟨(insertGates (fun _ => some "oklch(0.1 0.2 3)".toList)
            ['\t'] document).output, nodes⟩ ∧
        Css.bareOf nodes = Css.bareOf
          (insertGates (fun _ => some "oklch(0.1 0.2 3)".toList)
            ['\t'] document).document.children := by
  have hok : (Css.Document.parse
      "@media b\x7ba,\n\\@c\x7bd:#000\x7d\x7d".toList).isOk = true := by
    decide +kernel
  have hdocument : (Css.Document.parse
      "@media b\x7ba,\n\\@c\x7bd:#000\x7d\x7d".toList).toOption.all
        (fun document =>
        (rootGate? ['\t']
          (scan (fun _ => some "oklch(0.1 0.2 3)".toList) document)).isNone &&
        (scan (fun _ => some "oklch(0.1 0.2 3)".toList) document).groups.all
          fun group =>
          !Css.splitSelectors.contains group.selector) = true := by
    decide +kernel
  obtain ⟨document, h⟩ := Css.exists_of_isOk hok
  rw [h, Except.toOption, Option.all_some] at hdocument
  simp only [Bool.and_eq_true, List.all_eq_true, Option.isNone_iff_eq_none,
    Bool.not_eq_true', List.contains_eq_mem,
    decide_eq_false_iff_not] at hdocument
  have hoklch : IsOklch "oklch(0.1 0.2 3)".toList :=
    ⟨"0.1".toList, "0.2".toList, "3".toList, rfl, rfl, rfl, rfl⟩
  obtain ⟨nodes, hparse, hbare⟩ := output_agrees_iff h (by decide +kernel)
    (by decide) (List.all_eq_true.mp rfl)
      (fun _ _ hvalue => Option.some.inj hvalue ▸ hoklch) hdocument.1
  exact ⟨document, nodes, h, hparse, hbare.mpr hdocument.2⟩

/-- A backslash before a line feed is no escape, but it is one before the space
that a gate prints after it, and the rule in the gate is read as an at-rule. -/
theorem output_disagrees_of_dead_backslash :
    ∃ document, Css.Document.parse "@\\\n\x7bcolor:#fff\x7d".toList = .ok
      document ∧
      Css.Token.allCurlyClosed
        (Css.Token.ofText "@\\\n\x7bcolor:#fff\x7d".toList) = true ∧
      Css.Plain "@\\\n\x7bcolor:#fff\x7d".toList ∧
      rootGate? Css.defaultUnit
        (scan (fun _ => some "oklch(0.1 0.2 3)".toList) document) = none ∧
      ∀ nodes, Css.Document.parse
        (insertGates (fun _ => some "oklch(0.1 0.2 3)".toList)
            Css.defaultUnit document).output =
          .ok ⟨(insertGates (fun _ => some "oklch(0.1 0.2 3)".toList)
            Css.defaultUnit document).output, nodes⟩ →
        Css.bareOf nodes ≠
          Css.bareOf (insertGates (fun _ => some "oklch(0.1 0.2 3)".toList)
          Css.defaultUnit document).document.children := by
  have hok : (Css.Document.parse "@\\\n\x7bcolor:#fff\x7d".toList).isOk =
      true := by
    decide +kernel
  have hdocument :
    (Css.Document.parse "@\\\n\x7bcolor:#fff\x7d".toList).toOption.all
      (fun document =>
        (rootGate? Css.defaultUnit
          (scan (fun _ => some "oklch(0.1 0.2 3)".toList) document)).isNone &&
        (Css.Document.parse
          (insertGates (fun _ => some "oklch(0.1 0.2 3)".toList)
          Css.defaultUnit document).output).toOption.all fun output =>
            (Css.walk (Css.bareOf output.children)).map Css.Node.selector? ≠
              (Css.walk (Css.bareOf
                (insertGates (fun _ => some "oklch(0.1 0.2 3)".toList)
                Css.defaultUnit document).document.children)).map
                  Css.Node.selector?) = true := by
    decide +kernel
  obtain ⟨document, h⟩ := Css.exists_of_isOk hok
  rw [h, Except.toOption, Option.all_some, Bool.and_eq_true,
    Option.isNone_iff_eq_none]
    at hdocument
  refine ⟨document, h, by decide +kernel, by decide, hdocument.1,
    fun nodes hparse heq => ?_⟩
  have hselectors := hdocument.2
  rw [hparse, Except.toOption, Option.all_some,
    decide_eq_true_iff] at hselectors
  exact hselectors (by rw [heq])

end OklchGate.Gate
