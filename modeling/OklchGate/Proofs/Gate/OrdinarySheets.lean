import OklchGate.Proofs.Gate.Appending
import OklchGate.Proofs.Gate.Repeating

/-!
# Ordinary style sheets

A style sheet is ordinary when its blanks are spaces, tabs and line breaks.
If its brackets are closed, it ends no open segment, and its gates keep the
line breaks of what they copy, then every gate is read as it was printed, but
for the selectors that are the start of an at-keyword.  The conditions of the
other modules, which speak of what is read back, follow from these ones, which
speak of the source and of the scan.

There are three groups.

* What gates say in the output: `mem_rootGateProperties_rereadNodes`, what they
  declare for `:root`, and `mem_selectorsIn_site`, which selectors they name.
* `OrdinarySheet` and what follows from it: `gatesRead` and `legible`.
  `of_plain` says that plain style sheets are among them.
* The two questions for these style sheets: `appended`, where the gate for
  `:root` is always found, and `settled_iff_selectors`, where the selectors
  decide whether a second run changes nothing.
-/

namespace OklchGate.Gate

/-! ## What gates say in the output -/

mutual

theorem rereadNode_eq_self {setting : Setting} {inert : Bool} {node : Css.Node}
    {following : List Css.Node}
    (h : NoGroup (scanNode setting.convert inert following node)) :
    rereadNode setting inert node = node := by
  cases node with
  | leaf => rfl
  | container origin content head children =>
    rw [scanNode, noGroup_append] at h
    rw [rereadNode, rereadNodes_eq_self h.2]

/-- Without groups no gates are read between nodes. -/
theorem rereadNodes_eq_self {setting : Setting} {inert : Bool}
    {nodes : List Css.Node}
    (h : NoGroup (scanNodes setting.convert inert nodes)) :
    rereadNodes setting inert nodes = nodes := by
  cases nodes with
  | nil => rfl
  | cons node rest =>
    rw [scanNodes, noGroup_append] at h
    have htext : gateText setting inert node rest = [] := by
      rw [gateText, gateFor?_eq_none h.1]
      rfl
    rw [rereadNodes, rereadNode_eq_self h.1, htext, readBack_nil,
      List.nil_append, rereadNodes_eq_self h.2]

end

/-- No gate is read in a gate. -/
theorem rereadNode_gate {setting : Setting} {inert : Bool} {gate : Css.Node}
    (h : isGate gate = true) : rereadNode setting inert gate = gate := by
  have hfound := scanNode_gate setting.convert inert [] h
  exact rereadNode_eq_self (by rw [hfound]; exact noGroup_nil)

/-- The gates that are there declare their properties for `:root` with what is
read between them. -/
theorem mem_rootGateProperties_rereadNodes {setting : Setting} {inert : Bool}
    {nodes : List Css.Node} {property : Text}
    (h : property ∈ rootGateProperties nodes) :
    property ∈ rootGateProperties (rereadNodes setting inert nodes) := by
  induction nodes with
  | nil => exact h
  | cons node rest ih =>
    rw [rootGateProperties_cons, List.mem_append] at h
    rw [rereadNodes, rootGateProperties_cons, rootGateProperties_append,
      List.mem_append, List.mem_append]
    rcases h with h | h
    · left
      cases hgate : isGate node with
      | true => rwa [rereadNode_gate hgate]
      | false =>
        rw [gateProperties_of_not_isGate hgate] at h
        cases h
    · exact Or.inr (Or.inr (ih h))

/-- The gate for `:root` declares the properties of its items. -/
theorem mem_rootGateProperties_gateShape {items : List Item} {item : Item}
    (h : item ∈ items) :
    item.property ∈
      rootGateProperties [gateShape (.rule rootSelector) items] := by
  rw [← bare_gateNode { unit := [] } rootSelector items, ← Css.bareOf_nil,
    ← Css.bareOf_cons, rootGateProperties_bare]
  exact mem_rootGateProperties_gateNode h

/-- The selectors that gates name do not depend on their places. -/
theorem selectorsIn_eq_flatMap_bareOf (text : Text) :
    selectorsIn text = (Css.bareOf (readBack text)).flatMap gateSelectors := by
  rw [selectorsIn, bareOf_eq_map, List.flatMap_map]
  exact congrArg List.flatten (List.map_congr_left fun node _ =>
    (gateSelectors_bare node).symm)

/-- A gate names the selector of its rule. -/
theorem gateSelectors_gateShape_rule (selector : Text) (items : List Item) :
    gateSelectors (gateShape (.rule selector) items) = [selector] :=
  rfl

/-- A gate that holds an at-rule names no selector. -/
theorem gateSelectors_gateShape_atRule (name params : Text) (hasBlock : Bool)
    (items : List Item) :
    gateSelectors (gateShape (.atRule name params hasBlock) items) = [] :=
  rfl

/-- The gate of a rule that keeps its line breaks names the selector of the
rule, unless this is the start of an at-keyword. -/
theorem mem_selectorsIn_site {setting : Setting}
    (hordinary : Css.Ordinary setting.source)
    (hunit : ∀ c ∈ setting.unit, Css.isSpace c = true) {site : Site}
    (h : Copies setting.source site.scan.selector site.scan.items)
    (hbreaks : KeepsBreaks setting.source site.scan.selector site.scan.items) :
    site.scan.selector ∈ selectorsIn (site.patch setting).text ↔
      site.scan.selector ∉ Css.splitSelectors := by
  obtain ⟨_, head, hread, hhead⟩ := readsAsGate_site hordinary hunit h hbreaks
  rw [selectorsIn_eq_flatMap_bareOf, hread, List.flatMap_singleton]
  rcases hhead with ⟨hsplit, rfl⟩ | ⟨hsplit, name, rfl⟩
  · rw [gateSelectors_gateShape_rule]
    exact iff_of_true (List.mem_singleton_self _) hsplit
  · rw [gateSelectors_gateShape_atRule]
    exact iff_of_false List.not_mem_nil fun hno => hno hsplit

/-! ## Ordinary style sheets -/

/-- A style sheet with ordinary blanks that is closed, that ends no open segment
if a gate for `:root` follows, and whose gates keep the line breaks of what they
copy. -/
structure OrdinarySheet (convert : Converter) (unit source : Text)
    (document : Css.Document) : Prop where
  reads : Css.Document.parse source = .ok document
  indents : ∀ c ∈ unit, Css.isSpace c = true
  converts : ∀ value oklch, convert value = some oklch → IsOklch oklch
  closed : Css.Token.allClosed (Css.Token.ofText source) = true
  ended : (rootGate? unit (scan convert document)).isSome = true →
    Css.Token.endsOpen false (Css.Token.ofText source) = false
  blanks : Css.Ordinary source
  groups : ∀ group ∈ (scan convert document).groups,
    KeepsBreaks source group.selector group.items
  names : ∀ item ∈ (scan convert document).rootItems, '\n' ∈ item.property →
    newlineStyle source = ['\n']

namespace OrdinarySheet

variable {convert : Converter} {unit source : Text} {document : Css.Document}

/-- Closed plain style sheets that end no open segment are ordinary: they break
their lines with LF, and so do the gates. -/
theorem of_plain (h : Css.Document.parse source = .ok document)
    (hunit : ∀ c ∈ unit, Css.isSpace c = true)
    (hconvert : ∀ value oklch, convert value = some oklch → IsOklch oklch)
    (hclosed : Css.Token.allClosed (Css.Token.ofText source) = true)
    (hended : (rootGate? unit (scan convert document)).isSome = true →
      Css.Token.endsOpen false (Css.Token.ofText source) = false)
    (hplain : Css.Plain source) :
    OrdinarySheet convert unit source document where
  reads := h
  indents := hunit
  converts := hconvert
  closed := hclosed
  ended := hended
  blanks := hplain.ordinary
  groups := by
    rw [forall_groups_iff]
    intro site hsite _
    have hcopies :=
      copies_of_mem_sitesOf (Css.copied_of_parse h hclosed) hconvert hsite
    exact keepsBreaks_of_plain hplain hcopies.selector _
  names := fun _ _ _ => Text.newlineStyle_of_lf hplain.lf.1

theorem copies (h : OrdinarySheet convert unit source document) {site : Site}
    (hsite : site ∈ sitesOf convert false document.children) :
    Copies source site.scan.selector site.scan.items :=
  copies_of_mem_sitesOf (Css.copied_of_parse h.reads h.closed) h.converts hsite

theorem keepsBreaks (h : OrdinarySheet convert unit source document)
    {site : Site} (hsite : site ∈ sitesOf convert false document.children)
    (hgroup : site.scan.isGroup = true) :
    KeepsBreaks source site.scan.selector site.scan.items :=
  (forall_groups_iff convert document _).mp h.groups site hsite hgroup

theorem gatesRead (h : OrdinarySheet convert unit source document) :
    GatesRead ⟨source, convert, unit⟩ false document.children := by
  intro patch hpatch
  rw [sitePatches, List.mem_map] at hpatch
  obtain ⟨site, hsite, rfl⟩ := hpatch
  rw [List.mem_filter] at hsite
  exact (readsAsGate_site h.blanks h.indents (h.copies hsite.1)
    (h.keepsBreaks hsite.1 hsite.2)).1

/-- The gates of an ordinary style sheet can be told apart. -/
theorem legible (h : OrdinarySheet convert unit source document) :
    Legible convert unit document :=
  legible_of_gatesRead h.reads h.indents h.converts h.closed h.ended
    h.gatesRead h.names

theorem mem_selectorsIn_iff (h : OrdinarySheet convert unit source document)
    {site : Site} (hsite : site ∈ sitesOf convert false document.children)
    (hgroup : site.scan.isGroup = true) :
    site.scan.selector ∈ selectorsIn (site.patch ⟨source, convert, unit⟩).text ↔
      site.scan.selector ∉ Css.splitSelectors :=
  mem_selectorsIn_site h.blanks h.indents (h.copies hsite)
    (h.keepsBreaks hsite hgroup)

/-- The output declares the property of each top-level item for `:root`. -/
theorem mem_rootGateProperties (h : OrdinarySheet convert unit source document)
    {item : Item} (hitem : item ∈ itemsOf convert document.children) :
    item.property ∈ rootGateProperties (outputNodes convert unit document) := by
  rw [outputNodes, rootGateProperties_append, List.mem_append]
  cases hroot : rootGate? unit (scan convert document) with
  | none =>
    left
    rw [rootGate?_eq_none_iff] at hroot
    exact mem_rootGateProperties_rereadNodes (hroot item hitem)
  | some gate =>
    right
    have hcopied := Css.copied_of_parse h.reads h.closed
    obtain rfl : document.source = source := (Css.tiles_of_parse h.reads).1
    obtain ⟨_, hread⟩ := readsAsGate_rootText h.indents h.converts hcopied
      (Option.isSome_iff_exists.mpr ⟨gate, hroot⟩) h.names
    rw [← rootGateProperties_bare, hread]
    exact mem_rootGateProperties_gateShape hitem

/-! ## The gate for `:root` and the second run -/

/-- The gate for `:root`, if there is one, is appended as it should be. -/
theorem appended (h : OrdinarySheet convert unit source document)
    (hroot : (rootGate? unit (scan convert document)).isSome = true) :
    ∃ nodes, Appended convert unit document nodes := by
  have hcopied := Css.copied_of_parse h.reads h.closed
  have hlegible := h.legible
  obtain rfl : document.source = source := (Css.tiles_of_parse h.reads).1
  exact (appended_iff h.reads hlegible hroot).mpr
    (readsAsGate_rootText h.indents h.converts hcopied hroot h.names).2

/-- A second run over the output for an ordinary style sheet changes nothing,
unless a rule that gets a gate has a selector that is the start of an
at-keyword. -/
theorem settled_iff_selectors (h : OrdinarySheet convert unit source document) :
    Settled convert unit source ↔
      ∀ group ∈ (scan convert document).groups,
        group.selector ∉ Css.splitSelectors := by
  rw [settled_iff_of_legible h.reads h.legible, forall_groups_iff,
    and_iff_left fun item hitem => h.mem_rootGateProperties hitem]
  exact forall₃_congr fun site hsite hgroup =>
    h.mem_selectorsIn_iff hsite hgroup

/-- A rule in a container and a declaration, in lines that end with CR LF. -/
theorem settled_of_carriage_returns :
    Settled (fun _ => some "oklch(0.1 0.2 3)".toList) ['\t']
      "--x:#fff;\r\n@media b \x7b\r\n\ta\x7bc:#000\x7d\r\n\x7d\r\n".toList := by
  obtain ⟨source, hsource⟩ : ∃ source, source =
      "--x:#fff;\r\n@media b \x7b\r\n\ta\x7bc:#000\x7d\r\n\x7d\r\n".toList :=
        ⟨_, rfl⟩
  obtain ⟨found, hfound⟩ : ∃ found : Css.Document → Scan, found =
      scan fun _ => some "oklch(0.1 0.2 3)".toList := ⟨_, rfl⟩
  have hok : (Css.Document.parse source).isOk = true := by
    rw [hsource]
    decide +kernel
  have hdocument : (Css.Document.parse source).toOption.all (fun document =>
        ((found document).groups.all fun group =>
          !Css.splitSelectors.contains group.selector &&
            decide (Css.Plain group.selector) &&
              !group.selector.contains '\n' &&
            group.items.all fun item => !item.property.contains '\n') &&
        (found document).rootItems.all fun item =>
          !item.property.contains '\n') = true := by
    rw [hsource, hfound]
    decide +kernel
  obtain ⟨document, h⟩ := Css.exists_of_isOk hok
  rw [h, Except.toOption, Option.all_some] at hdocument
  simp only [Bool.and_eq_true, List.all_eq_true, Bool.not_eq_true',
    List.contains_eq_mem, decide_eq_false_iff_not,
    decide_eq_true_iff] at hdocument
  subst hfound
  have hoklch : IsOklch "oklch(0.1 0.2 3)".toList :=
    ⟨"0.1".toList, "0.2".toList, "3".toList, rfl, rfl, rfl, rfl⟩
  have hsheet : OrdinarySheet (fun _ => some "oklch(0.1 0.2 3)".toList)
    ['\t'] source document :=
    { reads := h
      indents := List.all_eq_true.mp rfl
      converts := fun _ _ hvalue => Option.some.inj hvalue ▸ hoklch
      closed := by rw [hsource]; decide +kernel
      ended := fun _ => by rw [hsource]; decide +kernel
      blanks := by rw [hsource]; decide
      groups := fun group hgroup =>
        have hlines := hdocument.1 group hgroup
        { plain := hlines.1.1.2
          selector := fun hbreak => absurd hbreak hlines.1.2
          property := fun item hitem hbreak =>
            absurd hbreak (hlines.2 item hitem) }
      names := fun item hitem hbreak => absurd hbreak (hdocument.2 item hitem) }
  rw [← hsource, hsheet.settled_iff_selectors]
  exact fun group hgroup => (hdocument.1 group hgroup).1.1.1

end OrdinarySheet

end OklchGate.Gate
