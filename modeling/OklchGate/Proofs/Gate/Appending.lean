import OklchGate.Proofs.Gate.Agreement

/-!
# The gate for `:root` after the last node

The gate for `:root` is put in after the last node of a style sheet.  The nodes
of the style sheet stay what they are, and the gate is the last node, if nothing
is open there.

There are three groups.

* `Node.data`, what a node says without the nodes below it, and
  `sublist_rereadNodes`: nodes stay what they are among nodes with their gates.
* `Appended`, and `appended_iff`, which says when the gate is appended as it
  should be, provided that the gates are `Legible`.
* What the gate copies: `readsAsGate_rootText` says that it is read as it was,
  and `exists_appended` that it is appended as it should be.
-/

namespace OklchGate

/-! ## What a node says -/

namespace Css

/-- What a node says, without the nodes below it. -/
def Node.data : Node → Leaf ⊕ Head
  | leaf _ item => .inl item
  | container _ _ head _ => .inr head

theorem Node.data_bare (node : Node) : node.bare.data = node.data := by
  cases node <;> rfl

theorem map_data_bareOf (nodes : List Node) :
    (bareOf nodes).map Node.data = nodes.map Node.data := by
  induction nodes with
  | nil => rfl
  | cons node rest ih =>
    rw [bareOf_cons, List.map_cons, List.map_cons, ih, node.data_bare]

end Css

namespace Gate

/-! ## The nodes of the source among those of the output -/

theorem data_rereadNode (setting : Setting) (inert : Bool) (node : Css.Node) :
    (rereadNode setting inert node).data = node.data := by
  cases node <;> rfl

/-- Nodes say the same among the nodes that they are read as with their
gates. -/
theorem sublist_rereadNodes (setting : Setting) (inert : Bool)
    (nodes : List Css.Node) :
    (nodes.map Css.Node.data).Sublist
      ((rereadNodes setting inert nodes).map Css.Node.data) := by
  induction nodes with
  | nil => exact .slnil
  | cons node rest ih =>
    rw [rereadNodes, List.map_cons, List.map_cons, List.map_append,
      data_rereadNode]
    exact .cons_cons _ (ih.trans (List.sublist_append_right _ _))

/-- The last of some nodes that is no comment. -/
def lastSignificant? (nodes : List Css.Node) : Option Css.Node :=
  Css.firstSignificant? nodes.reverse

theorem lastSignificant?_append (nodes : List Css.Node) {node : Css.Node}
    (h : node.isComment = false) :
    lastSignificant? (nodes ++ [node]) = some node := by
  rw [lastSignificant?, List.reverse_append, List.reverse_singleton,
    List.singleton_append, Css.firstSignificant?, List.find?_cons, h]
  rfl

theorem lastSignificant?_bareOf (nodes : List Css.Node) :
    lastSignificant? (Css.bareOf nodes) =
      (lastSignificant? nodes).map Css.Node.bare := by
  rw [lastSignificant?, lastSignificant?, Css.firstSignificant?,
    Css.firstSignificant?, bareOf_eq_map, ← List.map_reverse, List.find?_map]
  congr 2
  funext node
  exact congrArg _ (isComment_bare node)

/-! ## Appending the gate -/

/-- The output of an insertion is read, all top-level nodes of the source are
among its nodes in order, and the last one that is no comment is the gate for
`:root`. -/
structure Appended (convert : Converter) (unit : Text) (document : Css.Document)
    (nodes : List Css.Node) : Prop where
  reads : Css.Document.parse (insertGates convert unit document).output =
    .ok ⟨(insertGates convert unit document).output, nodes⟩
  keeps : (document.children.map Css.Node.data).Sublist
    (nodes.map Css.Node.data)
  ends : (lastSignificant? nodes).map Css.Node.bare =
    some (gateShape (.rule rootSelector) (scan convert document).rootItems)

/-- If the gates can be told apart, the gate for `:root` is appended as it
should be exactly when it is read as it was. -/
theorem appended_iff {convert : Converter} {unit source : Text}
    {document : Css.Document} (h : Css.Document.parse source = .ok document)
    (hlegible : Legible convert unit document)
    (hroot : (rootGate? unit (scan convert document)).isSome = true) :
    (∃ nodes, Appended convert unit document nodes) ↔
      Css.bareOf (readBack (rootText convert unit document)) =
        [gateShape (.rule rootSelector) (scan convert document).rootItems] := by
  obtain ⟨nodes, hparse, hbare⟩ := parse_output convert unit h hlegible
  obtain ⟨gate, hread, hgate⟩ :
      ∃ gate, readBack (rootText convert unit document) = [gate] ∧ isGate gate =
        true := by
    rcases rootText_cases convert unit document with
      ⟨hnone, _⟩ | ⟨_, _, patch, hpatch, htext⟩
    · rw [hnone] at hroot
      cases hroot
    · rw [← htext]
      exact (readsAsGate_cases (hlegible.gates patch hpatch)).2.2
  have hlast : (lastSignificant? nodes).map Css.Node.bare = some gate.bare := by
    have hcomment : gate.isComment = false := by
      cases gate with
      | leaf => cases hgate
      | container => rfl
    rw [← lastSignificant?_bareOf, hbare, outputNodes, hread,
      lastSignificant?_bareOf, lastSignificant?_append _ hcomment]
    rfl
  rw [hread, Css.bareOf_cons, Css.bareOf_nil, List.cons.injEq, and_iff_left rfl]
  constructor
  · rintro ⟨others, hothers⟩
    have hreads := hothers.reads
    rw [hparse] at hreads
    cases hreads
    have hends := hothers.ends
    rw [hlast] at hends
    exact Option.some.inj hends
  · intro hshape
    refine ⟨nodes, hparse, ?_, by rw [hlast, hshape]⟩
    rw [← Css.map_data_bareOf nodes, hbare, Css.map_data_bareOf, outputNodes,
      List.map_append]
    exact (sublist_rereadNodes _ _ _).trans (List.sublist_append_left _ _)

/-! ## What the gate copies -/

/-- The trees of the selector `:root` and the space after it. -/
def rootTrees : List Css.Tree :=
  [.leaf (Css.same ⟨.delimiter, [':']⟩),
    .leaf (Css.same ⟨.identifier "root".toList, "root".toList⟩),
    .leaf (Css.same ⟨.space, [' ']⟩)]

/-- The selector `:root` is read as the selector of a rule. -/
theorem readsAsHead_root :
    Css.ReadsAsHead rootSelector (.rule rootSelector) := by
  refine Css.readsAsHead_of_leads (by decide) (by decide) rfl
    (by rintro _ ⟨⟩; rfl) fun t => ?_
  have hread : Css.Lexeme.ofText
    (rootSelector ++ [' '] ++ normalizeBreaks ('\x7b' :: t)) =
      [⟨.delimiter, [':']⟩, ⟨.identifier "root".toList, "root".toList⟩,
        ⟨.space, [' ']⟩] ++
        Css.Lexeme.ofText (normalizeBreaks ('\x7b' :: t)) := rfl
  have hwhole : Css.Tree.WholeAll rootTrees :=
    ⟨Css.whole_leaf (by decide), Css.whole_leaf (by decide),
      Css.whole_leaf (by decide), trivial⟩
  exact ⟨rootTrees, Css.spells_of_lexemes (by decide) rfl rfl hread rfl hwhole,
    ⟨⟨by decide, by decide⟩, by decide⟩⟩

/-- What is copied of the top-level declarations of a style sheet is read as it
was. -/
theorem readsAsGate_rootText {convert : Converter} {unit : Text}
    {document : Css.Document} (hunit : ∀ c ∈ unit, Css.isSpace c = true)
    (hconvert : ∀ value oklch, convert value = some oklch → IsOklch oklch)
    (hcopied : ∀ node ∈ Css.walk document.children, node.Copied document.source)
    (hroot : (rootGate? unit (scan convert document)).isSome = true)
    (hnames : ∀ item ∈ (scan convert document).rootItems, '\n' ∈ item.property →
      newlineStyle document.source = ['\n']) :
    readsAsGate (rootText convert unit document) = true ∧
      Css.bareOf (readBack (rootText convert unit document)) =
        [gateShape (.rule rootSelector) (scan convert document).rootItems] := by
  have htext : rootText convert unit document =
      Text.rebreak (newlineStyle document.source)
        (gateLines { before := ['\n'], unit := unit }
        rootSelector (scan convert document).rootItems) := by
    rw [rootText]
    rw [rootGate?] at hroot ⊢
    split at hroot
    · cases hroot
    · rename_i hneeded
      rw [if_neg hneeded, Option.map_some, Option.getD_some, serialize_gateNode]
  have hitem : ∀ item ∈ (scan convert document).rootItems,
      Css.ReadsAsProperty item.property ∧ IsOklch item.oklch := by
    intro item hitem
    obtain ⟨origin, important, hmem, hvalue⟩ := exists_declaration hitem
    have hstands : Css.StandsAsProperty item.property :=
      hcopied _ (Css.mem_walk hmem)
    exact ⟨hstands.readsAsProperty, hconvert _ _ hvalue⟩
  have hselector : Text.rebreak (newlineStyle document.source) rootSelector =
      rootSelector :=
    Text.rebreak_eq_self _ (by decide)
  rw [htext]
  exact readsAsGate_gateLines (printsAll_newlineStyle hnames) rfl Css.white_nil
    (Css.white_of_space hunit) readsAsHead_root hselector
    (fun item hmem => (hitem item hmem).1) fun item hmem => (hitem item hmem).2

/-- The gates can be told apart if those of rules can, and the gate for `:root`
is printed as it is and comes after no open segment. -/
theorem legible_of_gatesRead {convert : Converter} {unit source : Text}
    {document : Css.Document} (h : Css.Document.parse source = .ok document)
    (hunit : ∀ c ∈ unit, Css.isSpace c = true)
    (hconvert : ∀ value oklch, convert value = some oklch → IsOklch oklch)
    (hclosed : Css.Token.allClosed (Css.Token.ofText source) = true)
    (hended : (rootGate? unit (scan convert document)).isSome = true →
      Css.Token.endsOpen false (Css.Token.ofText source) = false)
    (hgates : GatesRead ⟨source, convert, unit⟩ false document.children)
    (hnames : ∀ item ∈ (scan convert document).rootItems, '\n' ∈ item.property →
      newlineStyle source = ['\n']) :
    Legible convert unit document := by
  have hcopied := Css.copied_of_parse h hclosed
  obtain rfl : document.source = source := (Css.tiles_of_parse h).1
  refine ⟨hclosed, fun patch hpatch => ?_, hended⟩
  rw [patches, List.mem_append] at hpatch
  rcases hpatch with hpatch | hpatch
  · exact hgates patch hpatch
  · rw [rootPatch?, Option.mem_toList, Option.map_eq_some_iff] at hpatch
    obtain ⟨gate, hgate, rfl⟩ := hpatch
    have hroot := readsAsGate_rootText hunit hconvert hcopied
      (Option.isSome_iff_exists.mpr ⟨gate, hgate⟩) hnames
    rw [rootText, hgate] at hroot
    exact hroot.1

/-- The gate for `:root` is appended as it should be to every well-formed style
sheet that ends no open segment, if the gates of its rules are read as gates,
and if no property with a line break in its name is copied in another style of
line breaks than LF. -/
theorem exists_appended {convert : Converter} {unit source : Text}
    {document : Css.Document} (h : Css.Document.parse source = .ok document)
    (hunit : ∀ c ∈ unit, Css.isSpace c = true)
    (hconvert : ∀ value oklch, convert value = some oklch → IsOklch oklch)
    (hroot : (rootGate? unit (scan convert document)).isSome = true)
    (hclosed : Css.Token.allClosed (Css.Token.ofText source) = true)
    (hended : Css.Token.endsOpen false (Css.Token.ofText source) = false)
    (hgates : GatesRead ⟨source, convert, unit⟩ false document.children)
    (hnames : ∀ item ∈ (scan convert document).rootItems, '\n' ∈ item.property →
      newlineStyle source = ['\n']) :
    ∃ nodes, Appended convert unit document nodes := by
  have hlegible :=
    legible_of_gatesRead h hunit hconvert hclosed (fun _ => hended) hgates
    hnames
  have hcopied := Css.copied_of_parse h hclosed
  obtain rfl : document.source = source := (Css.tiles_of_parse h).1
  exact (appended_iff h hlegible hroot).mpr
    (readsAsGate_rootText hunit hconvert hcopied hroot hnames).2

/-- A source that breaks its lines with CR LF, with a rule that gets a gate too
and a comment that holds another blank. -/
theorem exists_appended_nested :
    ∃ document nodes,
      Css.Document.parse
          "--x:#fff;\r\n@media b\x7ba\x7bc:#000\x7d\x7d/*\u00a0*/ ".toList = .ok
            document ∧
        Appended (fun _ => some "oklch(0.1 0.2 3)".toList) ['\t'] document
          nodes := by
  have hok : (Css.Document.parse
      "--x:#fff;\r\n@media b\x7ba\x7bc:#000\x7d\x7d/*\u00a0*/ ".toList).isOk =
        true := by
    decide +kernel
  have hdocument : (Css.Document.parse
      "--x:#fff;\r\n@media b\x7ba\x7bc:#000\x7d\x7d/*\u00a0*/ ".toList).toOption.all
        (fun document =>
          (rootGate? ['\t']
            (scan (fun _ => some "oklch(0.1 0.2 3)".toList) document)).isSome &&
          ((sitePatches
            ⟨"--x:#fff;\r\n@media b\x7ba\x7bc:#000\x7d\x7d/*\u00a0*/ ".toList,
              fun _ => some "oklch(0.1 0.2 3)".toList, ['\t']⟩
            (sitesOf (fun _ => some "oklch(0.1 0.2 3)".toList) false
              document.children)).all fun patch => readsAsGate patch.text) &&
          (scan (fun _ => some "oklch(0.1 0.2 3)".toList)
            document).rootItems.all fun item =>
            !item.property.contains '\n') = true := by
    decide +kernel
  obtain ⟨document, h⟩ := Css.exists_of_isOk hok
  rw [h, Except.toOption, Option.all_some] at hdocument
  simp only [Bool.and_eq_true, List.all_eq_true, Bool.not_eq_true',
    List.contains_eq_mem, decide_eq_false_iff_not] at hdocument
  obtain ⟨⟨hroot, hgates⟩, hnames⟩ := hdocument
  have hoklch : IsOklch "oklch(0.1 0.2 3)".toList :=
    ⟨"0.1".toList, "0.2".toList, "3".toList, rfl, rfl, rfl, rfl⟩
  obtain ⟨nodes, hnodes⟩ := exists_appended h (List.all_eq_true.mp rfl)
    (fun _ _ hvalue => Option.some.inj hvalue ▸ hoklch) hroot
      (by decide +kernel)
    (by decide +kernel) hgates fun item hitem hbreak =>
      absurd hbreak (hnames item hitem)
  exact ⟨document, nodes, h, hnodes⟩

/-- A declaration that no semicolon ends becomes the selector of a rule when the
gate follows it. -/
theorem not_appended_of_open_declaration :
    ∃ document, Css.Document.parse "--x:#fff".toList = .ok document ∧
      Css.Plain "--x:#fff".toList ∧
      Css.Token.allClosed (Css.Token.ofText "--x:#fff".toList) = true ∧
      (rootGate? Css.defaultUnit
        (scan (fun _ => some "oklch(0.1 0.2 3)".toList) document)).isSome =
        true ∧
      ¬ ∃ nodes, Appended (fun _ => some "oklch(0.1 0.2 3)".toList)
        Css.defaultUnit document
          nodes := by
  have hok : (Css.Document.parse "--x:#fff".toList).isOk = true := by
    decide +kernel
  have hdocument :
    (Css.Document.parse "--x:#fff".toList).toOption.all (fun document =>
        (rootGate? Css.defaultUnit
          (scan (fun _ => some "oklch(0.1 0.2 3)".toList) document)).isSome &&
        (Css.Document.parse
          (insertGates (fun _ => some "oklch(0.1 0.2 3)".toList)
          Css.defaultUnit document).output).toOption.all fun output =>
            (lastSignificant? output.children).all Css.Node.isRule) = true := by
    decide +kernel
  obtain ⟨document, h⟩ := Css.exists_of_isOk hok
  rw [h, Except.toOption, Option.all_some, Bool.and_eq_true] at hdocument
  refine ⟨document, h, by decide, by decide +kernel, hdocument.1, ?_⟩
  rintro ⟨nodes, hnodes⟩
  have hrule := hdocument.2
  rw [hnodes.reads, Except.toOption, Option.all_some] at hrule
  have hends := hnodes.ends
  cases hlast : lastSignificant? nodes with
  | none =>
    rw [hlast] at hends
    cases hends
  | some node =>
    rw [hlast, Option.map_some, Option.some.injEq] at hends
    rw [hlast, Option.all_some, Css.Node.isRule, ← selector?_bare,
      hends] at hrule
    cases hrule

end Gate

end OklchGate
