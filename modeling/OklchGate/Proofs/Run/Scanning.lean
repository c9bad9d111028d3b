import OklchGate.Proofs.Gate.Grouping
import OklchGate.Proofs.Run.Processing

/-!
# Scanning and converting

A scan of a file lists the colors that a conversion writes into gates, and those
for which there is a gate already.

* `Generates`: the pairs that the generated gates of a source declare.
* `Withheld`: the rows that are scanned and not converted, by kind.
* `Agrees` and its two cases, `agrees_insertGates` for style sheets and
  `agrees_transform` for mapping literals.
* `scanFile_agrees`, about files.
-/

namespace OklchGate

/-! ## What generated gates declare -/

namespace Gate

/-- The property of a row with the text that its color converts to. -/
def Row.pair (row : Row) : Text × Text := (row.property, row.oklch)

/-- The property of an item with the text that its color converts to. -/
def Item.pair (item : Item) : Text × Text := (item.property, item.oklch)

/-- The property and the value of a generated declaration. -/
def generatedPair? : Css.Node → Option (Text × Text)
  | .leaf (.generated _) (.declaration property value _) =>
    some (property, value)
  | _ => none

theorem filterMap_items (items : List Item) :
    (items.map itemNode).filterMap generatedPair? = items.map Item.pair := by
  rw [List.filterMap_map, ← List.filterMap_eq_map]
  rfl

/-- The declarations of a gate are those of its items. -/
theorem yieldsParts_pairs :
    YieldsParts generatedPair? fun rule => rule.items.map Item.pair where
  read := by
    rintro (⟨_ | _, _ | _ | _⟩ | ⟨_ | _, _, _ | _, _⟩) h <;>
      first | rfl | cases h
  gate := by
    intro layout rule
    rw [walk_gateNode, List.filterMap_cons_none rfl,
      List.filterMap_cons_none rfl, filterMap_items]

theorem pairs_rows (scope : Text) (items : List Item) :
    (items.map (Row.ofItem scope)).map Row.pair = items.map Item.pair := by
  rw [List.map_map]
  rfl

end Gate

namespace Mapping

/-- The row of an entry. -/
def Entry.row (entry : Entry) : Gate.Row :=
  ⟨[], entry.key, entry.hex, entry.oklch⟩

/-- The pairs of the lines in the gated entry that is inserted, if one is. -/
inductive Outcome.Declares : Outcome → List (Text × Text) → Prop where
  | alreadyProcessed : Declares .alreadyProcessed []
  | untouched (failures : List Text) : Declares (.untouched failures) []
  | changed (entries : List Entry) (failures : List Text) (offset : Nat)
    (indent newline : Text) :
      Declares (.changed entries failures offset
        (newline ++ block entries indent newline))
        ((sorted entries).map fun entry => (entry.key, entry.oklch))

end Mapping

/-- An insertion makes this output of a source, and the gates that it generates
declare these pairs. -/
def Generates (convert : Converter) (config : Config) (source output : Text)
    (pairs : List (Text × Text)) : Kind → Prop
  | .styleSheet => ∃ insertion,
      Gate.transform convert config.defaultIndent source = .ok insertion ∧
        output = insertion.output ∧
        pairs = (Css.walk insertion.document.children).filterMap
          Gate.generatedPair?
  | .mapping => ∃ outcome,
      Mapping.transform convert source = .ok outcome ∧
        output = outcome.output source ∧ outcome.Declares pairs

/-! ## What is scanned and not converted -/

/-- The rows of a source that a scan lists although a gate declares them
already: the rows of the top-level declarations of a style sheet if gates for
`:root` declare the property of each of them, and all rows of a mapping literal
with the gate key. -/
inductive Withheld (convert : Converter) (source : Text) :
    Kind → List Gate.Row → Prop where
  | paired {document : Css.Document}
    (parse : Css.Document.parse source = .ok document)
      (declared : ∀ item ∈ Gate.itemsOf convert document.children,
        item.property ∈ Gate.rootGateProperties document.children) :
      Withheld convert source .styleSheet
        ((Gate.itemsOf convert document.children).map
          (Gate.Row.ofItem Gate.rootSelector))
  | unpaired {document : Css.Document}
    (parse : Css.Document.parse source = .ok document)
      (undeclared : ∃ item ∈ Gate.itemsOf convert document.children,
        item.property ∉ Gate.rootGateProperties document.children) :
      Withheld convert source .styleSheet []
  | gated (key : Mapping.gateKey <:+: source) :
      Withheld convert source .mapping
        ((Mapping.scan convert source).entries.map Mapping.Entry.row)
  | ungated (noKey : ¬ Mapping.gateKey <:+: source) :
    Withheld convert source .mapping []

/-- The colors of a source that are converted are these rows, and these others
are scanned with them. -/
structure Agrees (convert : Converter) (config : Config) (source : Text)
    (kind : Kind) (done : Converted) (converted withheld : List Gate.Row) :
    Prop where
  colors : done.colors = converted.length
  written : ∃ pairs, Generates convert config source done.output pairs kind ∧
    pairs.Perm (converted.map Gate.Row.pair)
  withheld : Withheld convert source kind withheld

/-! ## Style sheets -/

namespace Gate

/-- There is a gate for `:root` exactly if some top-level item has its property
in none. -/
theorem rootGate?_cases (convert : Converter) (unit : Text)
    (document : Css.Document) :
    ((∀ item ∈ itemsOf convert document.children,
        item.property ∈ rootGateProperties document.children) ∧
      rootGate? unit (scan convert document) = none) ∨
    ((∃ item ∈ itemsOf convert document.children,
        item.property ∉ rootGateProperties document.children) ∧
      rootGate? unit (scan convert document) =
        some (gateNode { before := ['\n'], unit }
        rootSelector (itemsOf convert document.children))) := by
  by_cases hall : ∀ item ∈ itemsOf convert document.children,
      item.property ∈ rootGateProperties document.children
  · left
    refine ⟨hall, ?_⟩
    have hdeclared : (itemsOf convert document.children).all (fun item =>
        (rootGateProperties document.children).contains item.property) =
          true := by
      rw [List.all_eq_true]
      exact fun item hitem => List.contains_iff_mem.mpr (hall item hitem)
    rw [rootGate?, if_pos]
    show ((itemsOf convert document.children).isEmpty ||
      (!(itemsOf convert document.children).isEmpty && _)) = true
    rw [hdeclared]
    cases (itemsOf convert document.children).isEmpty <;> rfl
  · right
    have hsome : ∃ item ∈ itemsOf convert document.children,
        item.property ∉ rootGateProperties document.children := by
      simpa using hall
    refine ⟨hsome, ?_⟩
    obtain ⟨item, hitem, hproperty⟩ := hsome
    have hdeclared : (itemsOf convert document.children).all (fun item =>
        (rootGateProperties document.children).contains item.property) =
          false := by
      rw [List.all_eq_false]
      exact ⟨item, hitem, fun hcontains =>
        hproperty (List.contains_iff_mem.mp hcontains)⟩
    have hitems : (itemsOf convert document.children).isEmpty = false :=
      List.isEmpty_eq_false_iff.mpr (List.ne_nil_of_mem hitem)
    rw [rootGate?, if_neg]
    · rfl
    · show ¬ ((itemsOf convert document.children).isEmpty ||
        (!(itemsOf convert document.children).isEmpty && _)) = true
      rw [hdeclared, hitems]
      exact Bool.false_ne_true

/-- The pairs that an insertion of gates declares: those of the rules that get a
gate, and those of the gate for `:root`. -/
theorem perm_pairs_insertGates (convert : Converter) (unit : Text)
    {document : Css.Document} (h : Css.AllRead document.children) :
    ((Css.walk (insertGates convert unit document).document.children).filterMap
        generatedPair?).Perm
      ((scan convert document).groups.flatMap
        (fun group => group.items.map Item.pair) ++
        (Css.walk (rootGate? unit (scan convert document)).toList).filterMap
          generatedPair?) := by
  have hgates := perm_walk_gatedNodes yieldsParts_pairs ⟨document.source,
    convert, unit⟩ false h
  rw [insertGates]
  dsimp only
  rw [Css.walk_append, List.filterMap_append]
  exact hgates.append_right _

/-- The colors that are counted are those of the gates, also if there are
none. -/
theorem colors_insertGates (convert : Converter) (unit : Text)
    (document : Css.Document) :
    (Converted.ofInsertion (insertGates convert unit document)).colors =
      (insertGates convert unit document).colorsConverted := by
  rw [Converted.ofInsertion]
  dsimp only
  by_cases hchanged : (insertGates convert unit document).changed = true
  · rw [if_pos hchanged]
  · rw [if_neg hchanged]
    rw [Insertion.changed, Bool.or_eq_true, not_or, decide_eq_true_iff,
      decide_eq_true_iff, Decidable.not_not, Decidable.not_not] at hchanged
    obtain ⟨hrules, hroot⟩ := hchanged
    have hgroups : (scan convert document).groups = [] :=
      List.length_eq_zero_iff.mp hrules
    show 0 = (scan convert document).groupItems +
      (insertGates convert unit document).rootColorsConverted
    rw [hroot, Scan.groupItems, hgroups]
    rfl

/-- The rows of the rules that get a gate. -/
def Scan.groupRows (scan : Scan) : List Row :=
  scan.groups.flatMap fun group => group.items.map (Row.ofItem group.selector)

theorem length_groupRows (scan : Scan) :
    scan.groupRows.length = scan.groupItems := by
  rw [Scan.groupRows, Scan.groupItems, List.length_flatMap, List.length_flatMap]
  simp

theorem pairs_groupRows (scan : Scan) :
    scan.groupRows.map Row.pair =
      scan.groups.flatMap fun group => group.items.map Item.pair := by
  rw [Scan.groupRows, List.map_flatMap]
  congr 1
  funext group
  exact pairs_rows group.selector group.items

/-- A scan of a style sheet lists the rows of its gates, and those of top-level
declarations that need none. -/
theorem agrees_insertGates (convert : Converter) (config : Config)
    {source : Text} {document : Css.Document}
    (h : Css.Document.parse source = .ok document) :
    ∃ converted withheld,
      (scan convert document).rows = converted ++ withheld ∧
      Agrees convert config source .styleSheet
        (Converted.ofInsertion
          (insertGates convert config.defaultIndent document))
        converted withheld := by
  have htransform : transform convert config.defaultIndent source =
      .ok (insertGates convert config.defaultIndent document) := by
    rw [transform, h]
    rfl
  have hpairs :=
    perm_pairs_insertGates convert config.defaultIndent (Css.allRead_of_parse h)
  have hcolors := colors_insertGates convert config.defaultIndent document
  have hcount :
    (insertGates convert config.defaultIndent document).colorsConverted =
      (scan convert document).groupItems +
        if (rootGate? config.defaultIndent (scan convert document)).isSome then
          (itemsOf convert document.children).length else 0 := rfl
  rw [← pairs_groupRows] at hpairs
  rw [hcount, ← length_groupRows] at hcolors
  rcases rootGate?_cases convert config.defaultIndent document with
    ⟨hdeclared, hroot⟩ | ⟨hundeclared, hroot⟩
  · rw [hroot] at hpairs hcolors
    refine ⟨(scan convert document).groupRows, _, rfl, hcolors,
      ?_, .paired h hdeclared⟩
    refine ⟨_, ⟨_, htransform, rfl, rfl⟩, ?_⟩
    rwa [Option.toList_none, Css.walk, List.filterMap_nil,
      List.append_nil] at hpairs
  · rw [hroot] at hpairs hcolors
    refine ⟨(scan convert document).rows, [], (List.append_nil _).symm, ?_, ?_,
      .unpaired h hundeclared⟩
    · rw [hcolors, Option.isSome_some, if_pos rfl, Scan.rows,
        List.length_append, List.length_map]
      rfl
    · refine ⟨_, ⟨_, htransform, rfl, rfl⟩, ?_⟩
      rw [Option.toList_some, yieldsParts_pairs.gate _
        ⟨rootSelector, itemsOf convert document.children, [], false⟩] at hpairs
      rw [Scan.rows, List.map_append, pairs_rows]
      exact hpairs

end Gate

/-! ## Mapping literals -/

/-- A scan of a mapping literal lists the rows of its gated entry, or all rows
if it has one already. -/
theorem Mapping.agrees_transform (convert : Converter) (config : Config)
    (source : Text) :
    ∃ outcome converted withheld,
      transform convert source = .ok outcome ∧
      (scan convert source).entries.map Entry.row = converted ++ withheld ∧
      Agrees convert config source .mapping (Converted.ofOutcome source outcome)
        converted withheld := by
  rcases transform_cases convert source with
    ⟨hkey, htransform⟩ | ⟨hkey, hnone, htransform⟩ | ⟨hkey, hentries, offset,
      indent, _, htransform⟩
  · exact ⟨_, [], _, htransform, rfl, rfl,
      ⟨[], ⟨_, htransform, rfl, .alreadyProcessed⟩,
        List.Perm.refl []⟩, .gated hkey⟩
  · refine ⟨_, [], [], htransform, by rw [hnone]; rfl, rfl,
      ⟨[], ⟨_, htransform, rfl, .untouched _⟩,
        List.Perm.refl []⟩, .ungated hkey⟩
  · refine ⟨_, (scan convert source).entries.map Entry.row, [], htransform,
      (List.append_nil _).symm, ?_, ?_, .ungated hkey⟩
    · have hchanged : (scan convert source).entries.isEmpty = false :=
        List.isEmpty_eq_false_iff.mpr hentries
      rw [List.length_map]
      show (if (!(scan convert source).entries.isEmpty && !false) = true then _
        else 0) = _
      rw [hchanged]
      rfl
    · refine ⟨_, ⟨_, htransform, rfl, .changed _ _ _ _ _⟩, ?_⟩
      rw [List.map_map]
      exact (List.mergeSort_perm _ _).map _

/-! ## Files -/

/-- Saving does not change what was counted. -/
theorem Session.save_colors (session : Session) (tree : FileTree)
    (report : FileReport) (output : Text) :
    (session.save tree report output).1.colors = report.colors := by
  unfold Session.save
  by_cases hkeeps : session.options.backup = true
  · rw [if_pos hkeeps]
    cases hcopy : tree.copy report.path report.path.backup with
    | error error => rfl
    | ok copied =>
      dsimp only
      cases hwrite : copied.writeText report.path output <;> rfl
  · rw [if_neg hkeeps]
    dsimp only
    cases hwrite : tree.writeText report.path output <;> rfl

/-- The report on a file whose source is converted counts the colors of the
conversion, saved or not. -/
theorem Session.colors_process {session : Session} {tree : FileTree}
    {path : Path} {kind : Kind} {source : Text} {done : Converted}
    (hkind : session.config.kindOf? path = some kind)
    (htext : tree.readText path = .ok source)
    (hdone : Converted.ofSource session.convert session.config kind
      source = .ok done) :
    ∃ report, (session.process tree path).result = .ok report ∧ report.colors =
      done.colors := by
  rw [Session.process_of_ofSource hkind htext hdone]
  split
  · exact ⟨_, rfl, session.save_colors _ _ _⟩
  · exact ⟨_, rfl, rfl⟩

/-- For a file of a known kind that is read and, if it is a style sheet, parsed:
a scan lists the rows that a conversion writes into gates, which are as many as
it counts, and then those that are declared in gates already. -/
theorem Session.scanFile_agrees (session : Session) {tree : FileTree}
    {path : Path} {kind : Kind} {source : Text}
    (hkind : session.config.kindOf? path = some kind)
    (htext : tree.readText path = .ok source)
    (hparse : kind = .styleSheet → ∃ document,
      Css.Document.parse source = .ok document) :
    ∃ converted withheld log done report,
      session.scanFile tree path = .ok (converted ++ withheld, log) ∧
      Converted.ofSource session.convert session.config kind source = .ok done ∧
      (session.process tree path).result = .ok report ∧ report.colors =
        converted.length ∧
      Agrees session.convert session.config source kind done converted
        withheld := by
  rw [Session.scanFile, htext]
  dsimp only
  rw [hkind]
  cases kind with
  | styleSheet =>
    obtain ⟨document, hdocument⟩ := hparse rfl
    obtain ⟨converted, withheld, hrows, hagrees⟩ :=
      Gate.agrees_insertGates session.convert session.config hdocument
    have hdone : Converted.ofSource session.convert session.config .styleSheet
      source =
        .ok (.ofInsertion
          (Gate.insertGates session.convert session.config.defaultIndent
          document)) := by
      rw [Converted.ofSource, Gate.transform, hdocument]
      rfl
    obtain ⟨report, hreport, hcolors⟩ :=
      Session.colors_process hkind htext hdone
    refine ⟨converted, withheld,
      (Gate.scan session.convert document).skipped.map LogLine.ofPaired,
      _, report, ?_, hdone, hreport, hcolors.trans hagrees.colors, hagrees⟩
    rw [Session.scanSource, ← hrows, hdocument]
    rfl
  | mapping =>
    obtain ⟨outcome, converted, withheld, houtcome, hrows, hagrees⟩ :=
      Mapping.agrees_transform session.convert session.config source
    have hdone : Converted.ofSource session.convert session.config .mapping
      source = .ok (.ofOutcome source outcome) := by
      rw [Converted.ofSource, houtcome]
    obtain ⟨report, hreport, hcolors⟩ :=
      Session.colors_process hkind htext hdone
    refine ⟨converted, withheld, [], _, report, ?_, hdone, hreport,
      hcolors.trans hagrees.colors, hagrees⟩
    rw [Session.scanSource, ← hrows]
    rfl

/-- A tree with a style sheet, and with two files whose colors all have gates
already. -/
def gatedTree : FileTree where
  files :=
    [(["a.css".toList], Utf8.encode "--x:#fff;a\x7bc:#000\x7d".toList),
      (["b.css".toList],
        Utf8.encode
        "--x:#fff;@supports (color: oklch(0 0 0))\x7b:root\x7b--x:oklch(1 0 0)\x7d\x7d".toList),
      (["c.ts".toList],
        Utf8.encode
        "'@supports (color: oklch(0 0 0))': \x7b\n\t'x': '#fff',\n\x7d".toList)]

/-- A session with the default configuration. -/
def plainSession : Session := ⟨fun _ => some "oklch(1 0 0)".toList, {}, {}⟩

/-- A style sheet with a rule and a top-level declaration. -/
theorem Session.scanFile_agrees_styleSheet :
    ∃ converted withheld log done report,
      plainSession.scanFile gatedTree (Path.ofText "a.css".toList) =
        .ok (converted ++ withheld, log) ∧
      (plainSession.process gatedTree (Path.ofText "a.css".toList)).result = .ok
        report ∧
      report.colors = converted.length ∧
      Agrees plainSession.convert plainSession.config
        "--x:#fff;a\x7bc:#000\x7d".toList .styleSheet
        done converted withheld := by
  have hok : (Css.Document.parse "--x:#fff;a\x7bc:#000\x7d".toList).isOk =
      true := by
    decide +kernel
  have hkind : plainSession.config.kindOf? (Path.ofText "a.css".toList) =
      some .styleSheet := by
    decide
  have htext : gatedTree.readText (Path.ofText "a.css".toList) =
      .ok "--x:#fff;a\x7bc:#000\x7d".toList := by
    have hread : (gatedTree.readText (Path.ofText "a.css".toList)).toOption =
        some "--x:#fff;a\x7bc:#000\x7d".toList := by
      decide +kernel
    cases hresult : gatedTree.readText (Path.ofText "a.css".toList) with
    | error error =>
      rw [hresult] at hread
      cases hread
    | ok text =>
      rw [hresult] at hread
      exact congrArg Except.ok (Option.some.inj hread)
  obtain ⟨converted, withheld, log, done, report, hscan, _, hreport, hcolors,
      hagrees⟩ :=
    Session.scanFile_agrees plainSession hkind htext fun _ =>
      Css.exists_of_isOk hok
  exact ⟨converted, withheld, log, done, report, hscan, hreport, hcolors,
    hagrees⟩

/-- Colors that have a gate already are scanned, although none is converted: a
top-level declaration whose property a gate for `:root` declares, and an entry
of a mapping literal with the gate key. -/
theorem Session.scanFile_lists_gated :
    (plainSession.scanFile gatedTree (Path.ofText "b.css".toList)).toOption.map
        (fun found => found.1.length) = some 1 ∧
      (plainSession.process gatedTree
        (Path.ofText "b.css".toList)).result.toOption.map
        (fun report => (report.status, report.colors)) =
          some (.alreadyProcessed, 0) ∧
      (plainSession.scanFile gatedTree (Path.ofText "c.ts".toList)).toOption.map
        (fun found => found.1.length) = some 1 ∧
      (plainSession.process gatedTree
        (Path.ofText "c.ts".toList)).result.toOption.map
        (fun report => (report.status, report.colors)) =
          some (.alreadyProcessed, 0) := by
  decide +kernel

end OklchGate
