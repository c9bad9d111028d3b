import OklchGate.Proofs.Gate.Rereading

/-!
# The output of an insertion as a style sheet

The output of an insertion is read, and its nodes are those of the source with
the nodes of the gates between them.

* `rootText` is the text of the gate for `:root`, and `outputNodes` are the
  nodes that the output is read as, provided that the gates are `Legible`.
* `Led` cuts the parts of a source behind the last one that is no gap, and
  `Led.cursorAfter_eq` finds the place of that gate there.
* `sublist_output`: nothing of the source is lost.
* `outputParts`, the parts that make up the output, and `parse_output`, which
  puts this together.
-/

namespace OklchGate.Gate

/-- The text of the gate for `:root`, if there is one. -/
def rootText (convert : Converter) (unit : Text) (document : Css.Document) :
    Text :=
  ((rootGate? unit (scan convert document)).map
    (Css.Node.serialize document.source)).getD []

/-- The nodes of a document with its gates, as they are read. -/
def outputNodes (convert : Converter) (unit : Text) (document : Css.Document) :
    List Css.Node :=
  rereadNodes ⟨document.source, convert, unit⟩ false document.children ++
    readBack (rootText convert unit document)

/-- There is no gate for `:root`, or it is one of the texts that are put in. -/
theorem rootText_cases (convert : Converter) (unit : Text)
    (document : Css.Document) :
    (rootGate? unit (scan convert document) = none ∧
      rootText convert unit document = []) ∨
      ((rootGate? unit (scan convert document)).isSome = true ∧
        document.children ≠ [] ∧
        ∃ patch ∈ patches convert unit document,
          patch.text = rootText convert unit document) := by
  rw [rootText, patches, rootPatch?]
  cases hgate : rootGate? unit (scan convert document) with
  | none => exact Or.inl ⟨rfl, rfl⟩
  | some gate =>
    exact Or.inr ⟨rfl, children_ne_nil_of_rootGate? hgate, _,
      List.mem_append_right _ List.mem_cons_self, rfl⟩

/-- The gates of a document can be told apart in the output: the source is
well-formed, each gate is read as a gate by itself, and the gate for `:root`
does not come after an open segment. -/
structure Legible (convert : Converter) (unit : Text)
    (document : Css.Document) :
    Prop where
  closed : Css.Token.allClosed (Css.Token.ofText document.source) = true
  gates : ∀ patch ∈ patches convert unit document, readsAsGate patch.text = true
  ended : (rootGate? unit (scan convert document)).isSome = true →
    Css.Token.endsOpen false (Css.Token.ofText document.source) = false

theorem Legible.gatesRead {convert : Converter} {unit : Text}
    {document : Css.Document} (h : Legible convert unit document) :
    GatesRead ⟨document.source, convert, unit⟩ false document.children :=
  fun patch hpatch => h.gates patch (List.mem_append_left _ hpatch)

/-- What is read back of the gate for `:root`: nothing if there is none, and
else one gate. -/
theorem Legible.readBack_rootText {convert : Converter} {unit : Text}
    {document : Css.Document} (h : Legible convert unit document) :
    readBack (rootText convert unit document) = [] ∨
      ∃ gate, readBack (rootText convert unit document) = [gate] ∧ isGate gate =
        true := by
  rcases rootText_cases convert unit document with
    ⟨_, hnil⟩ | ⟨_, _, patch, hpatch, htext⟩
  · left
    rw [hnil]
    rfl
  · right
    rw [← htext]
    exact (readsAsGate_cases (h.gates patch hpatch)).2.2

/-! ## The last part -/

theorem cursorAfter_append (cursor : Nat) (a b : List Css.Node) :
    cursorAfter cursor (a ++ b) = cursorAfter (cursorAfter cursor a) b := by
  induction a generalizing cursor with
  | nil => rfl
  | cons node rest ih => exact ih _

/-- The parts of a source: those that give its nodes, the last of which is no
gap, and the gaps at its end. -/
structure Led (source : Text) (lead : List Css.Part) (gaps : List Css.Tree)
    (nodes : List Css.Node) : Prop where
  parts : Css.Part.ofText source = lead ++ gaps.map Css.Part.gap
  last : ∀ part ∈ lead.getLast?, part.isGap = false
  read : Css.readParts source 0 (Css.Part.textOf lead).length lead = some nodes

theorem exists_led {source : Text} {nodes : List Css.Node}
    (h : Css.readParts source 0 source.length (Css.Part.ofText source) =
      some nodes) :
    ∃ lead gaps, Led source lead gaps nodes := by
  obtain ⟨lead, gaps, hparts, hlast⟩ :=
    Css.Part.exists_lead (Css.Part.ofText source)
  refine ⟨lead, gaps, hparts, hlast, ?_⟩
  have htext : Css.Part.textOf (lead ++ gaps.map Css.Part.gap) = source := by
    rw [← hparts, Css.Part.textOf_ofText]
  have hend : Css.endOf source.length (0 + (Css.Part.textOf lead).length)
      (gaps.map Css.Part.gap) = (Css.Part.textOf lead).length := by
    cases gaps with
    | nil => rw [← htext]; simp
    | cons => exact Nat.zero_add _
  rw [hparts, Css.readParts_append, Css.readParts_gaps, hend,
    Option.bind_eq_some_iff] at h
  obtain ⟨own, hown, hnodes⟩ := h
  rw [hown, ← Option.some.inj hnodes]
  simp

namespace Led

variable {source : Text} {lead : List Css.Part} {gaps : List Css.Tree}
  {nodes : List Css.Node}

theorem text (h : Led source lead gaps nodes) :
    source = Css.Part.textOf lead ++
      Css.Part.textOf (gaps.map Css.Part.gap) := by
  rw [← Css.Part.textOf_append, ← h.parts, Css.Part.textOf_ofText]

/-- The last node ends where the last part ends. -/
theorem cursorAfter_eq (h : Led source lead gaps nodes) :
    cursorAfter 0 nodes = (Css.Part.textOf lead).length := by
  obtain ⟨_, hlast, hread⟩ := h
  rcases List.eq_nil_or_concat lead with rfl | ⟨front, part, rfl⟩
  · cases hread
    rfl
  · rw [List.concat_eq_append] at hlast hread ⊢
    rw [Css.readParts_append, Option.bind_eq_some_iff] at hread
    obtain ⟨before, _, hread⟩ := hread
    rw [Option.map_eq_some_iff] at hread
    obtain ⟨own, hown, rfl⟩ := hread
    obtain ⟨last, others, rfl, hlastRead, hothers⟩ :=
      Css.exists_of_readParts_cons hown
    cases hothers
    obtain ⟨node, rfl, hspan⟩ :=
      Css.Part.read_node (hlast part (by simp)) hlastRead
    simp only [cursorAfter_append, List.append_nil, cursorAfter, hspan]
    rfl

theorem bracedAll (h : Led source lead gaps nodes)
    (hsteady : Css.Steady (Css.Part.ofText source)) : Css.BracedAll lead := by
  have hall := hsteady.bracedAll
  rw [h.parts] at hall
  exact (Css.bracedAll_append.mp hall).1

theorem lawful (h : Led source lead gaps nodes)
    (hsteady : Css.Steady (Css.Part.ofText source)) :
    Css.Tree.Lawful source (Css.Part.treesOf lead) := by
  have hall := hsteady.lawful
  rw [Css.Part.textOf_ofText, h.parts, Css.Part.treesOf_append,
    Css.Tree.lawful_append] at hall
  exact hall.1

/-- The nodes have the shapes of the parts that give them. -/
theorem bareOf_eq (h : Led source lead gaps nodes)
    (hsteady : Css.Steady (Css.Part.ofText source)) :
    Css.bareOf nodes = Css.shapesOf lead := by
  have hshapes :=
    Css.bareOf_readParts [] (Css.Part.textOf (gaps.map Css.Part.gap)) lead
    (h.bracedAll hsteady)
  rw [List.nil_append, ← h.text, List.length_nil, Nat.zero_add,
    h.read] at hshapes
  exact Option.some.inj hshapes

theorem isGap_of_mem (h : Led source lead gaps nodes) :
    ∀ tree ∈ gaps, tree.isGap = true := by
  intro tree htree
  apply Css.Part.isGap_of_mem_group [] (Css.Tree.ofText source)
  rw [← Css.Part.ofText, h.parts]
  exact List.mem_append_right _ (List.mem_map_of_mem htree)

end Led

/-! ## The text of the output -/

/-- The output is the text of the nodes with their gates, then the gate for
`:root`, then what follows the last node. -/
theorem output_eq (convert : Converter) (unit : Text)
    (document : Css.Document) :
    (insertGates convert unit document).output =
      Css.serializeFrom document.source 0 (cursorAfter 0 document.children)
          (gatedNodes ⟨document.source, convert, unit⟩ false
            document.children) ++
        (rootText convert unit document ++
          document.source.slice (cursorAfter 0 document.children)
            document.source.length) := by
  rw [Insertion.output, insertGates, Css.Document.toText]
  dsimp only
  rw [serializeFrom_append, cursorAfter_gatedNodes, rootText]
  cases hgate : rootGate? unit (scan convert document) with
  | none => rfl
  | some gate =>
    rw [Option.toList_some, Css.serializeFrom, span?_of_rootGate? hgate]
    rfl

/-- The output keeps every character of the source and their order. -/
theorem sublist_output (convert : Converter) (unit : Text) {source : Text}
    {document : Css.Document} (h : Css.Document.parse source = .ok document) :
    source.Sublist (insertGates convert unit document).output := by
  obtain ⟨hsource, htiles⟩ := Css.tiles_of_parse h
  obtain ⟨hcursorTiles, hcursor⟩ := tiles_cursorAfter htiles
  have hnodes :=
    serializeFrom_gatedNodes ⟨source, convert, unit⟩ false hcursorTiles hcursor
  have hsplit := Text.slice_append_slice source (Nat.zero_le _) hcursor
  rw [Text.slice_all] at hsplit
  rw [output_eq, hsource, hnodes]
  conv => lhs; rw [← hsplit]
  exact (Text.sublist_weaveAfter _ 0 _).append (List.sublist_append_right _ _)

/-! ## The parts of the output -/

/-- The parts of a source with the parts of its gates; the gate for `:root`
stands before the gaps at the end. -/
def outputParts (convert : Converter) (unit : Text) (document : Css.Document)
    (lead : List Css.Part) (gaps : List Css.Tree) : List Css.Part :=
  plant ⟨document.source, convert, unit⟩ false document.children lead ++
    (Css.Part.ofText (rootText convert unit document) ++ gaps.map Css.Part.gap)

section Parts

variable {convert : Converter} {unit source : Text} {nodes : List Css.Node}
  {lead : List Css.Part} {gaps : List Css.Tree}
  (hled : Led source lead gaps nodes)
  (hsteady : Css.Steady (Css.Part.ofText source))
include hled hsteady

/-- The output is the text of these parts. -/
theorem textOf_outputParts :
    Css.Part.textOf (outputParts convert unit ⟨source, nodes⟩ lead gaps) =
      (insertGates convert unit ⟨source, nodes⟩).output := by
  have hsplit : source =
      [] ++ Css.Part.textOf lead ++ Css.Part.textOf (gaps.map Css.Part.gap) :=
        hled.text
  have hplant := textOf_plant ⟨source, convert, unit⟩ false []
    (Css.Part.textOf (gaps.map Css.Part.gap)) lead hsplit (hled.lawful hsteady)
    (hled.bracedAll hsteady)
      (by rw [List.length_nil, Nat.zero_add]; exact hled.read)
  rw [List.length_nil, Nat.zero_add] at hplant
  have hslice : source.slice (Css.Part.textOf lead).length source.length =
      Css.Part.textOf (gaps.map Css.Part.gap) := by
    have h := Text.slice_of_append (Css.Part.textOf lead)
      (Css.Part.textOf (gaps.map Css.Part.gap)) []
    rwa [List.append_nil, ← List.length_append, ← hled.text] at h
  rw [output_eq, hled.cursorAfter_eq, outputParts, Css.Part.textOf_append,
    Css.Part.textOf_append, Css.Part.textOf_ofText, hplant, hslice]

/-- The parts of the output are steady. -/
theorem steady_outputParts (h : Legible convert unit ⟨source, nodes⟩) :
    Css.Steady (outputParts convert unit ⟨source, nodes⟩ lead gaps) := by
  have hplanted :
      Css.Planted lead (plant ⟨source, convert, unit⟩ false nodes lead) :=
    planted_plant lead h.gatesRead
  rw [outputParts]
  rcases rootText_cases convert unit ⟨source, nodes⟩ with
    ⟨_, hroot⟩ | ⟨hsome, hne, patch, hpatch, htext⟩
  · rw [hroot, Css.Part.ofText_nil, List.nil_append]
    rw [hled.parts] at hsteady
    exact (hplanted.append (.refl _)).steady hsteady
  · have hinsertable := (readsAsGate_cases (h.gates patch hpatch)).1
    rw [htext] at hinsertable
    have hlead : lead ≠ [] := by
      rintro rfl
      exact hne (Option.some.inj hled.read).symm
    have hclosed : Css.Token.endsOpen false
        ((Css.Part.treesOf lead).map Css.Tree.bare) = false := by
      have hall := h.ended hsome
      rw [← Css.endsOpen_ofText, ← Css.Part.treesOf_ofText, hled.parts,
        Css.Part.treesOf_append, Css.Part.treesOf_map_gap, List.map_append,
        Css.Token.endsOpen_append, Css.Token.endsOpen_gaps] at hall
      · exact hall
      · rw [List.forall_mem_map]
        exact hled.isGap_of_mem
    rw [hled.parts] at hsteady
    have hwhole := hsteady.whole
    rw [Css.Part.treesOf_append, Css.Tree.wholeAll_append] at hwhole
    obtain ⟨before, last, hwords, hlastEnds⟩ :=
      Css.Part.exists_endsItself hlead hled.last
      hwhole.1 (Css.Part.group_left hsteady.group hclosed).1 hclosed
    exact hplanted.steady_put hsteady hinsertable hclosed hwords hlastEnds

/-- The nodes of these parts are those of the source with the nodes of the
gates. -/
theorem shapesOf_outputParts (h : Legible convert unit ⟨source, nodes⟩) :
    Css.shapesOf (outputParts convert unit ⟨source, nodes⟩ lead gaps) =
      Css.bareOf (outputNodes convert unit ⟨source, nodes⟩) := by
  rw [outputParts, Css.shapesOf_append, Css.shapesOf_append,
    shapesOf_plant lead h.gatesRead (hled.bareOf_eq hsteady), outputNodes,
    Css.bareOf_append, Css.shapesOf_gaps, List.append_nil]
  rcases rootText_cases convert unit ⟨source, nodes⟩ with
    ⟨_, hroot⟩ | ⟨_, _, patch, hpatch, hroot⟩
  · rw [hroot]
    rfl
  · rw [← hroot,
      ← bareOf_readBack (readsAsGate_cases (h.gates patch hpatch)).2.1]

end Parts

/-- If the gates can be told apart, the output is read as the nodes of the
source with the nodes of the gates. -/
theorem parse_output (convert : Converter) (unit : Text) {source : Text}
    {document : Css.Document} (h : Css.Document.parse source = .ok document)
    (hlegible : Legible convert unit document) :
    ∃ nodes, Css.Document.parse (insertGates convert unit document).output =
        .ok ⟨(insertGates convert unit document).output, nodes⟩ ∧
      Css.bareOf nodes = Css.bareOf (outputNodes convert unit document) := by
  obtain ⟨hfaultless, nodes, hread, rfl⟩ := Css.parse_eq_ok_iff.mp h
  have hsteady : Css.Steady (Css.Part.ofText source) :=
    Css.steady_ofText hfaultless hlegible.closed
  obtain ⟨lead, gaps, hled⟩ := exists_led hread
  obtain ⟨nodes', hparse, hbare⟩ :=
    (steady_outputParts hled hsteady hlegible).parse
  rw [textOf_outputParts hled hsteady] at hparse
  exact ⟨nodes', hparse,
    hbare.trans (shapesOf_outputParts hled hsteady hlegible)⟩

end OklchGate.Gate
