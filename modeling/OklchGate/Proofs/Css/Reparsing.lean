import OklchGate.Proofs.Css.Regrouping
import OklchGate.Proofs.Css.Shapes

/-!
# Reading a style sheet that is put together from parts

Parts of exact words, with whole trees, that come back when they are grouped
make up a style sheet that is read, and its nodes have the shapes of the parts.

* `Steady` collects what is asked of the parts.
* `Steady.parse`: their text is read.
* `steady_ofText`: the parts of a well-formed style sheet are such parts.
-/

namespace OklchGate.Css

/-- Parts that come back when their text is read. -/
structure Steady (parts : List Part) : Prop where
  exact : Exact (Tree.wordsOf (Part.treesOf parts))
  whole : Tree.WholeAll (Part.treesOf parts)
  group : group [] (Part.treesOf parts) = parts

/-- The trees of the text of such parts are those of the parts. -/
theorem Steady.ofText_eq {parts : List Part} (h : Steady parts) :
    Tree.ofText (Part.textOf parts) = Part.treesOf parts :=
  Tree.ofText_of_exact h.exact h.whole

mutual

/-- The blocks of lawful parts whose trees are whole have both braces. -/
theorem Part.braced_of_whole {source : Text} {part : Part}
    (hlawful : Tree.Lawful source part.trees)
    (hwhole : Tree.WholeAll part.trees) :
    part.Braced := by
  cases part with
  | gap tree => trivial
  | comment tree => trivial
  | statement first others => trivial
  | block before opener content closer =>
    rw [Part.trees, Tree.lawful_append] at hlawful
    rw [Part.trees, Tree.wholeAll_append] at hwhole
    obtain ⟨hopener, hcloser, hcontent⟩ := hlawful.2.block
    obtain ⟨_, ⟨word, hword, _⟩, hwholeContent⟩ := hwhole.2.1
    exact ⟨hopener, ⟨word, hword, hcloser word hword⟩,
      bracedAll_of_whole hcontent hwholeContent⟩

theorem bracedAll_of_whole {source : Text} {parts : List Part}
    (hlawful : Tree.Lawful source (Part.treesOf parts))
    (hwhole : Tree.WholeAll (Part.treesOf parts)) : BracedAll parts := by
  cases parts with
  | nil => trivial
  | cons part rest =>
    rw [Part.treesOf_cons, Tree.lawful_append] at hlawful
    rw [Part.treesOf_cons, Tree.wholeAll_append] at hwhole
    exact ⟨Part.braced_of_whole hlawful.1 hwhole.1,
      bracedAll_of_whole hlawful.2 hwhole.2⟩

end

/-- The trees of steady parts are lawful in their text. -/
theorem Steady.lawful {parts : List Part} (h : Steady parts) :
    Tree.Lawful (Part.textOf parts) (Part.treesOf parts) := by
  have hfaultless : Tree.Faultless (Tree.ofText (Part.textOf parts)) := by
    rw [h.ofText_eq]
    exact h.whole.faultless
  have hlawful := Tree.lawful_ofText hfaultless
  rwa [h.ofText_eq] at hlawful

theorem Steady.bracedAll {parts : List Part} (h : Steady parts) :
    BracedAll parts :=
  bracedAll_of_whole h.lawful h.whole

/-- The text of steady parts is read, and its nodes are those of the parts. -/
theorem Steady.parse {parts : List Part} (h : Steady parts) :
    ∃ nodes, Document.parse (Part.textOf parts) = .ok ⟨Part.textOf parts,
      nodes⟩ ∧ bareOf nodes = shapesOf parts := by
  have hread := bareOf_readParts [] [] parts h.bracedAll
  rw [List.nil_append, List.append_nil, List.length_nil, Nat.zero_add,
    Option.map_eq_some_iff] at hread
  obtain ⟨nodes, hnodes, hbare⟩ := hread
  refine ⟨nodes, ?_, hbare⟩
  rw [parse_eq_ok_iff, h.ofText_eq, h.group]
  exact ⟨h.whole.faultless, nodes, hnodes, rfl⟩

/-- The parts of a text that is well-formed are steady. -/
theorem steady_ofText {source : Text}
    (hfaultless : Tree.Faultless (Tree.ofText source))
    (hclosed : Token.allClosed (Token.ofText source) = true) :
    Steady (group [] (Tree.ofText source)) := by
  have htrees : Part.treesOf (group [] (Tree.ofText source)) =
      Tree.ofText source :=
    treesOf_group [] _
  refine ⟨?_, ?_, ?_⟩
  · rw [htrees, Tree.wordsOf_ofText]
    exact exact_words source
  · rw [htrees]
    exact Tree.wholeAll_ofText hfaultless hclosed
  · rw [htrees]

end OklchGate.Css
