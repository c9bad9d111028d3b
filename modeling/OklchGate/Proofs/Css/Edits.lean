import OklchGate.Proofs.Css.Places
import OklchGate.Proofs.Gate.Patches

/-!
# Edits of a document

An edit puts one fresh node into a document.  Where children are printed between
their siblings it adds the text of the node at one place, and inside of a
generated node it changes the text of that node alone.

There are five groups.

* `Edit`, `Edit.perform` and `Reached`, the documents that edits lead to.
* `replaceIn`, some nodes with another list of children at the end of a path,
  and `editChildren_eq`: an edit changes the list at the end of its path.
* `Grown`, what edits keep: a node that was read lies in containers that were
  read with a block.
* `textBefore`, the text before a child, and `serializeFrom_replaceIn`.
* `Place.outermost?`, the outermost generated node around a place, and
  `changedAt_replaceIn`.
-/

namespace OklchGate.Css

open Gate (cursorAfter serializeFrom_append)

/-! ## Edits and the documents that they lead to -/

/-- All nodes were generated, at any depth. -/
def AllGenerated (nodes : List Node) : Prop :=
  ∀ node ∈ walk nodes, node.isGenerated = true

/-- A node that was never part of a source, with all below it. -/
def Node.Fresh (node : Node) : Prop := AllGenerated [node]

/-- A step that puts a node into the document or into a container in it. -/
inductive Edit where
  | append (path : List Nat) (node : Node)
  | insertAfter (path : List Nat) (index : Nat) (node : Node)

namespace Edit

/-- Where the container is. -/
def path : Edit → List Nat
  | append path _ => path
  | insertAfter path _ _ => path

/-- The new node. -/
def node : Edit → Node
  | append _ node => node
  | insertAfter _ _ node => node

/-- How many of its siblings stand before the new node. -/
def count (siblings : List Node) : Edit → Nat
  | append .. => siblings.length
  | insertAfter _ index _ => index + 1

/-- The document with the new node. -/
def apply (document : Document) : Edit → Except EditError Document
  | append path node => document.append path node
  | insertAfter path index node => document.insertAfter path index node

/-- The document after an edit, with the error of an edit that fails. -/
def perform (document : Document) (edit : Edit) : Document × Option EditError :=
  match edit.apply document with
  | .ok edited => (edited, none)
  | .error error => (document, some error)

/-- The siblings with the new node among them. -/
def change (edit : Edit) (siblings : List Node) :
    Except EditError (List Node) :=
  if edit.count siblings ≤ siblings.length then
    .ok (siblings.take (edit.count siblings) ++ edit.node ::
      siblings.drop (edit.count siblings))
  else .error .noSuchNode

end Edit

/-- The documents that come from a source by reading it and by edits with fresh
nodes, also by edits that fail. -/
inductive Reached (source : Text) : Document → Prop
  | read {document : Document} : Document.parse source = .ok document →
    Reached source document
  | edited {document : Document} {edit : Edit} :
    Reached source document → edit.node.Fresh →
      Reached source (edit.perform document).1

/-- Both kinds of edits change the siblings of the new node by `Edit.change`. -/
theorem Edit.apply_eq (document : Document) (edit : Edit) :
    edit.apply document = document.edit edit.path edit.change := by
  cases edit with
  | append path node =>
    have hchange : (fun nodes => Except.ok (nodes ++ [node])) =
        (Edit.append path node).change := by
      funext nodes
      simp [Edit.change, Edit.count, Edit.node]
    rw [Edit.apply, Document.append, hchange]
    rfl
  | insertAfter path index node =>
    rfl

/-! ## The list at the end of a path -/

/-- The children of the container at the end of a path; the empty path means the
nodes themselves. -/
def listIn? : List Nat → List Node → Option (List Node)
  | [], nodes => some nodes
  | index :: path, nodes =>
    match nodes[index]? with
    | some (.container _ _ _ children) => listIn? path children
    | _ => none

/-- Some nodes with other children in the container at the end of a path. -/
def replaceIn (siblings : List Node) : List Nat → List Node → List Node
  | [], _ => siblings
  | index :: path, nodes =>
    match nodes[index]? with
    | some (.container origin content head children) =>
      nodes.set index
        (.container origin content head (replaceIn siblings path children))
    | _ => nodes

/-- A path into a container goes on in its children. -/
theorem listIn?_cons {index : Nat} {path : List Nat}
    {nodes siblings : List Node}
    (h : listIn? (index :: path) nodes = some siblings) :
    ∃ origin content head children,
      nodes[index]? = some (.container origin content head children) ∧
        listIn? path children = some siblings := by
  rw [listIn?] at h
  split at h
  · exact ⟨_, _, _, _, ‹_›, h⟩
  · cases h

theorem replaceIn_cons {siblings : List Node} {index : Nat} {path : List Nat}
    {nodes children : List Node} {origin : Origin} {content : Option Span}
    {head : Head}
    (h : nodes[index]? = some (.container origin content head children)) :
    replaceIn siblings (index :: path) nodes =
      nodes.set index
        (.container origin content head
        (replaceIn siblings path children)) := by
  rw [replaceIn, h]

/-- Changing the list at the end of a path succeeds or fails as the change of
that list does. -/
theorem editChildren_eq (change : List Node → Except EditError (List Node))
    {path : List Nat} {nodes siblings : List Node}
    (h : listIn? path nodes = some siblings) :
    editChildren change path nodes =
      (change siblings).map fun changed => replaceIn changed path nodes := by
  induction path generalizing nodes with
  | nil =>
    cases h
    rw [editChildren]
    cases change siblings <;> rfl
  | cons index path ih =>
    obtain ⟨origin, content, head, children, hget, hlist⟩ := listIn?_cons h
    rw [editChildren, hget]
    dsimp only
    rw [ih hlist]
    cases change siblings with
    | error error => rfl
    | ok changed =>
      show _ = Except.ok (replaceIn changed (index :: path) nodes)
      rw [replaceIn_cons hget]
      rfl

theorem set_eq_self {nodes : List Node} {index : Nat} {node : Node}
    (h : nodes[index]? = some node) : nodes.set index node = nodes := by
  obtain ⟨hindex, rfl⟩ := List.getElem?_eq_some_iff.mp h
  exact List.set_getElem_self hindex

/-- Putting the same list back changes nothing. -/
theorem replaceIn_self {path : List Nat} {nodes siblings : List Node}
    (h : listIn? path nodes = some siblings) :
    replaceIn siblings path nodes = nodes := by
  induction path generalizing nodes with
  | nil =>
    cases h
    rfl
  | cons index path ih =>
    obtain ⟨origin, content, head, children, hget, hlist⟩ := listIn?_cons h
    rw [replaceIn_cons hget, ih hlist, set_eq_self hget]

/-- An edit whose path leads to a list of children. -/
theorem Edit.perform_eq {document : Document} {edit : Edit}
    {siblings : List Node}
    (h : listIn? edit.path document.children = some siblings) :
    edit.perform document =
      if edit.count siblings ≤ siblings.length then
        ({ document with
            children :=
              replaceIn (siblings.take (edit.count siblings) ++ edit.node ::
              siblings.drop (edit.count siblings)) edit.path
                document.children }, none)
      else (document, some .noSuchNode) := by
  rw [Edit.perform, Edit.apply_eq, Document.edit, editChildren_eq _ h,
    Edit.change]
  by_cases hcount : edit.count siblings ≤ siblings.length
  · rw [if_pos hcount, if_pos hcount]
    rfl
  · rw [if_neg hcount, if_neg hcount]
    rfl

/-- An edit whose path leads to no list of children fails. -/
theorem editChildren_of_none (change : List Node → Except EditError (List Node))
    {path : List Nat} {nodes : List Node} (h : listIn? path nodes = none) :
    ∃ error, editChildren change path nodes = .error error := by
  induction path generalizing nodes with
  | nil => cases h
  | cons index path ih =>
    rw [editChildren]
    rw [listIn?] at h
    cases hget : nodes[index]? with
    | none => exact ⟨_, rfl⟩
    | some node =>
      cases node with
      | leaf origin item => exact ⟨_, rfl⟩
      | container origin content head children =>
        rw [hget] at h
        obtain ⟨error, herror⟩ := ih h
        refine ⟨error, ?_⟩
        dsimp only
        rw [herror]
        rfl

theorem Edit.perform_of_none {document : Document} {edit : Edit}
    (h : listIn? edit.path document.children = none) :
    (edit.perform document).1 = document := by
  obtain ⟨error, herror⟩ := editChildren_of_none edit.change h
  rw [Edit.perform, Edit.apply_eq, Document.edit, herror]
  rfl

/-! ## What edits keep -/

theorem allGenerated_nil : AllGenerated [] :=
  fun _ hmem => absurd hmem List.not_mem_nil

theorem allGenerated_cons {node : Node} {rest : List Node} :
    AllGenerated (node :: rest) ↔
      node.isGenerated = true ∧ AllGenerated node.children ∧
        AllGenerated rest := by
  have hwalk : walk (node :: rest) =
      node :: (walk node.children ++ walk rest) := by
    cases node <;> rfl
  rw [AllGenerated, hwalk]
  simp [AllGenerated, or_imp, forall_and]

theorem allGenerated_iff_forall {nodes : List Node} :
    AllGenerated nodes ↔ ∀ node ∈ nodes, node.Fresh := by
  induction nodes with
  | nil =>
    exact ⟨fun _ _ hmem => absurd hmem List.not_mem_nil,
      fun _ => allGenerated_nil⟩
  | cons node rest ih =>
    rw [List.forall_mem_cons, ← ih, Node.Fresh, allGenerated_cons,
      allGenerated_cons]
    have hnil : AllGenerated [] := allGenerated_nil
    simp only [hnil, and_true, and_assoc]

mutual

/-- Below a node, what was read lies in containers that were read with a
block. -/
def Node.Grown : Node → Prop
  | .leaf _ _ => True
  | .container (.parsed _) (some _) _ children => GrownAll children
  | .container _ _ _ children => AllGenerated children
termination_by structural node => node

/-- Among some nodes and below them, what was read lies in containers that were
read with a block. -/
def GrownAll : List Node → Prop
  | [] => True
  | node :: rest => node.Grown ∧ GrownAll rest
termination_by structural nodes => nodes

end

theorem grownAll_iff_forall {nodes : List Node} :
    GrownAll nodes ↔ ∀ node ∈ nodes, node.Grown := by
  induction nodes with
  | nil => exact ⟨fun _ => nofun, fun _ => trivial⟩
  | cons node rest ih => rw [GrownAll, ih, List.forall_mem_cons]

theorem Node.Fresh.grown {node : Node} (h : node.Fresh) : node.Grown := by
  obtain ⟨hnode, hchildren, _⟩ := allGenerated_cons.mp h
  cases node with
  | leaf => trivial
  | container origin content head children =>
    cases origin with
    | parsed span => exact absurd hnode nofun
    | generated layout => exact hchildren

mutual

theorem Node.Spans.grown {start stop : Nat} {node : Node}
    (h : node.Spans start stop) :
    node.Grown := by
  cases node with
  | leaf => trivial
  | container origin content head children =>
    cases content with
    | none =>
      obtain ⟨rfl, _, rfl⟩ := h
      exact nofun
    | some content =>
      obtain ⟨rfl, _, hchildren, _⟩ := h
      exact Tiles.grownAll hchildren

/-- Nodes that stand in order in a source were all read with a block, or have no
children. -/
theorem Tiles.grownAll {start stop : Nat} {nodes : List Node}
    (h : Tiles start stop nodes) :
    GrownAll nodes := by
  cases nodes with
  | nil => trivial
  | cons node rest =>
    obtain ⟨_, _, _, hnode, hrest⟩ := h
    exact ⟨Node.Spans.grown hnode, Tiles.grownAll hrest⟩

end

theorem AllGenerated.replaceIn {path : List Nat}
    {nodes siblings changed : List Node} (hnodes : AllGenerated nodes)
    (h : listIn? path nodes = some siblings)
    (hchange : AllGenerated siblings → AllGenerated changed) :
    AllGenerated (replaceIn changed path nodes) := by
  induction path generalizing nodes with
  | nil =>
    cases h
    exact hchange hnodes
  | cons index path ih =>
    obtain ⟨origin, content, head, children, hget, hlist⟩ := listIn?_cons h
    rw [replaceIn_cons hget, allGenerated_iff_forall]
    rw [allGenerated_iff_forall] at hnodes
    obtain ⟨hnode, hchildren, _⟩ :=
      allGenerated_cons.mp (hnodes _ (List.mem_of_getElem? hget))
    intro node hmem
    rcases List.mem_or_eq_of_mem_set hmem with hmem | rfl
    · exact hnodes node hmem
    · exact allGenerated_cons.mpr ⟨hnode, ih hchildren hlist, nofun⟩

theorem GrownAll.replaceIn {path : List Nat}
    {nodes siblings changed : List Node} (hnodes : GrownAll nodes)
    (h : listIn? path nodes = some siblings)
    (hgenerated : AllGenerated siblings → AllGenerated changed)
    (hgrown : GrownAll siblings → GrownAll changed) :
    GrownAll (replaceIn changed path nodes) := by
  induction path generalizing nodes with
  | nil =>
    cases h
    exact hgrown hnodes
  | cons index path ih =>
    obtain ⟨origin, content, head, children, hget, hlist⟩ := listIn?_cons h
    rw [replaceIn_cons hget, grownAll_iff_forall]
    rw [grownAll_iff_forall] at hnodes
    have hnode := hnodes _ (List.mem_of_getElem? hget)
    intro node hmem
    rcases List.mem_or_eq_of_mem_set hmem with hmem | rfl
    · exact hnodes node hmem
    · match origin, content, hnode with
      | .parsed _, some _, hnode => exact ih hnode hlist
      | .parsed _, none, hnode =>
        exact AllGenerated.replaceIn hnode hlist hgenerated
      | .generated _, _, hnode =>
        exact AllGenerated.replaceIn hnode hlist hgenerated

/-- A fresh node among some nodes. -/
theorem mem_inserted {nodes : List Node} {count : Nat} {new node : Node}
    (h : node ∈ nodes.take count ++ new :: nodes.drop count) :
    node ∈ nodes ∨ node = new := by
  rw [List.mem_append, List.mem_cons] at h
  rcases h with h | rfl | h
  · exact Or.inl (List.mem_of_mem_take h)
  · exact Or.inr rfl
  · exact Or.inl (List.mem_of_mem_drop h)

theorem GrownAll.perform {document : Document} {edit : Edit}
    (h : GrownAll document.children) (hfresh : edit.node.Fresh) :
    GrownAll (edit.perform document).1.children := by
  cases hlist : listIn? edit.path document.children with
  | none => rwa [Edit.perform_of_none hlist]
  | some siblings =>
    rw [Edit.perform_eq hlist]
    split
    · refine h.replaceIn hlist (fun hsiblings => ?_) (fun hsiblings => ?_)
      · rw [allGenerated_iff_forall] at hsiblings ⊢
        intro node hmem
        rcases mem_inserted hmem with hmem | rfl
        · exact hsiblings node hmem
        · exact hfresh
      · rw [grownAll_iff_forall] at hsiblings ⊢
        intro node hmem
        rcases mem_inserted hmem with hmem | rfl
        · exact hsiblings node hmem
        · exact hfresh.grown
    · exact h

/-- In every document that edits lead to, what was read lies in containers that
were read with a block. -/
theorem Reached.grownAll {source : Text} {document : Document}
    (h : Reached source document) :
    GrownAll document.children := by
  induction h with
  | read hparse => exact (tiles_of_parse hparse).2.grownAll
  | edited _ hfresh ih => exact ih.perform hfresh

/-! ## The text before a child -/

/-- A list of children and the part of the source over which it is printed. -/
structure Block where
  start : Nat
  stop : Nat
  children : List Node

/-- The list at the end of a path through containers that were read with a
block. -/
def blockIn? (start stop : Nat) : List Nat → List Node → Option Block
  | [], nodes => some ⟨start, stop, nodes⟩
  | index :: path, nodes =>
    match nodes[index]? with
    | some (.container (.parsed _) (some content) _ children) =>
      blockIn? content.start content.stop path children
    | _ => none

/-- The text of some nodes, printed from `cursor` on, before the child with the
given index of the container at the end of a path.  All before the container is
in it, then the source up to the content of the container, and then the children
before that one. -/
def textBefore (source : Text) (cursor index : Nat) :
    List Nat → List Node → Text
  | [], nodes =>
    serializeFrom source cursor (cursorAfter cursor (nodes.take index))
      (nodes.take index)
  | next :: path, nodes =>
    match nodes[next]? with
    | some (.container (.parsed span) (some content) _ children) =>
      serializeFrom source cursor span.start (nodes.take next) ++
        source.slice span.start content.start ++
        textBefore source content.start index path children
    | _ => []

theorem blockIn?_cons {start stop index : Nat} {path : List Nat}
    {nodes : List Node} {block : Block}
    (h : blockIn? start stop (index :: path) nodes = some block) :
    ∃ span content head children,
      nodes[index]? =
        some (.container (.parsed span) (some content) head children) ∧
        blockIn? content.start content.stop path children = some block := by
  rw [blockIn?] at h
  split at h
  · exact ⟨_, _, _, _, ‹_›, h⟩
  · cases h

theorem textBefore_cons {source : Text} {cursor index next : Nat}
    {path : List Nat} {nodes children : List Node} {span content : Span}
    {head : Head}
    (h : nodes[next]? =
      some (.container (.parsed span) (some content) head children)) :
    textBefore source cursor index (next :: path) nodes =
      serializeFrom source cursor span.start (nodes.take next) ++
        source.slice span.start content.start ++
        textBefore source content.start index path children := by
  rw [textBefore, h]

theorem serializeFrom_of_generated {source : Text} {node : Node}
    (h : node.isGenerated = true) (cursor stop : Nat) (rest : List Node) :
    serializeFrom source cursor stop (node :: rest) =
      node.serialize source ++ serializeFrom source cursor stop rest := by
  rw [serializeFrom, Option.isNone_iff_eq_none.mp h]

theorem serializeFrom_of_span? {source : Text} {node : Node} {span : Span}
    (h : node.span? = some span) (cursor stop : Nat) (rest : List Node) :
    serializeFrom source cursor stop (node :: rest) =
      source.slice cursor span.start ++ node.serialize source ++
        serializeFrom source span.stop stop rest := by
  rw [serializeFrom, h]

/-- The source after the last node that was read is printed last. -/
theorem serializeFrom_eq_append_slice (source : Text) (cursor stop : Nat)
    (nodes : List Node) :
    serializeFrom source cursor stop nodes =
      serializeFrom source cursor (cursorAfter cursor nodes) nodes ++
        source.slice (cursorAfter cursor nodes) stop := by
  have happend := serializeFrom_append source cursor stop nodes []
  rwa [List.append_nil, serializeFrom] at happend

/-- The text of some nodes of which one is known, and of the nodes with another
in its place. -/
theorem serializeFrom_set {source : Text} {cursor stop index : Nat}
    {nodes : List Node} {node : Node} (hget : nodes[index]? = some node)
    (new : Node) :
    serializeFrom source cursor stop (nodes.set index new) =
      serializeFrom source cursor (cursorAfter cursor (nodes.take index))
        (nodes.take index) ++
        serializeFrom source (cursorAfter cursor (nodes.take index)) stop
          (new :: nodes.drop (index + 1)) := by
  obtain ⟨hindex, _⟩ := List.getElem?_eq_some_iff.mp hget
  rw [List.set_eq_take_append_cons_drop, if_pos hindex, serializeFrom_append]

/-- The text of some nodes around the list at the end of a path stays the same
whatever that list is. -/
theorem serializeFrom_replaceIn (source : Text) {cursor stop : Nat}
    {path : List Nat} {nodes : List Node} {block : Block}
    (h : blockIn? cursor stop path nodes = some block) :
    ∃ after, ∀ siblings,
      serializeFrom source cursor stop (replaceIn siblings path nodes) =
        textBefore source cursor 0 path nodes ++
          serializeFrom source block.start block.stop siblings ++ after := by
  induction path generalizing cursor stop nodes with
  | nil =>
    cases h
    refine ⟨[], fun siblings => ?_⟩
    rw [replaceIn, textBefore, List.take_zero, cursorAfter, serializeFrom,
      Text.slice_eq_nil _ (Nat.le_refl _), List.nil_append, List.append_nil]
  | cons index path ih =>
    obtain ⟨span, content, head, children, hget, hblock⟩ := blockIn?_cons h
    obtain ⟨after, hafter⟩ := ih hblock
    refine ⟨after ++ source.slice content.stop span.stop ++
      serializeFrom source span.stop stop (nodes.drop (index + 1)),
        fun siblings => ?_⟩
    rw [replaceIn_cons hget, serializeFrom_set hget, serializeFrom_of_span? rfl,
      Node.serialize, hafter, textBefore_cons hget,
      serializeFrom_eq_append_slice source cursor span.start]
    simp only [List.append_assoc]

/-- The text before a child is the text before its container's first child and
then the children before it. -/
theorem textBefore_eq (source : Text) {cursor stop : Nat} {path : List Nat}
    {nodes : List Node} {block : Block}
    (h : blockIn? cursor stop path nodes = some block) (index : Nat) :
    textBefore source cursor index path nodes =
      textBefore source cursor 0 path nodes ++
        serializeFrom source block.start
          (cursorAfter block.start (block.children.take index))
          (block.children.take index) := by
  induction path generalizing cursor stop nodes with
  | nil =>
    cases h
    rw [textBefore, textBefore, List.take_zero, cursorAfter, serializeFrom,
      Text.slice_eq_nil _ (Nat.le_refl _), List.nil_append]
  | cons next path ih =>
    obtain ⟨span, content, head, children, hget, hblock⟩ := blockIn?_cons h
    rw [textBefore_cons hget, textBefore_cons hget, ih hblock]
    simp only [List.append_assoc]

/-- The text before a child ends in the text of the sibling before it, and only
source stands between that one and the text before it. -/
theorem textBefore_succ (source : Text) {cursor stop : Nat} {path : List Nat}
    {nodes : List Node} {block : Block}
    (h : blockIn? cursor stop path nodes = some block) {index : Nat}
    {sibling : Node} (hget : block.children[index]? = some sibling) :
    ∃ start stop,
      textBefore source cursor (index + 1) path nodes =
        textBefore source cursor index path nodes ++ source.slice start stop ++
          sibling.serialize source ∧
      (sibling.isGenerated = true → start = stop) := by
  obtain ⟨last, hlast⟩ :
      ∃ last, last = cursorAfter block.start (block.children.take index) :=
    ⟨_, rfl⟩
  have htake : block.children.take (index + 1) = block.children.take index ++
      [sibling] := by
    rw [List.take_add_one, hget, Option.toList_some]
  have hcursor : ∀ cursor a b, cursorAfter cursor (a ++ b) =
      cursorAfter (cursorAfter cursor a) b := by
    intro cursor a b
    induction a generalizing cursor with
    | nil => rfl
    | cons node rest ih => exact ih _
  rw [textBefore_eq source h (index + 1), textBefore_eq source h index, htake,
    hcursor, serializeFrom_append, ← hlast]
  cases hspan : sibling.span? with
  | none =>
    refine ⟨last, last, ?_, fun _ => rfl⟩
    have hgenerated : sibling.isGenerated = true := by
      rw [Node.isGenerated, hspan]; rfl
    rw [serializeFrom_of_generated hgenerated, serializeFrom, cursorAfter,
      hspan, cursorAfter]
    simp [Text.slice_eq_nil]
  | some span =>
    refine ⟨last, span.start, ?_, fun hgenerated => ?_⟩
    · rw [serializeFrom_of_span? hspan, serializeFrom, cursorAfter, hspan,
        cursorAfter]
      simp [Text.slice_eq_nil]
    · rw [Node.isGenerated, hspan] at hgenerated
      cases hgenerated

/-- The text before the first child of a container is the text before the
container and the source from there up to the content of the container. -/
theorem textBefore_zero (source : Text) {cursor stop : Nat} {path : List Nat}
    {nodes : List Node} {block : Block}
    (h : blockIn? cursor stop path nodes = some block) {index : Nat}
    {span content : Span} {head : Head} {children : List Node}
    (hget : block.children[index]? =
      some (.container (.parsed span) (some content) head children)) :
    ∃ start,
      textBefore source cursor 0 (path ++ [index]) nodes =
        textBefore source cursor index path nodes ++
          source.slice start span.start ++
          source.slice span.start content.start := by
  induction path generalizing cursor stop nodes with
  | nil =>
    cases h
    refine ⟨cursorAfter cursor (nodes.take index), ?_⟩
    rw [List.nil_append, textBefore_cons hget, textBefore, textBefore,
      List.take_zero, cursorAfter, serializeFrom,
      Text.slice_eq_nil _ (Nat.le_refl _), List.append_nil,
      serializeFrom_eq_append_slice]
  | cons next path ih =>
    obtain ⟨outer, inner, _, _, hnext, hblock⟩ := blockIn?_cons h
    obtain ⟨start, hstart⟩ := ih hblock
    refine ⟨start, ?_⟩
    rw [List.cons_append, textBefore_cons hnext, textBefore_cons hnext, hstart]
    simp only [List.append_assoc]

/-! ## The outermost generated node -/

namespace Place

/-- The containers around a node, the outermost first, and the node. -/
def chain (place : Place) : List Node := place.ancestors.reverse ++ [place.node]

/-- The outermost generated node among the containers around a node and the
node. -/
def outermost? (place : Place) : Option Node :=
  place.chain.find? Node.isGenerated

/-- Two texts of places with the same path differ at most in the text of the
outermost generated node. -/
def ChangedAt (source : Text) (place changed : Place) (before after : Text) :
    Prop :=
  after = before ∨
    ∃ outer new front back,
      place.outermost? = some outer ∧ changed.outermost? = some new ∧
        before = front ++ outer.serialize source ++ back ∧
        after = front ++ new.serialize source ++ back

theorem ChangedAt.around {source : Text} {place changed : Place}
    {before after : Text} (h : ChangedAt source place changed before after)
    (front back : Text) :
    ChangedAt source place changed (front ++ before ++ back)
      (front ++ after ++ back) := by
  rcases h with rfl | ⟨outer, new, inner, rest, houter, hnew, rfl, rfl⟩
  · exact Or.inl rfl
  · refine Or.inr ⟨outer, new, front ++ inner, rest ++ back, houter,
      hnew, ?_, ?_⟩
    · simp only [List.append_assoc]
    · simp only [List.append_assoc]

end Place

/-- A path starts with a node that lies at the start of the chain of its
place. -/
theorem chain_of_placeIn {ancestors nodes : List Node} {index : Nat}
    {path : List Nat} {place : Place}
    (h : placeIn ancestors (index :: path) nodes = some place) :
    ∃ node below, nodes[index]? = some node ∧
      place.chain = ancestors.reverse ++ node :: below ∧
      (path = [] ∧ place.node = node ∨
        placeIn (node :: ancestors) path node.children = some place) := by
  induction path generalizing ancestors index nodes with
  | nil =>
    obtain ⟨node, hget, rfl⟩ := Option.map_eq_some_iff.mp h
    exact ⟨node, [], hget, rfl, Or.inl ⟨rfl, rfl⟩⟩
  | cons next path ih =>
    rw [placeIn] at h
    · split at h
      · next node hget =>
        obtain ⟨second, below, _, hchain, _⟩ := ih h
        refine ⟨node, second :: below, hget, ?_, Or.inr h⟩
        rw [hchain, List.reverse_cons, List.append_assoc]
        rfl
      · cases h
    · exact List.cons_ne_nil _ _

/-- The first generated node of a chain is its outermost one. -/
theorem outermost?_of_chain {place : Place} {ancestors below : List Node}
    {node : Node} (hchain : place.chain = ancestors.reverse ++ node :: below)
    (hread : ∀ ancestor ∈ ancestors, ancestor.isGenerated = false)
    (hnode : node.isGenerated = true) : place.outermost? = some node := by
  have hnone : ancestors.reverse.find? Node.isGenerated = none := by
    rw [List.find?_eq_none]
    intro ancestor hmem
    rw [hread ancestor (List.mem_reverse.mp hmem)]
    exact Bool.false_ne_true
  rw [Place.outermost?, hchain, List.find?_append, hnone, Option.none_or,
    List.find?_cons_of_pos hnode]

/-- Other children in a generated container change the text of the outermost
generated node around it, and no other text. -/
theorem changedAt_replaceIn (source : Text) (cursor stop : Nat)
    {siblings old new nodes : List Node} {path : List Nat}
    {place changed : Place} (hplace : placeIn old path nodes = some place)
    (hchanged : placeIn new path (replaceIn siblings path nodes) = some changed)
    (hold : ∀ ancestor ∈ old, ancestor.isGenerated = false)
    (hnew : ∀ ancestor ∈ new, ancestor.isGenerated = false)
    (hgenerated : place.node.isGenerated = true) :
    Place.ChangedAt source place changed
      (serializeFrom source cursor stop nodes)
      (serializeFrom source cursor stop (replaceIn siblings path nodes)) := by
  induction path generalizing cursor stop old new nodes with
  | nil => cases hplace
  | cons index path ih =>
    obtain ⟨node, below, hget, hchain, hinner⟩ := chain_of_placeIn hplace
    cases node with
    | leaf origin item =>
      rw [replaceIn, hget]
      exact Or.inl rfl
    | container origin content head children =>
      rw [replaceIn_cons hget] at hchanged ⊢
      obtain ⟨node', below', hget', hchain', hinner'⟩ :=
        chain_of_placeIn hchanged
      obtain ⟨hindex, _⟩ := List.getElem?_eq_some_iff.mp hget
      rw [List.getElem?_set_self hindex, Option.some.injEq] at hget'
      subst hget'
      have hself : serializeFrom source cursor stop nodes =
        serializeFrom source cursor stop
          (nodes.set index (.container origin content head children)) := by
        rw [set_eq_self hget]
      match origin, content with
      | .generated layout, content =>
        refine Or.inr ⟨.container (.generated layout) content head children,
          .container (.generated layout) content head
            (replaceIn siblings path children),
          serializeFrom source cursor (cursorAfter cursor (nodes.take index))
            (nodes.take index),
          serializeFrom source (cursorAfter cursor (nodes.take index)) stop
            (nodes.drop (index + 1)),
          outermost?_of_chain hchain hold rfl,
            outermost?_of_chain hchain' hnew rfl, ?_, ?_⟩
        · rw [hself, serializeFrom_set hget, serializeFrom_of_generated rfl,
            List.append_assoc]
        · rw [serializeFrom_set hget, serializeFrom_of_generated rfl,
            List.append_assoc]
      | .parsed span, none =>
        refine Or.inl ?_
        rw [hself, serializeFrom_set hget, serializeFrom_set hget,
          serializeFrom_of_span? rfl, serializeFrom_of_span? rfl,
          Node.serialize, Node.serialize]
      | .parsed span, some content =>
        have hblock : blockIn? cursor stop [index] nodes =
            some ⟨content.start, content.stop, children⟩ := by
          rw [blockIn?, hget]
          rfl
        obtain ⟨after, hafter⟩ := serializeFrom_replaceIn source hblock
        have htext : ∀ below, serializeFrom source cursor stop
            (nodes.set index
              (.container (.parsed span) (some content) head below)) =
              textBefore source cursor 0 [index] nodes ++
                serializeFrom source content.start content.stop below ++
                  after := by
          intro below
          rw [← hafter below, replaceIn_cons hget, replaceIn]
        rcases hinner with ⟨_, hnode⟩ | hinner
        · rw [hnode] at hgenerated
          cases hgenerated
        · rcases hinner' with ⟨rfl, _⟩ | hinner'
          · cases hinner
          · have hchildren := ih content.start content.stop hinner hinner'
              (List.forall_mem_cons.mpr ⟨rfl, hold⟩)
                (List.forall_mem_cons.mpr ⟨rfl, hnew⟩)
            rw [hself, htext, htext]
            exact hchildren.around _ _

/-! ## Edits are local -/

/-- The document as a container over its whole source. -/
def Document.asNode (document : Document) : Node :=
  .container (.parsed ⟨0, document.source.length⟩)
    (some ⟨0, document.source.length⟩) (.rule []) document.children

/-- The node at the end of a path; the empty path leads to the document. -/
def Document.nodeAt? (document : Document) : List Nat → Option Node
  | [] => some document.asNode
  | path => (document.place? path).map Place.node

/-- The text of a document before the child with the given index of the
container at the end of a path. -/
def Document.textBefore (document : Document) (path : List Nat) (index : Nat) :
    Text :=
  Css.textBefore document.source 0 index path document.children

theorem place_of_nodeAt? {document : Document} {path : List Nat} {index : Nat}
    {node : Node} (h : document.nodeAt? (path ++ [index]) = some node) :
    ∃ place, document.place? (path ++ [index]) = some place ∧ place.node =
      node := by
  cases path with
  | nil => exact Option.map_eq_some_iff.mp h
  | cons => exact Option.map_eq_some_iff.mp h

theorem listIn?_of_placeIn {ancestors nodes siblings : List Node}
    {path : List Nat} {place : Place} {origin : Origin} {content : Option Span}
    {head : Head} (h : placeIn ancestors path nodes = some place)
    (hnode : place.node = .container origin content head siblings) :
    listIn? path nodes = some siblings := by
  induction path generalizing ancestors nodes with
  | nil => cases h
  | cons index path ih =>
    obtain ⟨node, _, hget, _, hinner⟩ := chain_of_placeIn h
    rw [listIn?, hget]
    rcases hinner with ⟨rfl, rfl⟩ | hinner
    · rw [hnode]
      rfl
    · cases node with
      | leaf origin item =>
        rw [Node.children, placeIn_nil] at hinner
        cases hinner
      | container => exact ih hinner

/-- The children of a container are the list at the end of its path. -/
theorem listIn?_of_nodeAt? {document : Document} {path : List Nat}
    {origin : Origin} {content : Option Span} {head : Head}
    {siblings : List Node}
    (h : document.nodeAt? path =
      some (.container origin content head siblings)) :
    listIn? path document.children = some siblings := by
  cases path with
  | nil =>
    cases h
    rfl
  | cons index path =>
    obtain ⟨place, hplace, hnode⟩ := Option.map_eq_some_iff.mp h
    exact listIn?_of_placeIn hplace hnode

/-- A place is still there when another list of children is put in at its
path. -/
theorem exists_placeIn_replaceIn {old nodes : List Node} {path : List Nat}
    {place : Place} (h : placeIn old path nodes = some place)
    (siblings new : List Node) :
    ∃ changed, placeIn new path (replaceIn siblings path nodes) =
      some changed := by
  induction path generalizing old new nodes with
  | nil => cases h
  | cons index path ih =>
    obtain ⟨node, _, hget, _, hinner⟩ := chain_of_placeIn h
    obtain ⟨hindex, _⟩ := List.getElem?_eq_some_iff.mp hget
    cases node with
    | leaf origin item =>
      rcases hinner with ⟨rfl, _⟩ | hinner
      · rw [replaceIn, hget, placeIn, hget]
        exact ⟨_, rfl⟩
      · rw [Node.children, placeIn_nil] at hinner
        cases hinner
    | container origin content head children =>
      rw [replaceIn_cons hget]
      rcases hinner with ⟨rfl, _⟩ | hinner
      · rw [placeIn, List.getElem?_set_self hindex]
        exact ⟨_, rfl⟩
      · obtain ⟨changed, hchanged⟩ :=
          ih hinner (.container origin content head
            (replaceIn siblings path children) :: new)
        cases path with
        | nil => cases hinner
        | cons next path =>
          refine ⟨changed, ?_⟩
          rw [placeIn]
          · rw [List.getElem?_set_self hindex]
            exact hchanged
          · exact List.cons_ne_nil _ _

theorem blockIn?_append {start stop : Nat} {path : List Nat} {nodes : List Node}
    {block : Block} (h : blockIn? start stop path nodes = some block)
    {index : Nat} {span content : Span} {head : Head} {children : List Node}
    (hget : block.children[index]? =
      some (.container (.parsed span) (some content) head children)) :
    blockIn? start stop (path ++ [index]) nodes =
      some ⟨content.start, content.stop, children⟩ := by
  induction path generalizing start stop nodes with
  | nil =>
    cases h
    rw [List.nil_append, blockIn?, hget]
    rfl
  | cons next path ih =>
    obtain ⟨_, _, _, _, hnext, hblock⟩ := blockIn?_cons h
    rw [List.cons_append, blockIn?, hnext]
    exact ih hblock

/-- What was read lies in a list of children that is printed where it stands. -/
theorem exists_blockIn?_of_placeIn {ancestors nodes : List Node}
    {path : List Nat} {index : Nat} {place : Place} (start stop : Nat)
    (hgrown : GrownAll nodes)
    (hplace : placeIn ancestors (path ++ [index]) nodes = some place)
    (hread : place.node.isGenerated = false) :
    ∃ block, blockIn? start stop path nodes = some block ∧
      block.children[index]? = some place.node := by
  induction path generalizing ancestors start stop nodes with
  | nil =>
    obtain ⟨node, hget, rfl⟩ := Option.map_eq_some_iff.mp hplace
    exact ⟨_, rfl, hget⟩
  | cons next path ih =>
    obtain ⟨node, _, hget, _, ⟨hnil, _⟩ | hinner⟩ := chain_of_placeIn hplace
    · exact absurd hnil
        (List.append_ne_nil_of_right_ne_nil _ (List.cons_ne_nil _ _))
    · have hbelow :=
        grownAll_iff_forall.mp hgrown node (List.mem_of_getElem? hget)
      have hmem : place.node ∈ walk node.children :=
        node_of_mem_placesOf (mem_placesOf_iff.mpr ⟨_, hinner⟩)
      have hcontra : ¬AllGenerated node.children := fun hall =>
        Bool.false_ne_true (hread.symm.trans (hall _ hmem))
      match node, hbelow with
      | .leaf _ _, _ => cases hmem
      | .container (.parsed _) (some content) _ _, hbelow =>
        rw [blockIn?, hget]
        exact ih content.start content.stop hbelow hinner
      | .container (.parsed _) none _ _, hbelow => exact absurd hbelow hcontra
      | .container (.generated _) _ _ _, hbelow => exact absurd hbelow hcontra

/-- A container that was read with a block, or the document, is printed where it
stands. -/
theorem blockIn?_of_nodeAt? {document : Document} {path : List Nat}
    {span content : Span} {head : Head} {siblings : List Node}
    (hgrown : GrownAll document.children)
    (h : document.nodeAt? path =
      some (.container (.parsed span) (some content) head siblings)) :
    blockIn? 0 document.source.length path document.children =
      some ⟨content.start, content.stop, siblings⟩ := by
  rcases List.eq_nil_or_concat path with rfl | ⟨path, index, rfl⟩
  · cases h
    rfl
  · rw [List.concat_eq_append] at h ⊢
    obtain ⟨place, hplace, hnode⟩ := place_of_nodeAt? h
    obtain ⟨block, hblock, hget⟩ :=
      exists_blockIn?_of_placeIn 0 document.source.length hgrown
      hplace (by rw [hnode]; rfl)
    exact blockIn?_append hblock (hget.trans (congrArg some hnode))

/-- What an edit does to the text of a document. -/
structure Edit.IsLocal (document : Document) (edit : Edit) : Prop where
  /-- Into the document or a container that was read with a block, an edit puts
  the text of the new node between the text before it and the text after it, and
  succeeds. -/
  inserts : ∀ span content head siblings,
    document.nodeAt? edit.path =
      some (.container (.parsed span) (some content) head siblings) →
    edit.count siblings ≤ siblings.length →
    ∃ edited back,
      edit.perform document = (edited, none) ∧
      document.toText = document.textBefore edit.path (edit.count siblings) ++
        back ∧
      edited.toText = document.textBefore edit.path (edit.count siblings) ++
        edit.node.serialize document.source ++ back
  /-- The text before the new node ends in the text of the sibling before it. -/
  follows : ∀ span content head siblings index sibling,
    document.nodeAt? edit.path =
      some (.container (.parsed span) (some content) head siblings) →
    siblings[index]? = some sibling →
    ∃ start stop,
      document.textBefore edit.path (index + 1) =
        document.textBefore edit.path index ++
          document.source.slice start stop ++
          sibling.serialize document.source ∧
      (sibling.isGenerated = true → start = stop)
  /-- The text before a first child ends where the content of its container
  starts. -/
  opens : ∀ path index span content head siblings, edit.path = path ++ [index] →
    document.nodeAt? edit.path =
      some (.container (.parsed span) (some content) head siblings) →
    ∃ start,
      document.textBefore edit.path 0 =
        document.textBefore path index ++
          document.source.slice start span.start ++
          document.source.slice span.start content.start
  /-- The content of the document starts where it does. -/
  opensDocument : document.textBefore [] 0 = []
  /-- Into a generated container, an edit changes the text of the outermost
  generated node around it, and succeeds. -/
  changes : ∀ place layout content head siblings,
    document.place? edit.path = some place →
    place.node = .container (.generated layout) content head siblings →
    edit.count siblings ≤ siblings.length →
    ∃ edited changed,
      edit.perform document = (edited, none) ∧
      edited.place? edit.path = some changed ∧
      Place.ChangedAt document.source place changed document.toText
        edited.toText
  /-- Without such a child to stand after, an edit fails. -/
  fails : ∀ origin content head siblings,
    document.nodeAt? edit.path =
      some (.container origin content head siblings) →
    siblings.length < edit.count siblings →
    edit.perform document = (document, some .noSuchNode)

/-- In a document that comes from a source by edits with fresh nodes, every
further one is local. -/
theorem edit_isLocal {source : Text} {document : Document} {edit : Edit}
    (h : Reached source document) (hfresh : edit.node.Fresh) :
    edit.IsLocal document where
  inserts := by
    intro span content head siblings hnode hcount
    have hblock := blockIn?_of_nodeAt? h.grownAll hnode
    have hlist := listIn?_of_nodeAt? hnode
    obtain ⟨after, hafter⟩ := serializeFrom_replaceIn document.source hblock
    have hnew : edit.node.isGenerated = true := (allGenerated_cons.mp hfresh).1
    refine ⟨⟨document.source,
      replaceIn (siblings.take (edit.count siblings) ++ edit.node ::
        siblings.drop (edit.count siblings)) edit.path document.children⟩,
      serializeFrom document.source
        (cursorAfter content.start (siblings.take (edit.count siblings)))
          content.stop
        (siblings.drop (edit.count siblings)) ++ after, ?_, ?_, ?_⟩
    · rw [Edit.perform_eq hlist, if_pos hcount]
    · have hself := hafter siblings
      have hsplit :=
        serializeFrom_append document.source content.start content.stop
        (siblings.take (edit.count siblings))
          (siblings.drop (edit.count siblings))
      rw [List.take_append_drop] at hsplit
      rw [replaceIn_self hlist, hsplit] at hself
      rw [Document.toText, Document.textBefore, textBefore_eq _ hblock, hself]
      simp only [List.append_assoc]
    · rw [Document.toText, Document.textBefore, textBefore_eq _ hblock, hafter,
        serializeFrom_append, serializeFrom_of_generated hnew]
      simp only [List.append_assoc]
  follows := by
    intro span content head siblings index sibling hnode hget
    exact textBefore_succ document.source
      (blockIn?_of_nodeAt? h.grownAll hnode) hget
  opens := by
    intro path index span content head siblings hpath hnode
    rw [hpath] at hnode ⊢
    obtain ⟨place, hplace, hnode⟩ := place_of_nodeAt? hnode
    obtain ⟨block, hblock, hget⟩ :=
      exists_blockIn?_of_placeIn 0 document.source.length h.grownAll
      hplace (by rw [hnode]; rfl)
    exact textBefore_zero document.source hblock
      (hget.trans (congrArg some hnode))
  opensDocument := by
    rw [Document.textBefore, textBefore, List.take_zero, cursorAfter,
      serializeFrom, Text.slice_eq_nil _ (Nat.le_refl _)]
  changes := by
    intro place layout content head siblings hplace hnode hcount
    have hlist := listIn?_of_placeIn hplace hnode
    obtain ⟨changed, hchanged⟩ := exists_placeIn_replaceIn hplace
      (siblings.take (edit.count siblings) ++ edit.node :: siblings.drop
        (edit.count siblings)) []
    refine ⟨⟨document.source,
      replaceIn (siblings.take (edit.count siblings) ++ edit.node ::
        siblings.drop (edit.count siblings)) edit.path document.children⟩,
          changed,
      by rw [Edit.perform_eq hlist, if_pos hcount], hchanged, ?_⟩
    exact changedAt_replaceIn document.source 0 document.source.length hplace
      hchanged
      (fun _ hmem => absurd hmem List.not_mem_nil)
        (fun _ hmem => absurd hmem List.not_mem_nil)
      (by rw [hnode]; rfl)
  fails := by
    intro origin content head siblings hnode hcount
    rw [Edit.perform_eq (listIn?_of_nodeAt? hnode),
      if_neg (Nat.not_le.mpr hcount)]

/-- A rule in a block gets a generated at-rule after it, which then gets a
declaration. -/
theorem edit_isLocal_nested :
    ∃ document gate item,
      Document.parse "@media b\x7ba\x7bc:d\x7d\x7d".toList = .ok document ∧
        gate = .container (.generated ⟨['\n'], [' '], ['\t']⟩) none
          (.atRule ['s'] [] true) [] ∧
        item = .leaf (.generated ⟨[], [], []⟩)
          (.declaration ['x'] ['y'] false) ∧
        (Edit.insertAfter [0] 0 gate).IsLocal document ∧
        (Edit.append [0, 1] item).IsLocal
          ((Edit.insertAfter [0] 0 gate).perform document).1 ∧
        ((Edit.append [0, 1] item).perform
            ((Edit.insertAfter [0] 0 gate).perform document).1).1.toText =
          "@media b\x7ba\x7bc:d\x7d\n @s \x7b\n \tx: y;\n \x7d\x7d".toList := by
  have hok : (Document.parse "@media b\x7ba\x7bc:d\x7d\x7d".toList).isOk =
      true := by
    decide +kernel
  have htext :
    (Document.parse "@media b\x7ba\x7bc:d\x7d\x7d".toList).toOption.all
      (fun document => ((Edit.append [0, 1]
          (.leaf (.generated ⟨[], [], []⟩)
            (.declaration ['x'] ['y'] false))).perform
        ((Edit.insertAfter [0] 0
          (.container (.generated ⟨['\n'], [' '], ['\t']⟩) none
          (.atRule ['s'] [] true) [])).perform document).1).1.toText =
          "@media b\x7ba\x7bc:d\x7d\n @s \x7b\n \tx: y;\n \x7d\x7d".toList) =
            true := by
    decide +kernel
  obtain ⟨document, h⟩ := exists_of_isOk hok
  rw [h, Except.toOption, Option.all_some, decide_eq_true_iff] at htext
  have hgate : Node.Fresh (.container (.generated ⟨['\n'], [' '], ['\t']⟩) none
      (.atRule ['s'] [] true) []) :=
        allGenerated_cons.mpr ⟨rfl, allGenerated_nil, allGenerated_nil⟩
  have hitem : Node.Fresh
      (.leaf (.generated ⟨[], [], []⟩) (.declaration ['x'] ['y'] false)) :=
    allGenerated_cons.mpr ⟨rfl, allGenerated_nil, allGenerated_nil⟩
  have hread : Reached "@media b\x7ba\x7bc:d\x7d\x7d".toList document := .read h
  exact ⟨document, _, _, h, rfl, rfl, edit_isLocal hread hgate,
    edit_isLocal (.edited hread hgate) hitem, htext⟩

end OklchGate.Css
