import OklchGate.Gate.Insert
import OklchGate.Proofs.Css.Spans
import OklchGate.Proofs.Text.Weave

/-!
# What an insertion of gates adds

Inserting gates puts texts into a style sheet and leaves the rest as it is.

There are three groups.

* `sitesOf`, the eligible rules with their scans, in the order of the scan
  (`map_scan_sitesOf`).
* `patches`, the texts that are put in: the gate of each rule at the end of
  that rule, and the gate for `:root` at the end of the last node.
* `serializeFrom_gatedNodes`: nodes with their gates are printed as the source
  with these patches.  `output_eq_weave` says so of a whole style sheet.
-/

namespace OklchGate.Gate

/-! ## Sites -/

/-- An eligible rule with what is found in it. -/
structure Site where
  rule : Css.Node
  scan : RuleScan

mutual

/-- The eligible rules in a node, with `following` the siblings after it. -/
def sitesIn (convert : Converter) (inert : Bool) (following : List Css.Node) :
    Css.Node → List Site
  | .leaf _ _ => []
  | .container origin content head children =>
    ((scanHead? convert inert head children following).map
      (Site.mk (.container origin content head children))).toList ++
      sitesOf convert (inert || isInert head) children
termination_by structural node => node

/-- The eligible rules in some nodes, in the order of the text. -/
def sitesOf (convert : Converter) (inert : Bool) : List Css.Node → List Site
  | [] => []
  | node :: rest =>
    sitesIn convert inert rest node ++ sitesOf convert inert rest
termination_by structural nodes => nodes

end

mutual

theorem map_scan_sitesIn (convert : Converter) (inert : Bool)
    (following : List Css.Node) (node : Css.Node) :
    (sitesIn convert inert following node).map Site.scan =
      scanNode convert inert following node := by
  cases node with
  | leaf origin item => rfl
  | container origin content head children =>
    rw [sitesIn, scanNode, List.map_append, map_scan_sitesOf convert _ children]
    cases scanHead? convert inert head children following <;> rfl

/-- The scans of the sites are the scans of the rules, in their order. -/
theorem map_scan_sitesOf (convert : Converter) (inert : Bool)
    (nodes : List Css.Node) :
    (sitesOf convert inert nodes).map Site.scan =
      scanNodes convert inert nodes := by
  cases nodes with
  | nil => rfl
  | cons node rest =>
    rw [sitesOf, scanNodes, List.map_append,
      map_scan_sitesIn convert inert rest node,
      map_scan_sitesOf convert inert rest]

end

theorem selector_of_scanHead? {convert : Converter} {inert : Bool}
    {head : Css.Head} {children following : List Css.Node} {rule : RuleScan}
    (h : scanHead? convert inert head children following = some rule) :
    head = .rule rule.selector := by
  cases head with
  | rule selector =>
    rw [scanHead?] at h
    split at h
    · exact absurd h nofun
    · rw [Option.some.injEq] at h
      rw [← h, RuleScan.ofRule]
  | atRule name params hasBlock => exact absurd h nofun

mutual

theorem rule_of_mem_sitesIn {convert : Converter} {inert : Bool}
    {following : List Css.Node} {node : Css.Node} {site : Site}
    (h : site ∈ sitesIn convert inert following node) :
    site.rule ∈ node :: node.descendants ∧
      site.rule.selector? = some site.scan.selector := by
  cases node with
  | leaf origin item => exact absurd h nofun
  | container origin content head children =>
    rw [sitesIn, List.mem_append, Option.mem_toList,
      Option.map_eq_some_iff] at h
    rcases h with ⟨rule, hrule, rfl⟩ | h
    · rw [selector_of_scanHead? hrule]
      exact ⟨List.mem_cons_self, rfl⟩
    · have hinner := rule_of_mem_sitesOf h
      exact ⟨List.mem_cons_of_mem _ hinner.1, hinner.2⟩

/-- The rule of a site is one of the nodes, and its selector is the one that was
scanned. -/
theorem rule_of_mem_sitesOf {convert : Converter} {inert : Bool}
    {nodes : List Css.Node} {site : Site}
    (h : site ∈ sitesOf convert inert nodes) :
    site.rule ∈ Css.walk nodes ∧ site.rule.selector? =
      some site.scan.selector := by
  cases nodes with
  | nil => exact absurd h nofun
  | cons node rest =>
    rw [sitesOf, List.mem_append] at h
    rw [Css.walk, List.mem_append]
    rcases h with h | h
    · have hnode := rule_of_mem_sitesIn h
      exact ⟨Or.inl hnode.1, hnode.2⟩
    · have hrest := rule_of_mem_sitesOf h
      exact ⟨Or.inr hrest.1, hrest.2⟩

end

/-! ## Patches -/

/-- The offset at which a node that was read ends. -/
def stopOf (node : Css.Node) : Nat := (node.span?.map Css.Span.stop).getD 0

/-- The gate of a site, put in at the end of its rule. -/
def Site.patch (setting : Setting) (site : Site) : Text.Patch :=
  ⟨stopOf site.rule,
    (gateNode (ruleLayout setting.source setting.unit site.rule)
      site.scan.selector site.scan.items).serialize setting.source⟩

/-- The gates of the sites that get one. -/
def sitePatches (setting : Setting) (sites : List Site) : List Text.Patch :=
  (sites.filter fun site => site.scan.isGroup).map (Site.patch setting)

/-- The offset at which the last of some nodes ends. -/
def stopOfLast (nodes : List Css.Node) : Nat :=
  (nodes.getLast?.map stopOf).getD 0

/-- The gate for `:root`, put in at the end of the last top-level node. -/
def rootPatch? (unit : Text) (convert : Converter) (document : Css.Document) :
    Option Text.Patch :=
  (rootGate? unit (scan convert document)).map fun gate =>
    ⟨stopOfLast document.children, gate.serialize document.source⟩

/-- All gates that are put into a document: those of rules, then the one for
`:root`. -/
def patches (convert : Converter) (unit : Text) (document : Css.Document) :
    List Text.Patch :=
  sitePatches ⟨document.source, convert, unit⟩
    (sitesOf convert false document.children) ++
    (rootPatch? unit convert document).toList

theorem sitePatches_append (setting : Setting) (a b : List Site) :
    sitePatches setting (a ++ b) = sitePatches setting a ++
      sitePatches setting b := by
  simp [sitePatches]

/-- The patches of a container: that of its own gate, then those of its
children. -/
theorem sitePatches_sitesIn (setting : Setting) (inert : Bool)
    (following : List Css.Node) (origin : Css.Origin)
    (content : Option Css.Span) (head : Css.Head) (children : List Css.Node) :
    sitePatches setting
        (sitesIn setting.convert inert following
          (.container origin content head children)) =
      ((gateFor? setting inert (.container origin content head children)
        following).map
          fun gate =>
            ⟨stopOf (.container origin content head children),
              gate.serialize setting.source⟩).toList ++
        sitePatches setting
          (sitesOf setting.convert (inert || isInert head) children) := by
  rw [sitesIn, sitePatches_append, gateFor?]
  congr 1
  cases scanHead? setting.convert inert head children following with
  | none => rfl
  | some rule =>
    dsimp only [Option.map_some, Option.toList_some]
    by_cases hgroup : rule.isGroup = true
    · simp [sitePatches, hgroup, Site.patch]
    · simp [sitePatches, hgroup]

/-- A rule without children gets no gate. -/
theorem gateFor?_of_no_children (setting : Setting) (inert : Bool)
    (following : List Css.Node) (origin : Css.Origin)
    (content : Option Css.Span) (head : Css.Head) :
    gateFor? setting inert (.container origin content head []) following =
      none := by
  rw [gateFor?]
  cases head with
  | rule selector =>
    cases inert <;> rfl
  | atRule name params hasBlock => rfl

/-! ## Where patches stand -/

mutual

theorem offset_of_mem_sitesIn (setting : Setting) (inert : Bool)
    (following : List Css.Node) {node : Css.Node} {a b : Nat}
    (h : node.Spans a b) :
    ∀ patch ∈ sitePatches setting
        (sitesIn setting.convert inert following node),
      a < patch.offset ∧ patch.offset ≤ b := by
  intro patch hpatch
  cases node with
  | leaf origin item => exact absurd hpatch nofun
  | container origin content head children =>
    have hstop : stopOf (.container origin content head children) = b := by
      rw [stopOf, h.span?_eq]
      rfl
    rw [sitePatches_sitesIn, hstop, List.mem_append] at hpatch
    cases content with
    | none =>
      obtain ⟨_, _, rfl⟩ := h
      rw [gateFor?_of_no_children] at hpatch
      rcases hpatch with hpatch | hpatch <;> exact absurd hpatch nofun
    | some content =>
      obtain ⟨_, hstart, hchildren, hend⟩ := h
      have hle := hchildren.le
      rcases hpatch with hpatch | hpatch
      · rw [Option.mem_toList, Option.map_eq_some_iff] at hpatch
        obtain ⟨gate, _, rfl⟩ := hpatch
        dsimp only
        omega
      · have hinside := offset_of_mem_sitesOf setting _ hchildren patch hpatch
        omega

/-- The gates of rules stand after the start of a list of nodes and not after
its end. -/
theorem offset_of_mem_sitesOf (setting : Setting) (inert : Bool)
    {nodes : List Css.Node} {start stop : Nat}
    (h : Css.Tiles start stop nodes) :
    ∀ patch ∈ sitePatches setting (sitesOf setting.convert inert nodes),
      start < patch.offset ∧ patch.offset ≤ stop := by
  intro patch hpatch
  cases nodes with
  | nil => exact absurd hpatch nofun
  | cons node rest =>
    obtain ⟨a, b, hstart, hnode, hrest⟩ := h
    rw [sitesOf, sitePatches_append, List.mem_append] at hpatch
    rcases hpatch with hpatch | hpatch
    · have hle := hrest.le
      have hinside :=
        offset_of_mem_sitesIn setting inert rest hnode patch hpatch
      omega
    · have hle := hnode.le
      have hinside := offset_of_mem_sitesOf setting inert hrest patch hpatch
      omega

end

/-! ## Printing nodes with their gates -/

theorem span?_gatedNode (setting : Setting) (inert : Bool) (node : Css.Node) :
    (gatedNode setting inert node).span? = node.span? := by
  cases node <;> rfl

theorem span?_gateNode (layout : Css.Layout) (selector : Text)
    (items : List Item) :
    (gateNode layout selector items).span? = none := rfl

/-- A gate that is put in was generated. -/
theorem span?_of_gateFor? {setting : Setting} {inert : Bool}
    {node gate : Css.Node} {following : List Css.Node}
    (h : gateFor? setting inert node following = some gate) :
    gate.span? = none := by
  unfold gateFor? at h
  split at h
  · cases h
  · split at h
    · split at h
      · rw [Option.some.injEq] at h
        rw [← h, span?_gateNode]
      · cases h
    · cases h

/-- The text of the gate of a node, if it gets one. -/
def gateText (setting : Setting) (inert : Bool) (node : Css.Node)
    (following : List Css.Node) : Text :=
  ((gateFor? setting inert node following).map
    (Css.Node.serialize setting.source)).getD []

theorem serializeFrom_gate (setting : Setting) (inert : Bool) (node : Css.Node)
    (following others : List Css.Node) (cursor stop : Nat) :
    Css.serializeFrom setting.source cursor stop
        ((gateFor? setting inert node following).toList ++ others) =
      gateText setting inert node following ++
        Css.serializeFrom setting.source cursor stop others := by
  cases hgate : gateFor? setting inert node following with
  | none => simp [gateText, hgate]
  | some gate =>
    simp [gateText, hgate, Css.serializeFrom, span?_of_gateFor? hgate]

mutual

/-- A node that was read is printed, with its gates, as the part of the source
that it covers, with the patches of its rules. -/
theorem serialize_gatedNode (setting : Setting) (inert : Bool)
    (following : List Css.Node) {node : Css.Node} {a b : Nat}
    (h : node.Spans a b) (hb : b ≤ setting.source.length) :
    (gatedNode setting inert node).serialize setting.source ++
        gateText setting inert node following =
      Text.weaveAfter
        (sitePatches setting (sitesIn setting.convert inert following node)) a
        (setting.source.slice a b) := by
  have hle := h.le
  cases node with
  | leaf origin item =>
    obtain ⟨rfl, _⟩ := h
    rw [sitesIn, sitePatches, List.filter_nil, List.map_nil,
      Text.weaveAfter_nil]
    exact List.append_nil _
  | container origin content head children =>
    have hstop : stopOf (.container origin content head children) = b := by
      rw [stopOf, h.span?_eq]
      rfl
    rw [sitePatches_sitesIn, hstop, gatedNode]
    cases content with
    | none =>
      obtain ⟨rfl, _, rfl⟩ := h
      rw [gateText, gateFor?_of_no_children, gatedNodes, sitesOf, sitePatches,
        List.filter_nil]
      simp [Css.Node.serialize, Text.weaveAfter_nil]
    | some content =>
      obtain ⟨rfl, hstart, hchildren, hend⟩ := h
      have hcontent := hchildren.le
      have hpatches :=
        offset_of_mem_sitesOf setting (inert || isInert head) hchildren
      rw [Css.Node.serialize,
        serializeFrom_gatedNodes setting _ hchildren (by omega)]
      generalize sitePatches setting
        (sitesOf setting.convert (inert || isInert head) children) =
        inner at hpatches
      obtain ⟨own, hown⟩ : ∃ own : List Text.Patch, own =
          ((gateFor? setting inert
            (.container (.parsed ⟨a, b⟩) (some content) head children)
            following).map fun gate =>
              ⟨b, gate.serialize setting.source⟩).toList := ⟨_, rfl⟩
      have hownOffset : ∀ patch ∈ own, patch.offset = b := by
        rw [hown]
        simp
      have hlast : Text.weaveAfter own content.stop
        (setting.source.slice content.stop b) =
          setting.source.slice content.stop b ++ gateText setting inert
            (.container (.parsed ⟨a, b⟩) (some content) head children)
              following := by
        rw [hown, gateText]
        cases gateFor? setting inert _ following with
        | none => simp [Text.weaveAfter_nil]
        | some gate =>
          have hgate := Text.weaveAfter_slice_concat []
            ⟨b, gate.serialize setting.source⟩ hend hb
          rwa [List.nil_append, Text.weaveAfter_nil] at hgate
      rw [← hown, Text.weaveAfter_slice _ hstart (by omega) hb,
        Text.weaveAfter_slice _ hcontent (Nat.le_of_lt hend) hb,
        Text.weaveAfter_slice_eq_self hstart (by omega),
        Text.weaveAfter_slice_of_left hcontent (by omega),
        Text.weaveAfter_slice_of_right (Nat.le_of_lt hend) hb, hlast]
      · simp only [List.append_assoc]
      · intro patch hpatch
        exact Or.inl (hpatches patch hpatch).2
      · intro patch hpatch
        rw [hownOffset patch hpatch]
        exact Or.inr hend
      · intro patch hpatch
        rcases List.mem_append.mp hpatch with hpatch | hpatch
        · rw [hownOffset patch hpatch]
          omega
        · exact Or.inr (hpatches patch hpatch).1

/-- Nodes that stand in order in a part of a source are printed, with their
gates, as that part with the patches of their rules. -/
theorem serializeFrom_gatedNodes (setting : Setting) (inert : Bool)
    {nodes : List Css.Node} {start stop : Nat} (h : Css.Tiles start stop nodes)
    (hstop : stop ≤ setting.source.length) :
    Css.serializeFrom setting.source start stop
      (gatedNodes setting inert nodes) =
      Text.weaveAfter
        (sitePatches setting (sitesOf setting.convert inert nodes)) start
        (setting.source.slice start stop) := by
  cases nodes with
  | nil =>
    rw [gatedNodes, sitesOf, sitePatches, List.filter_nil, List.map_nil,
      Text.weaveAfter_nil]
    rfl
  | cons node rest =>
    obtain ⟨a, b, hstart, hnode, hrest⟩ := h
    have hle := hnode.le
    have hrestLe := hrest.le
    rw [gatedNodes, Css.serializeFrom, span?_gatedNode, hnode.span?_eq]
    dsimp only
    rw [serializeFrom_gate, serializeFrom_gatedNodes setting inert hrest hstop,
      List.append_assoc, ← List.append_assoc ((gatedNode _ _ _).serialize _),
      serialize_gatedNode setting inert rest hnode (Nat.le_trans hrestLe hstop),
      sitesOf, sitePatches_append]
    have hinside := offset_of_mem_sitesIn setting inert rest hnode
    have hafter := offset_of_mem_sitesOf setting inert hrest
    rw [Text.weaveAfter_slice _ hstart (Nat.le_trans hle hrestLe) hstop,
      Text.weaveAfter_slice _ hle hrestLe hstop,
      Text.weaveAfter_slice_eq_self hstart (by omega),
      Text.weaveAfter_slice_of_right hle (by omega),
      Text.weaveAfter_slice_of_left hrestLe hstop]
    · intro patch hpatch
      exact Or.inl (hinside patch hpatch).2
    · intro patch hpatch
      exact Or.inr (hafter patch hpatch).1
    · intro patch hpatch
      rcases List.mem_append.mp hpatch with hpatch | hpatch
      · exact Or.inr (hinside patch hpatch).1
      · have hlow := (hafter patch hpatch).1
        omega

end

/-! ## A whole style sheet -/

/-- The offset after the last of some nodes that was read, and `cursor` if
there is none. -/
def cursorAfter (cursor : Nat) : List Css.Node → Nat
  | [] => cursor
  | node :: rest =>
    cursorAfter ((node.span?.map Css.Span.stop).getD cursor) rest

/-- Nodes are printed one list after the other. -/
theorem serializeFrom_append (source : Text) (cursor stop : Nat)
    (a b : List Css.Node) :
    Css.serializeFrom source cursor stop (a ++ b) =
      Css.serializeFrom source cursor (cursorAfter cursor a) a ++
        Css.serializeFrom source (cursorAfter cursor a) stop b := by
  induction a generalizing cursor with
  | nil => simp [cursorAfter, Css.serializeFrom, Text.slice_eq_nil]
  | cons node rest ih =>
    rw [List.cons_append, Css.serializeFrom, Css.serializeFrom, cursorAfter]
    cases node.span? with
    | none => simp [ih]
    | some span => simp [ih]

/-- Gates do not move the end of the last node. -/
theorem cursorAfter_gatedNodes (setting : Setting) (inert : Bool) (cursor : Nat)
    (nodes : List Css.Node) :
    cursorAfter cursor (gatedNodes setting inert nodes) =
      cursorAfter cursor nodes := by
  induction nodes generalizing cursor with
  | nil => rfl
  | cons node rest ih =>
    rw [gatedNodes, cursorAfter, cursorAfter, span?_gatedNode, ← ih]
    cases hgate : gateFor? setting inert node rest with
    | none => rfl
    | some gate =>
      simp [cursorAfter, span?_of_gateFor? hgate]

/-- Nodes that stand in order end where the last of them does. -/
theorem tiles_cursorAfter {start stop : Nat} {nodes : List Css.Node}
    (h : Css.Tiles start stop nodes) :
    Css.Tiles start (cursorAfter start nodes) nodes ∧ cursorAfter start nodes ≤
      stop := by
  induction nodes generalizing start with
  | nil => exact ⟨Nat.le_refl start, h⟩
  | cons node rest ih =>
    obtain ⟨a, b, hstart, hnode, hrest⟩ := h
    have hcursor : cursorAfter start (node :: rest) = cursorAfter b rest := by
      rw [cursorAfter, hnode.span?_eq]
      rfl
    rw [hcursor]
    exact ⟨⟨a, b, hstart, hnode, (ih hrest).1⟩, (ih hrest).2⟩

theorem cursorAfter_eq_stopOfLast {start stop : Nat} {nodes : List Css.Node}
    (h : Css.Tiles start stop nodes) (hne : nodes ≠ []) :
    cursorAfter start nodes = stopOfLast nodes := by
  induction nodes generalizing start with
  | nil => exact absurd rfl hne
  | cons node rest ih =>
    obtain ⟨a, b, hstart, hnode, hrest⟩ := h
    have hcursor : cursorAfter start (node :: rest) = cursorAfter b rest := by
      rw [cursorAfter, hnode.span?_eq]
      rfl
    rw [hcursor]
    cases rest with
    | nil => simp [cursorAfter, stopOfLast, stopOf, hnode.span?_eq]
    | cons second more =>
      rw [ih hrest (List.cons_ne_nil second more)]
      simp [stopOfLast]

theorem span?_of_rootGate? {unit : Text} {scan : Scan} {gate : Css.Node}
    (h : rootGate? unit scan = some gate) : gate.span? = none := by
  unfold rootGate? at h
  split at h
  · exact absurd h nofun
  · rw [Option.some.injEq] at h
    rw [← h, span?_gateNode]

/-- There is a gate for `:root` only if there are top-level nodes. -/
theorem children_ne_nil_of_rootGate? {unit : Text} {convert : Converter}
    {document : Css.Document} {gate : Css.Node}
    (h : rootGate? unit (scan convert document) = some gate) :
    document.children ≠ [] := by
  intro hnil
  rw [rootGate?, scan, hnil] at h
  exact absurd h nofun

/-- The gate for `:root` is put in exactly when there are top-level items that
are not paired already, and it stands at the end of the last node. -/
theorem rootPatch?_eq_some_iff {unit : Text} {convert : Converter}
    {document : Css.Document} {patch : Text.Patch} :
    rootPatch? unit convert document = some patch ↔
      (scan convert document).rootItems ≠ [] ∧
        (scan convert document).rootPaired = false ∧
        patch = ⟨stopOfLast document.children,
          (gateNode { before := ['\n'], unit := unit } rootSelector
            (scan convert document).rootItems).serialize document.source⟩ := by
  rw [rootPatch?, rootGate?]
  split
  · rename_i hnone
    rw [Bool.or_eq_true, List.isEmpty_iff] at hnone
    refine iff_of_false nofun ?_
    rintro ⟨hitems, hpaired, _⟩
    rcases hnone with hnil | htrue
    · exact hitems hnil
    · rw [hpaired] at htrue
      cases htrue
  · rename_i hsome
    rw [Bool.or_eq_true, List.isEmpty_iff, not_or, Bool.not_eq_true] at hsome
    rw [Option.map_some, Option.some.injEq, and_iff_right hsome.1,
      and_iff_right hsome.2]
    exact eq_comm

/-- The gates that are put into a document with these nodes stand after its
start and not after its last node. -/
theorem offset_of_mem_patches (convert : Converter) (unit : Text)
    {document : Css.Document} {stop : Nat}
    (h : Css.Tiles 0 stop document.children) :
    ∀ patch ∈ patches convert unit document,
      0 < patch.offset ∧ patch.offset ≤ cursorAfter 0 document.children := by
  intro patch hpatch
  have htiles := (tiles_cursorAfter h).1
  rw [patches, List.mem_append] at hpatch
  rcases hpatch with hpatch | hpatch
  · exact offset_of_mem_sitesOf _ false htiles patch hpatch
  · rw [Option.mem_toList, rootPatch?, Option.map_eq_some_iff] at hpatch
    obtain ⟨gate, hgate, rfl⟩ := hpatch
    have hne := children_ne_nil_of_rootGate? hgate
    dsimp only
    rw [← cursorAfter_eq_stopOfLast h hne]
    refine ⟨?_, Nat.le_refl _⟩
    obtain ⟨node, rest, hnodes⟩ := List.exists_cons_of_ne_nil hne
    rw [hnodes] at htiles ⊢
    obtain ⟨a, b, _, hnode, hrest⟩ := htiles
    have hlt := hnode.lt
    have hle := hrest.le
    omega

/-- The output is the source with all gates put in. -/
theorem output_insertGates (convert : Converter) (unit : Text) {source : Text}
    {document : Css.Document} (h : Css.Document.parse source = .ok document) :
    (insertGates convert unit document).output =
      Text.Stitch.textOf
        (Text.weave (patches convert unit document) source) := by
  obtain ⟨hsource, htiles⟩ := Css.tiles_of_parse h
  obtain ⟨hcursorTiles, hcursor⟩ := tiles_cursorAfter htiles
  have hoffset := offset_of_mem_patches convert unit htiles
  have hstart : Text.patchesAt (patches convert unit document) 0 = [] := by
    apply Text.patchesAt_eq_nil
    intro patch hpatch
    exact Nat.ne_of_gt (hoffset patch hpatch).1
  have hwhole : source = source.slice 0 source.length :=
    (Text.slice_all source).symm
  have hnodes :=
    serializeFrom_gatedNodes ⟨source, convert, unit⟩ false hcursorTiles hcursor
  dsimp only at hnodes
  have hafter : Text.Outside (cursorAfter 0 document.children) source.length
      (patches convert unit document) :=
        fun patch hpatch => Or.inl (hoffset patch hpatch).2
  rw [Text.textOf_weave, hstart, List.nil_append]
  conv => rhs; arg 3; rw [hwhole]
  rw [Text.weaveAfter_slice _ (Nat.zero_le _) hcursor (Nat.le_refl _),
    Text.weaveAfter_slice_eq_self hcursor (Nat.le_refl _) hafter]
  rw [Insertion.output, insertGates, Css.Document.toText, hsource]
  dsimp only
  rw [serializeFrom_append, cursorAfter_gatedNodes, hnodes, patches, rootPatch?,
    hsource]
  cases hgate : rootGate? unit (scan convert document) with
  | none => simp [Css.serializeFrom]
  | some gate =>
    have hne := children_ne_nil_of_rootGate? hgate
    have hstop := cursorAfter_eq_stopOfLast htiles hne
    have hpos : 0 < cursorAfter 0 document.children := by
      have hpatch : (⟨cursorAfter 0 document.children, gate.serialize source⟩ :
        Text.Patch) ∈ patches convert unit document := by
        simp [patches, rootPatch?, hgate, hsource, hstop]
      exact (hoffset _ hpatch).1
    have hconcat := Text.weaveAfter_slice_concat
      (sitePatches ⟨source, convert, unit⟩
        (sitesOf convert false document.children))
      ⟨cursorAfter 0 document.children, gate.serialize source⟩ hpos hcursor
    dsimp only at hconcat
    rw [Option.map_some, Option.toList_some, Option.toList_some, ← hstop,
      hconcat, Css.serializeFrom, span?_of_rootGate? hgate]
    simp [Css.serializeFrom]

/-- For every source that is read, the gates are inserted, and the output is the
source with the gate of each rule of a group at the end of that rule, in the
order of the scan, and then, if there are top-level items that are not paired
already, the gate for `:root` at the end of the last top-level node.  Without
these texts, it is the source. -/
theorem output_eq_weave (convert : Converter) (unit : Text) {source : Text}
    {document : Css.Document} (h : Css.Document.parse source = .ok document) :
    ∃ insertion, transform convert unit source = .ok insertion ∧
      (sitesOf convert false document.children).map Site.scan =
        (scan convert document).rules ∧
      (∀ site ∈ sitesOf convert false document.children,
        site.rule ∈ Css.walk document.children ∧
          site.rule.selector? = some site.scan.selector) ∧
      (∀ patch, rootPatch? unit convert document = some patch ↔
        (scan convert document).rootItems ≠ [] ∧
          (scan convert document).rootPaired = false ∧
            patch = ⟨stopOfLast document.children,
              (gateNode { before := ['\n'], unit := unit } rootSelector
                (scan convert document).rootItems).serialize source⟩) ∧
      insertion.output =
        Text.Stitch.textOf (Text.weave (patches convert unit document) source) ∧
      Text.Stitch.keptOf (Text.weave (patches convert unit document) source) =
        source := by
  refine ⟨insertGates convert unit document, by rw [transform, h]; rfl,
    map_scan_sitesOf convert false document.children,
      fun _ => rule_of_mem_sitesOf,
    fun patch => ?_, output_insertGates convert unit h, Text.keptOf_weave _ _⟩
  rw [rootPatch?_eq_some_iff, (Css.tiles_of_parse h).1]

/-- A rule in a container, and a top-level declaration that needs a gate: the
text that the source is woven to. -/
theorem output_eq_weave_nested :
    ∃ document insertion,
      Css.Document.parse "--x:#fff;@media b\x7ba\x7bc:#000\x7d\x7d".toList = .ok
        document ∧
        transform (fun _ => some "oklch(0 0 0)".toList) [' ']
          "--x:#fff;@media b\x7ba\x7bc:#000\x7d\x7d".toList = .ok insertion ∧
        insertion.output =
          Text.Stitch.textOf
            (Text.weave (patches (fun _ => some "oklch(0 0 0)".toList)
              [' '] document)
              "--x:#fff;@media b\x7ba\x7bc:#000\x7d\x7d".toList) ∧
        insertion.output =
          ("--x:#fff;@media b\x7ba\x7bc:#000\x7d" ++
            "\n@supports (color: oklch(0 0 0)) \x7b\n a \x7b\n  c: oklch(0 0 0);\n \x7d\n\x7d" ++
            "\x7d" ++
            "\n@supports (color: oklch(0 0 0)) \x7b\n :root \x7b\n" ++
            "  --x: oklch(0 0 0);\n \x7d\n\x7d").toList := by
  have hok : (Css.Document.parse
      "--x:#fff;@media b\x7ba\x7bc:#000\x7d\x7d".toList).isOk = true := by
    decide +kernel
  have houtput : (transform (fun _ => some "oklch(0 0 0)".toList) [' ']
      "--x:#fff;@media b\x7ba\x7bc:#000\x7d\x7d".toList).toOption.map
        Insertion.output =
        some ("--x:#fff;@media b\x7ba\x7bc:#000\x7d" ++
          "\n@supports (color: oklch(0 0 0)) \x7b\n a \x7b\n  c: oklch(0 0 0);\n \x7d\n\x7d" ++
          "\x7d" ++
          "\n@supports (color: oklch(0 0 0)) \x7b\n :root \x7b\n" ++
          "  --x: oklch(0 0 0);\n \x7d\n\x7d").toList := by
    decide +kernel
  obtain ⟨document, h⟩ := Css.exists_of_isOk hok
  obtain ⟨insertion, htransform, _, _, _, hweave, _⟩ :=
    output_eq_weave (fun _ => some "oklch(0 0 0)".toList) [' '] h
  rw [htransform] at houtput
  exact ⟨document, insertion, h, htransform, hweave, Option.some.inj houtput⟩

end OklchGate.Gate
