import Mathlib.Data.List.Forall2
import OklchGate.Proofs.Css.Lines
import OklchGate.Proofs.Gate.Printing

/-!
# Sheets of lines with their gates

A style sheet with each rule on its own line gets each gate on the lines after
its rule, and what is read in the output can be told from how each gate is read
by itself.

There are four groups.

* `LineRule.gate`, the gate of a rule, and `LineRule.gatedSheet`, the sheet with
  its gates.
* `output_sheet`: this is the output of an insertion.
* `exists_gate`, which reads a gate whose selector stands after white space and
  then some other text.
* `GateReads`, which relates the gate of a rule, as it is read, to the site of
  the rule. `exists_output_sheet` puts this together: if each gate is related to
  its site by itself, then all are in the output.
-/

namespace OklchGate

namespace Css

namespace LineRule

/-- The declaration of the rule as an item, if its color converts. -/
def item? (convert : Converter) (rule : LineRule) : Option Gate.Item :=
  if isHexColor rule.value then
    (convert rule.value).map fun oklch =>
      ⟨rule.property, rule.value, oklch, false⟩
  else none

/-- The layout of the gate of a rule at the start of a line. -/
def layout (unit : Text) : Layout := ⟨['\n'], [], unit⟩

/-- The gate of the rule, if it gets one. -/
def gate (convert : Converter) (unit : Text) (rule : LineRule) : Text :=
  ((rule.item? convert).map fun item =>
    Gate.gateLines (layout unit) rule.selector [item]).getD []

/-- The rule from `start` on as a site, if it gets a gate. -/
def site? (convert : Converter) (start : Nat) (rule : LineRule) :
    Option Gate.Site :=
  (rule.item? convert).map fun item =>
    ⟨rule.nodeAt start, ⟨rule.selector, [item], [], false⟩⟩

/-- A style sheet with each rule on its own line and the gates after them. -/
def gatedSheet (convert : Converter) (unit : Text) (rules : List LineRule) :
    Text :=
  rules.flatMap fun rule => rule.text ++ (rule.gate convert unit ++ ['\n'])

end LineRule

end Css

namespace Gate

open Css (LineRule)

variable {convert : Converter} {unit source : Text}

/-! ## The gates of a sheet -/

theorem itemsOf_line (convert : Converter) (rule : LineRule) (start : Nat) :
    itemsOf convert (rule.nodeAt start).children =
      (rule.item? convert).toList := by
  rw [LineRule.nodeAt, Css.containerAt, Css.Node.children, itemsOf,
    List.filterMap_cons, List.filterMap_nil, reading?, LineRule.item?]
  cases isHexColor rule.value <;> cases convert rule.value <;> rfl

/-- At top level a sheet declares nothing. -/
theorem itemsOf_sheetNodes (convert : Converter) (start : Nat)
    (rules : List LineRule) :
    itemsOf convert (LineRule.sheetNodes start rules) = [] := by
  induction rules generalizing start with
  | nil => rfl
  | cons rule rest ih => exact ih _

theorem isPaired_sheetNodes (selector : Text) (start : Nat)
    (rules : List LineRule) :
    isPaired selector (LineRule.sheetNodes start rules) = false := by
  cases rules <;> rfl

/-- The gate of a rule on a line. -/
theorem gateFor?_line (rule : LineRule) (start stop : Nat)
    (rest : List LineRule) :
    gateFor? ⟨source, convert, unit⟩ false (rule.nodeAt start)
      (LineRule.sheetNodes stop rest) =
      (rule.item? convert).map fun item =>
        gateNode (ruleLayout source unit (rule.nodeAt start)) rule.selector
          [item] := by
  have hitems := itemsOf_line convert rule start
  have hpaired := isPaired_sheetNodes rule.selector stop rest
  rw [LineRule.nodeAt, Css.containerAt, Css.Node.children] at hitems
  rw [LineRule.nodeAt, Css.containerAt, gateFor?, scanHead?]
  dsimp only
  rw [if_neg Bool.false_ne_true]
  dsimp only
  rw [RuleScan.ofRule, RuleScan.isGroup, hitems, hpaired]
  cases rule.item? convert <;> rfl

/-- The start of a line has no indent. -/
theorem lineIndent_start {front : Text} (h : ∀ c ∈ front.getLast?, c = '\n')
    (back : Text) :
    lineIndent (front ++ back) front.length = [] := by
  have hline : lastLine front = [] := by
    rcases List.eq_nil_or_concat front with rfl | ⟨others, last, rfl⟩
    · rfl
    · rw [List.concat_eq_append] at h ⊢
      rw [h last (by simp), lastLine, List.reverse_append]
      rfl
  rw [lineIndent, List.take_left, hline]
  rfl

/-- What follows a brace on its line has no indent. -/
theorem lineIndent_brace (front back : Text) :
    lineIndent (front ++ ['\x7b', ' '] ++ back)
      (front ++ ['\x7b', ' ']).length = [] := by
  rw [lineIndent, List.take_left, if_neg]
  intro hblank
  have hbrace := List.all_eq_true.mp hblank '\x7b' (by simp [lastLine])
  cases hbrace

/-- A rule at the start of a line has no indent, and its declaration does not
show one. -/
theorem ruleLayout_line {front : Text} (back : Text) (rule : LineRule)
    (hfront : ∀ c ∈ front.getLast?, c = '\n') :
    ruleLayout (front ++ rule.text ++ back) unit (rule.nodeAt front.length) =
      LineRule.layout unit := by
  have hbase : nodeIndent (front ++ rule.text ++ back)
      (rule.nodeAt front.length) = [] := by
    rw [List.append_assoc]
    exact lineIndent_start hfront _
  have hchild : lineIndent (front ++ rule.text ++ back)
    (front.length + rule.selector.length + 3) = [] := by
    have hbrace := lineIndent_brace (front ++ rule.selector ++ [' '])
      (rule.declared ++ [' '] ++ ['\x7d'] ++ back)
    simpa [LineRule.text, LineRule.inside, Nat.add_assoc] using hbrace
  have hindent : ∀ child ∈ (rule.nodeAt front.length).children,
      nodeIndent (front ++ rule.text ++ back) child = [] := by
    refine List.forall_mem_singleton.mpr ?_
    exact hchild
  have hunit : indentUnit (front ++ rule.text ++ back) [] unit
    (rule.nodeAt front.length).children =
      unit := by
    rw [indentUnit]
    dsimp only
    rw [List.findSome?_eq_none_iff.mpr, Option.getD_none]
    intro child hmem
    rw [hindent child hmem]
    simp
  rw [ruleLayout, hbase, hunit]
  rfl

/-- What is printed after a rule at the start of a line. -/
theorem gateText_line {front back : Text} (rule : LineRule) (stop : Nat)
    (rest : List LineRule) (hfront : ∀ c ∈ front.getLast?, c = '\n')
    (hsource : source = front ++ rule.text ++ back) (hlf : '\r' ∉ source) :
    gateText ⟨source, convert, unit⟩ false (rule.nodeAt front.length)
      (LineRule.sheetNodes stop rest) = rule.gate convert unit := by
  have hlayout : ruleLayout source unit (rule.nodeAt front.length) =
      LineRule.layout unit := by
    rw [hsource]
    exact ruleLayout_line back rule hfront
  rw [gateText, gateFor?_line, LineRule.gate, hlayout]
  cases rule.item? convert with
  | none => rfl
  | some item =>
    rw [Option.map_some, Option.map_some, Option.map_some, serialize_gateNode,
      Text.newlineStyle_of_lf hlf, Text.rebreak_lf]

/-- The node of a rule covers its text. -/
theorem spans_nodeAt (rule : LineRule) (start : Nat) :
    (rule.nodeAt start).Spans start (start + rule.text.length) := by
  have hlength : rule.text.length = rule.selector.length +
      rule.declared.length + 5 := by
    simp only [LineRule.text, LineRule.inside, List.length_append,
      List.length_cons, List.length_nil]
    omega
  have hpos : 0 < rule.declared.length := by
    rw [LineRule.declared, List.length_append, List.length_cons]
    omega
  have hselector : (rule.selector ++ [' ']).length = rule.selector.length + 1 :=
    List.length_append
  have hcontent : start ≤ start + (rule.selector ++ [' ']).length + 1 := by
    omega
  have hlead : start + (rule.selector ++ [' ']).length + 1 ≤
      start + rule.selector.length + 3 := by
    omega
  have hchild : start + rule.selector.length + 3 <
      start + rule.text.length - 2 := by omega
  have htail : start + rule.text.length - 2 ≤ start + rule.text.length - 1 := by
    omega
  have hbrace : start + rule.text.length - 1 < start + rule.text.length := by
    omega
  exact ⟨rfl, hcontent, ⟨_, _, hlead, ⟨rfl, hchild⟩, htail⟩, hbrace⟩

/-- The nodes of a sheet are printed with the gates between them. -/
theorem serializeFrom_sheet {front : Text} {rules : List LineRule}
    {cursor : Nat} (hcursor : cursor ≤ front.length)
    (hfront : ∀ c ∈ front.getLast?, c = '\n')
    (hsource : source = front ++ LineRule.sheet rules) (hlf : '\r' ∉ source) :
    Css.serializeFrom source cursor source.length
        (gatedNodes ⟨source, convert, unit⟩ false
          (LineRule.sheetNodes front.length rules)) =
      source.slice cursor front.length ++
        LineRule.gatedSheet convert unit rules := by
  induction rules generalizing front cursor with
  | nil =>
    rw [LineRule.sheet, List.flatMap_nil, List.append_nil] at hsource
    rw [← hsource]
    exact (List.append_nil _).symm
  | cons rule rest ih =>
    have hsource' : source = front ++ (rule.text ++ ['\n']) ++
        LineRule.sheet rest := by
      rw [hsource, List.append_assoc]
      rfl
    have hlength : (front ++ (rule.text ++ ['\n'])).length =
        front.length + (rule.text ++ ['\n']).length := List.length_append
    have hrest :=
      @ih (front ++ (rule.text ++ ['\n'])) (front.length + rule.text.length)
      (by simp) (by simp) hsource'
    have hgated : gatedNode ⟨source, convert, unit⟩ false
      (rule.nodeAt front.length) = rule.nodeAt front.length := rfl
    have hspans := spans_nodeAt rule front.length
    have hown : source.slice front.length (front.length + rule.text.length) =
        rule.text := by
      rw [hsource', ← List.append_assoc, List.append_assoc _ ['\n'],
        Text.slice_of_append]
    have hbreak : source.slice (front.length + rule.text.length)
        (front ++ (rule.text ++ ['\n'])).length = ['\n'] := by
      have hslice :=
        Text.slice_of_append (front ++ rule.text) ['\n'] (LineRule.sheet rest)
      rw [hsource']
      simpa [Nat.add_assoc] using hslice
    have hgate : gateText ⟨source, convert, unit⟩ false
      (rule.nodeAt front.length)
        (LineRule.sheetNodes (front.length + (rule.text ++ ['\n']).length)
          rest) = rule.gate convert unit :=
      gateText_line rule _ rest hfront (by simpa using hsource') hlf
    have hskip := serializeFrom_gate ⟨source, convert, unit⟩ false
      (rule.nodeAt front.length)
      (LineRule.sheetNodes (front.length + (rule.text ++ ['\n']).length) rest)
      (gatedNodes ⟨source, convert, unit⟩ false
        (LineRule.sheetNodes (front.length + (rule.text ++ ['\n']).length)
          rest))
      (front.length + rule.text.length) source.length
    rw [LineRule.sheetNodes, gatedNodes, Css.serializeFrom, hgated,
      hspans.span?_eq]
    dsimp only
    rw [← hlength] at hskip hgate ⊢
    rw [Css.Node.serialize_of_spans hspans, hown, hskip, hgate, hrest, hbreak]
    simp [LineRule.gatedSheet]

/-- The output of a sheet is the sheet with the gates. -/
theorem output_sheet {rules : List LineRule}
    (hlf : '\r' ∉ LineRule.sheet rules) :
    (insertGates convert unit ⟨LineRule.sheet rules,
      LineRule.sheetNodes 0 rules⟩).output =
      LineRule.gatedSheet convert unit rules := by
  have hroot : rootGate? unit
    (scan convert ⟨LineRule.sheet rules, LineRule.sheetNodes 0 rules⟩) =
      none := by
    rw [rootGate?, scan, itemsOf_sheetNodes]
    rfl
  have hfront : ∀ c ∈ ([] : Text).getLast?, c = '\n' := by simp
  rw [Insertion.output, insertGates, Css.Document.toText, hroot]
  dsimp only
  rw [Option.toList_none, List.append_nil]
  exact serializeFrom_sheet (Nat.le_refl 0) hfront rfl hlf

/-! ## Reading the gates -/

/-- A gate is a gap and a block. -/
theorem exists_composes_gate {text t : Text} {parts : List Css.Part}
    (h : Css.Composes text parts ('\x7d' :: t)) :
    ∃ before, Css.GivesHead before gateHead ∧
      Css.Composes (['\n'] ++
        ((gateHead.render ++ [' ']) ++ (['\x7b'] ++ text ++ ['\x7d'])))
        ([.gap (.leaf (Css.spelled .space ['\n']))] ++
          [.block before Css.openBrace parts (some Css.closeBrace)]) t := by
  obtain ⟨before, hhead, hsegment, hgives⟩ :=
    spells_gateHead (text ++ '\x7d' :: t)
  have hblock := Css.composes_block hhead hsegment h.spells
  rw [h.group_self] at hblock
  refine ⟨before, hgives,
    (Css.composes_white (List.cons_ne_nil _ _) (by decide) ?_).append hblock⟩
  rintro _ ⟨⟩
  rfl

/-- A gate is read as a gate, and what is in it as its children. -/
theorem gate_inv {front : Text} {before : List Css.Tree} {space : Css.Tree}
    {parts : List Css.Part} {nodes : List Css.Node}
    (hgives : Css.GivesHead before gateHead) (hbraced : Css.BracedAll parts)
    (h : Css.ReadAt source front
      ([.gap space] ++ [.block before Css.openBrace parts
      (some Css.closeBrace)]) nodes) :
    ∃ gate front', nodes = [gate] ∧ isGate gate = true ∧
      Css.ReadAt source front' parts gate.children := by
  have hblock :
      (Css.Part.block before Css.openBrace parts
      (some Css.closeBrace)).Braced :=
    ⟨rfl, ⟨_, rfl, rfl⟩, hbraced⟩
  obtain ⟨first, second, rfl, hfirst, hsecond⟩ := h.append_inv
  have hbare :=
    hsecond.bareOf_eq (show Css.BracedAll [_] from ⟨hblock, trivial⟩)
  obtain ⟨head, children, rfl, hchildren⟩ := hsecond.block_inv hblock
  rw [Css.shapesOf_cons, hgives] at hbare
  simp only [Css.containerAt, Css.bareOf_cons, Css.Node.bare, List.cons_append,
    List.cons.injEq, Css.Node.container.injEq, true_and] at hbare
  rw [hfirst.gap_inv rfl, hbare.1.1]
  exact ⟨_, _, rfl, rfl, hchildren⟩

/-- The gate of a rule on a line is read as a gate that holds one rule.  The
prelude of this rule starts where the white space after the brace of the gate
ends. -/
theorem exists_gate {selector w head : Text} {items : List Item}
    {before inside : List Css.Tree} {t : Text}
    (hsplit : '\n' :: unit ++ (selector ++ [' ']) = w ++ head) (hne : w ≠ [])
    (hw : Css.White w) (hleads : Css.Leads before)
    (hhead : ∀ t, Css.Spells head before ('\x7b' :: t))
    (hinside : Css.Spells
      (Css.renderLines (unit ++ unit) unit (items.map itemNode) ++ '\n' :: unit)
      inside ('\x7d' :: '\n' :: '\x7d' :: t)) :
    ∃ parts, Css.Composes (gateLines (LineRule.layout unit) selector items)
      parts t ∧
      ∀ (source front : Text) (nodes : List Css.Node), Css.BracedAll parts →
        Css.ReadAt source front parts nodes →
          ∃ gate child, nodes = [gate] ∧ isGate gate = true ∧ gate.children =
            [child] ∧ child.isRule = true ∧ child.prelude source = head := by
  obtain ⟨body, hbody⟩ :
    ∃ body, body = Css.renderLines (unit ++ unit) unit (items.map itemNode) ++
      '\n' :: unit := ⟨_, rfl⟩
  rw [← hbody] at hinside
  have hbreak : Css.Composes ['\n'] [.gap (.leaf (Css.spelled .space ['\n']))]
      ('\x7d' :: t) := by
    refine Css.composes_white (List.cons_ne_nil _ _) (by decide) ?_
    rintro _ ⟨⟩
    rfl
  have hblock :=
    (Css.composes_block (hhead _) hleads.toIsSegment hinside).append hbreak
  have hlead := Css.composes_white hne hw (hleads.toIsSegment.head_of_spells
    (hhead (body ++ '\x7d' :: '\n' :: '\x7d' :: t)))
  have hlead' : Css.Composes w [.gap (.leaf (Css.spelled .space w))]
      (head ++ (['\x7b'] ++ body ++ ['\x7d']) ++ ['\n'] ++ '\x7d' :: t) := by
    simpa using hlead
  obtain ⟨gateBefore, hgives, hgate⟩ :=
    exists_composes_gate (hlead'.append hblock)
  have htext : gateLines (LineRule.layout unit) selector items =
      ['\n'] ++ (gateHead.render ++ [' '] ++
        (['\x7b'] ++ (w ++
          (head ++ (['\x7b'] ++ body ++ ['\x7d']) ++ ['\n'])) ++
          ['\x7d'])) := by
    rw [gateLines_eq rfl]
    simp only [LineRule.layout, List.nil_append]
    rw [hsplit, hbody]
    simp
  rw [← htext] at hgate
  refine ⟨_, hgate, fun source front nodes hbraced hread => ?_⟩
  rw [Css.bracedAll_append] at hbraced
  obtain ⟨-, ⟨-, -, hbraced⟩, -⟩ := hbraced
  obtain ⟨gate, front', rfl, hisGate, hchildren⟩ :=
    gate_inv hgives hbraced hread
  have hrule : (Css.Part.block before Css.openBrace (Css.group [] inside)
      (some Css.closeBrace)).Braced := by
    rw [Css.bracedAll_append, Css.bracedAll_append] at hbraced
    exact hbraced.2.1.1
  obtain ⟨child, hchild, hisRule, hprelude⟩ :=
    (hchildren.between_inv (by simp [Css.Part.isGap])).rule_inv hleads hrule
  rw [(hhead []).textOf_eq] at hprelude
  exact ⟨gate, child, rfl, hisGate, hchild, hisRule, hprelude⟩

/-! ## Gates and their sites -/

/-- The sites of a sheet that get gates are its rules with colors that
convert. -/
theorem sitesOf_sheetNodes (convert : Converter) (rule : LineRule) (start : Nat)
    (rest : List LineRule) :
    (sitesOf convert false (LineRule.sheetNodes start (rule :: rest))).filter
        (fun site => site.scan.isGroup) =
      (rule.site? convert start).toList ++
        (sitesOf convert false
          (LineRule.sheetNodes (start + (rule.text ++ ['\n']).length)
            rest)).filter fun site => site.scan.isGroup := by
  have hsite : sitesOf convert false
    (LineRule.sheetNodes start (rule :: rest)) =
      ⟨rule.nodeAt start, .ofRule convert rule.selector
        (rule.nodeAt start).children
        (LineRule.sheetNodes (start + (rule.text ++ ['\n']).length) rest)⟩ ::
          sitesOf convert false
            (LineRule.sheetNodes (start + (rule.text ++ ['\n']).length) rest) :=
              rfl
  rw [hsite, ← List.singleton_append, List.filter_append, RuleScan.ofRule,
    itemsOf_line, isPaired_sheetNodes, LineRule.site?]
  cases hitem : rule.item? convert with
  | none => rfl
  | some item =>
    have hfailures : failuresOf convert (rule.nodeAt start).children = [] := by
      rw [LineRule.item?] at hitem
      rw [LineRule.nodeAt, Css.containerAt, Css.Node.children, failuresOf,
        List.filterMap_cons, List.filterMap_nil, reading?]
      split at hitem
      · rename_i hcolor
        obtain ⟨oklch, hconvert, -⟩ := Option.map_eq_some_iff.mp hitem
        rw [if_pos hcolor, hconvert]
      · cases hitem
    rw [hfailures]
    rfl

/-- The item of a rule on a line. -/
theorem item_inv {rule : LineRule} {item : Item}
    (h : rule.item? convert = some item) :
    item.property = rule.property ∧ convert rule.value = some item.oklch := by
  rw [LineRule.item?] at h
  split at h
  · obtain ⟨oklch, hconvert, rfl⟩ := Option.map_eq_some_iff.mp h
    exact ⟨rfl, hconvert⟩
  · cases h

/-- Before any text, the gate of a rule, if it gets one, is read as one gate
that is related to the site of the rule. -/
def GateReads (R : Text → Text → Css.Node → Site → Prop) (convert : Converter)
    (unit : Text) (rule : LineRule) : Prop :=
  ∀ t, ∃ parts, Css.Composes (rule.gate convert unit) parts t ∧
    ∀ (output front lead back : Text) (nodes : List Css.Node),
      Css.BracedAll parts →
      Css.ReadAt output front parts nodes →
        List.Forall₂ (R output (lead ++ rule.text ++ back))
          (nodes.filter isGate) (rule.site? convert lead.length).toList

variable {R : Text → Text → Css.Node → Site → Prop}

/-- A rule without a color that converts gets no gate. -/
theorem gateReads_of_none {rule : LineRule} (h : rule.item? convert = none) :
    GateReads R convert unit rule := by
  unfold GateReads LineRule.gate LineRule.site?
  rw [h]
  intro t
  refine ⟨[], Css.composes_nil t, fun _ _ _ _ _ _ hread => ?_⟩
  rw [hread.nil_inv]
  exact .nil

/-- The gate of a rule is read as a gate with one rule, whose prelude is
known. -/
theorem gateReads_of_spells {rule : LineRule} {item : Item} {w head : Text}
    {before : List Css.Tree} (hitem : rule.item? convert = some item)
    (hsplit : '\n' :: unit ++ (rule.selector ++ [' ']) = w ++ head)
    (hne : w ≠ []) (hw : Css.White w) (hleads : Css.Leads before)
    (hhead : ∀ t, Css.Spells head before ('\x7b' :: t))
    (hinside : ∀ t, ∃ inside,
      Css.Spells (Css.renderLines (unit ++ unit) unit ([item].map itemNode) ++
      '\n' :: unit) inside ('\x7d' :: t))
    (hR : ∀ {output source : Text} {gate child : Css.Node} {site : Site},
      gate.children = [child] → child.isRule = true → child.prelude output =
      head → site.rule.prelude source = rule.selector ++ [' '] →
      R output source gate site) :
    GateReads R convert unit rule := by
  unfold GateReads LineRule.gate LineRule.site?
  rw [hitem]
  intro t
  obtain ⟨inside, hinside⟩ := hinside ('\n' :: '\x7d' :: t)
  obtain ⟨parts, hparts, hgates⟩ :=
    exists_gate hsplit hne hw hleads hhead hinside
  refine ⟨parts, hparts, fun output front lead back nodes hbraced hread => ?_⟩
  obtain ⟨gate, child, rfl, hgate, hchild, hisRule, hprelude⟩ :=
    hgates output front nodes hbraced hread
  rw [List.filter_singleton, hgate]
  refine .cons (hR hchild hisRule hprelude ?_) .nil
  rw [LineRule.text, ← List.append_assoc, List.append_assoc _ _ back]
  exact Css.prelude_containerAt _ _ _ _ _ _

/-- The gates of a sheet are read as gates that are related to the sites of its
rules. -/
theorem exists_gatedSheet {rules : List LineRule}
    (h : ∀ rule ∈ rules, rule.Stands)
    (hgates : ∀ rule ∈ rules, GateReads R convert unit rule) :
    ∃ parts, Css.Composes (LineRule.gatedSheet convert unit rules) parts [] ∧
      ∀ (output front lead : Text) (nodes : List Css.Node),
        Css.BracedAll parts →
        Css.ReadAt output front parts nodes →
          List.Forall₂ (R output (lead ++ LineRule.sheet rules))
            (nodes.filter isGate)
            ((sitesOf convert false
              (LineRule.sheetNodes lead.length rules)).filter
              fun site => site.scan.isGroup) := by
  induction rules with
  | nil =>
    exact ⟨[], Css.composes_nil [],
      fun _ _ _ _ _ hread => by rw [hread.nil_inv]; exact .nil⟩
  | cons rule rest ih =>
    rw [List.forall_mem_cons] at h hgates
    obtain ⟨before, content, hrule⟩ := h.1.exists_anatomy
    obtain ⟨parts, hparts, hnodes⟩ := ih h.2 hgates.2
    obtain ⟨gate, hgate, hgateNodes⟩ :=
      hgates.1 (['\n'] ++ LineRule.gatedSheet convert unit rest ++ [])
    have hhead : ∀ c ∈ (normalizeBreaks
        (LineRule.gatedSheet convert unit rest ++ [])).head?,
        Css.isSpace c = false := by
      cases rest with
      | nil => simp [LineRule.gatedSheet, normalizeBreaks]
      | cons second more =>
        rw [LineRule.gatedSheet, List.flatMap_cons, List.append_assoc,
          List.append_assoc]
        exact (h.2 second List.mem_cons_self).head_text _
    have hbreak :=
      Css.composes_white (List.cons_ne_nil '\n' []) (by decide) hhead
    have hline :=
      (hrule.composes _).append (hgate.append (hbreak.append hparts))
    have htext : LineRule.gatedSheet convert unit (rule :: rest) = rule.text ++
        (rule.gate convert unit ++
          (['\n'] ++ LineRule.gatedSheet convert unit rest)) := by
      simp [LineRule.gatedSheet]
    rw [← htext] at hline
    refine ⟨_, hline, fun output front lead nodes hbraced hread => ?_⟩
    rw [Css.bracedAll_append, Css.bracedAll_append,
      Css.bracedAll_append] at hbraced
    obtain ⟨-, hbracedGate, -, hbracedRest⟩ := hbraced
    obtain ⟨own, others, rfl, hown, hothers⟩ := hread.append_inv
    obtain ⟨gates, after, rfl, hgates, hafter⟩ := hothers.append_inv
    obtain ⟨gap, nodes, rfl, hgap, hnext⟩ := hafter.append_inv
    have hfirst :=
      hgateNodes _ _ lead (['\n'] ++ LineRule.sheet rest) _ hbracedGate hgates
    have hrest := hnodes _ _ (lead ++ (rule.text ++ ['\n'])) _ hbracedRest hnext
    have hsource : lead ++ (rule.text ++ ['\n']) ++ LineRule.sheet rest =
        lead ++ rule.text ++ (['\n'] ++ LineRule.sheet rest) := by simp
    have hsheet : LineRule.sheet (rule :: rest) =
        rule.text ++ (['\n'] ++ LineRule.sheet rest) := by
      simp [LineRule.sheet]
    rw [hrule.readAt_inv hown, hgap.gap_inv rfl, sitesOf_sheetNodes, hsheet,
      List.filter_append, List.filter_append, ← List.append_assoc lead]
    rw [hsource, List.length_append] at hrest
    exact List.rel_append hfirst hrest

/-- The output of a sheet is read, and its gates are related to the sites of its
rules. -/
theorem exists_output_sheet {rules : List LineRule}
    (h : ∀ rule ∈ rules, rule.Stands)
    (hgates : ∀ rule ∈ rules, GateReads R convert unit rule) :
    ∃ document insertion nodes,
      Css.Document.parse (LineRule.sheet rules) = .ok document ∧
      transform convert unit (LineRule.sheet rules) = .ok insertion ∧
      Css.Document.parse insertion.output = .ok ⟨insertion.output, nodes⟩ ∧
      List.Forall₂ (R insertion.output (LineRule.sheet rules))
        (nodes.filter isGate)
        ((sitesOf convert false document.children).filter fun site =>
          site.scan.isGroup) := by
  have hparse := LineRule.parse_sheet h
  have hlf : '\r' ∉ LineRule.sheet rules := by
    intro hmem
    obtain ⟨rule, hrule, hmem⟩ := List.mem_flatMap.mp hmem
    simp [(h rule hrule).lf] at hmem
  obtain ⟨parts, hparts, hrelated⟩ := exists_gatedSheet h hgates
  obtain ⟨nodes, houtput, hread⟩ := hparts.parse
  refine ⟨_, insertGates convert unit ⟨LineRule.sheet rules,
    LineRule.sheetNodes 0 rules⟩, nodes,
    hparse, by rw [transform, hparse]; rfl, ?_, ?_⟩
  · rw [output_sheet hlf, houtput]
  · rw [output_sheet hlf]
    exact hrelated _ [] [] nodes hparts.steady.bracedAll hread

end Gate

end OklchGate
