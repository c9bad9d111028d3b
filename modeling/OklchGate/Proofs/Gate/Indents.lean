import OklchGate.Proofs.Config.Settings
import OklchGate.Proofs.Css.Calm
import OklchGate.Proofs.Gate.Sheets

/-!
# The indent of gates

The indent that a configuration sets stands before the selectors and the
properties of the gates. If it is white space of style sheets, each gate keeps
the selector of its rule.  Any other blank becomes a part of the selector.

There are four groups.

* `KeepsSelectors`, which compares the tokens of the selectors in the output
  with those in the source.
* `keepsSelectors_of_white`: white space keeps them, for every sheet of lines.
* `not_keepsSelectors`: another blank loses the selector of a short rule.
* `keeps_selectors_iff_white`, which says so of the accepted indents.
-/

namespace OklchGate

namespace Css

/-- The tokens of the selector of a rule that was read. -/
def Node.selectorTokens (source : Text) (node : Node) : List Lexeme :=
  ((Lexeme.ofText (normalizeBreaks (node.prelude source))).reverse.dropWhile
    fun lexeme => lexeme.kind = .space).reverse

end Css

namespace Gate

open Css (LineRule)

variable {convert : Converter} {unit : Text}

/-! ## Selectors that are kept -/

/-- The gate holds a rule with the selector of the rule that it was made for. -/
def KeepsSelector (output source : Text) (gate : Css.Node) (site : Site) :
    Prop :=
  ∃ child ∈ gate.children, child.isRule = true ∧
    child.selectorTokens output = site.rule.selectorTokens source

/-- The output of a style sheet is read, and its gates hold the selectors of the
rules that get gates. -/
def KeepsSelectors (convert : Converter) (unit source : Text) : Prop :=
  ∃ document insertion nodes, Css.Document.parse source = .ok document ∧
    transform convert unit source = .ok insertion ∧
    Css.Document.parse insertion.output = .ok ⟨insertion.output, nodes⟩ ∧
    List.Forall₂ (KeepsSelector insertion.output source) (nodes.filter isGate)
      ((sitesOf convert false document.children).filter fun site =>
        site.scan.isGroup)

/-! ## White space as the unit -/

/-- With white space as the unit, the gate of a rule keeps its selector. -/
theorem gateReads_of_white {rule : LineRule} (hunit : Css.White unit)
    (hvalue : ∀ value oklch, convert value = some oklch → IsOklch oklch)
    (h : rule.Stands) :
    GateReads KeepsSelector convert unit rule := by
  cases hitem : rule.item? convert with
  | none => exact gateReads_of_none hitem
  | some item =>
    obtain ⟨before, content, hrule⟩ := h.exists_anatomy
    obtain ⟨hproperty, hconvert⟩ := item_inv hitem
    refine gateReads_of_spells hitem rfl (List.cons_ne_nil '\n' unit)
      hunit.newline hrule.leads
      hrule.head (fun t => ?_) fun hchild hisRule hprelude hsite => ?_
    · obtain ⟨inside, hinside, -⟩ := readsAs_items unit (hunit.append hunit)
        (List.cons_ne_nil '\n' unit) hunit.newline
        (List.forall_mem_singleton.mpr (hproperty ▸ hrule.property))
        (List.forall_mem_singleton.mpr (hvalue _ _ hconvert)) t
      exact ⟨inside, hinside⟩
    · refine ⟨_, by rw [hchild]; exact List.mem_singleton_self _, hisRule, ?_⟩
      rw [Css.Node.selectorTokens, Css.Node.selectorTokens, hprelude, hsite]

/-- With white space as the unit, the gates of a sheet keep the selectors of its
rules. -/
theorem keepsSelectors_of_white {rules : List LineRule} (hunit : Css.White unit)
    (hvalue : ∀ value oklch, convert value = some oklch → IsOklch oklch)
    (h : ∀ rule ∈ rules, rule.Stands) :
    KeepsSelectors convert unit (LineRule.sheet rules) :=
  exists_output_sheet h fun rule hrule =>
    gateReads_of_white hunit hvalue (h rule hrule)

/-! ## Other blanks in the unit -/

/-- A rule for a type of element with one color. -/
def shortRule : LineRule := ⟨"a".toList, "color".toList, "fff".toList⟩

/-- A text of this color. -/
def black : Text := "oklch(0 0 0)".toList

theorem words_shortRule : Css.words (shortRule.text ++ ['\n']) =
    [⟨.identifier ['a'], ['a']⟩, ⟨.space, [' ']⟩, ⟨.opening .curly, ['\x7b']⟩,
      ⟨.space, [' ']⟩, ⟨.identifier "color".toList, "color".toList⟩,
      ⟨.delimiter, [':']⟩, ⟨.space, [' ']⟩, ⟨.hash "fff".toList, "#fff".toList⟩,
      ⟨.delimiter, [';']⟩, ⟨.space, [' ']⟩, ⟨.closing .curly, ['\x7d']⟩,
      ⟨.space, ['\n']⟩].map Css.same := by
  decide +kernel

theorem stands_shortRule : shortRule.Stands := by
  refine ⟨by decide, Css.parse_eq_ok_iff.mpr ⟨?_, _, ?_, rfl⟩⟩
  · rw [Css.Tree.ofText, words_shortRule]
    unfold Css.Tree.Faultless Css.Word.Sound
    decide
  · rw [Css.Tree.ofText, words_shortRule]
    rfl

/-- What is left of trimmed lexemes starts as all of them do. -/
theorem exists_eq_cons_of_dropWhile {α : Type} {p : α → Bool}
    {list rest : List α} {a : α}
    (h : (list.reverse.dropWhile p).reverse = a :: rest) :
    ∃ more, list = a :: more := by
  have hsplit := congrArg List.reverse
    (List.takeWhile_append_dropWhile (p := p) (l := list.reverse))
  rw [List.reverse_append, List.reverse_reverse, h] at hsplit
  exact ⟨_, hsplit.symm⟩

/-- Blanks that are not all white space have white space at their start and then
another blank. -/
theorem exists_not_white (h : ¬ Css.White unit) :
    ∃ w b rest, unit = w ++ b :: rest ∧ Css.White w ∧ b ∉ [' ', '\t', '\n',
      '\r', '\x0c'] := by
  induction unit with
  | nil => exact absurd Css.white_nil h
  | cons c rest ih =>
    by_cases hc : c ∈ [' ', '\t', '\n', '\r', '\x0c']
    · obtain ⟨w, b, more, rfl, hw, hb⟩ :=
        ih fun hrest => h (List.forall_mem_cons.mpr ⟨hc, hrest⟩)
      exact ⟨c :: w, b, more, rfl, List.forall_mem_cons.mpr ⟨hc, hw⟩, hb⟩
    · exact ⟨[], c, rest, rfl, Css.white_nil, hc⟩

theorem isOklch_black : IsOklch black :=
  ⟨['0'], ['0'], ['0'], rfl, rfl, rfl, rfl⟩

/-- Blanks are calm. -/
theorem calm_of_allBlank {text : Text} (h : text.allBlank = true) :
    Css.Calm text :=
  fun c hc => Or.inl (List.all_eq_true.mp h c hc)

/-- The lines of the gate after its selector, with blanks as the unit. -/
theorem exists_spells_body (hblank : unit.allBlank = true) (t : Text) :
    ∃ inside, Css.Spells (Css.renderLines (unit ++ unit) unit
      ([⟨shortRule.property, shortRule.value, black, false⟩].map itemNode) ++
        '\n' :: unit) inside ('\x7d' :: t) := by
  have hunit := calm_of_allBlank hblank
  have hbreak : Css.Calm ['\n'] := by decide
  have hindent : Css.Calm (['\n'] ++ (unit ++ unit)) :=
    Css.calm_append.mpr ⟨hbreak, Css.calm_append.mpr ⟨hunit, hunit⟩⟩
  have hlead : Css.Calm (['\n'] ++ (unit ++ unit) ++ "color".toList) :=
    Css.calm_append.mpr ⟨hindent, by decide⟩
  obtain ⟨lead, -, hleadSpells⟩ := hlead.exists_spells
  obtain ⟨tail, -, htailSpells⟩ :=
    (Css.calm_append.mpr ⟨hbreak, hunit⟩).exists_spells
  obtain ⟨content, closer, hblack⟩ := isOklch_black.spells
    ([';'] ++ (['\n'] ++ unit) ++ '\x7d' :: t)
  have hend := (Css.spells_semicolon _).append (htailSpells '\x7d' t rfl)
  have hstart : ∀ c ∈ (normalizeBreaks
      (black ++ ([';'] ++ (['\n'] ++ unit)) ++ '\x7d' :: t)).head?,
        Css.isSpace c = false := by
    rintro _ ⟨⟩
    rfl
  have hvalue := (spells_gap hstart).append (hblack.append hend)
  have hbody :=
    (hleadSpells ':' _ rfl).append ((Css.spells_colon _).append hvalue)
  have htext : Css.renderLines (unit ++ unit) unit
      ([⟨shortRule.property, shortRule.value, black, false⟩].map itemNode) ++
        '\n' :: unit =
        ['\n'] ++ (unit ++ unit) ++ "color".toList ++
          ([':'] ++ ([' '] ++ (black ++ ([';'] ++ (['\n'] ++ unit))))) := by
    rw [List.map_cons, List.map_nil, Css.renderLines, Css.renderLines, itemNode,
      Css.Node.render, render_declaration, shortRule, markOf]
    simp
  rw [htext]
  exact ⟨_, hbody⟩

/-- With another blank in the unit, the gate of the short rule loses its
selector. -/
theorem gateReads_of_not_white (hblank : unit.allBlank = true)
    (h : ¬ Css.White unit) :
    GateReads (fun output source gate site =>
      ¬ KeepsSelector output source gate site)
      (fun _ => some black) unit shortRule := by
  obtain ⟨w, b, rest, rfl, hw, hb⟩ := exists_not_white h
  obtain ⟨hblankB, hblankRest⟩ : isBlank b = true ∧ Text.allBlank rest =
      true := by
    rw [Text.allBlank, List.all_append, List.all_cons, Bool.and_eq_true,
      Bool.and_eq_true] at hblank
    exact hblank.2
  simp only [List.mem_cons, List.not_mem_nil, or_false, not_or] at hb
  obtain ⟨hspace, htab, hbreak, hreturn, hfeed⟩ := hb
  have hletter : b ≠ 'a' ∧ b ≠ '\x00' := by
    constructor <;> rintro rfl <;> cases hblankB
  have hcalm : Css.Calm (b :: rest ++ ['a', ' ']) :=
    Css.calm_append.mpr
      ⟨List.forall_mem_cons.mpr ⟨Or.inl hblankB, calm_of_allBlank hblankRest⟩,
      by decide⟩
  have hnormal : normalizeBreaks (b :: rest ++ ['a', ' ']) =
      b :: normalizeBreaks (rest ++ ['a', ' ']) := by
    rw [List.cons_append, normalizeBreaks]
    · simp [hreturn, hfeed, hletter.2]
    · exact fun _ hb _ => hreturn hb
  have hstart : Css.isSpace b = false := by
    simp [Css.isSpace, hspace, htab, hbreak]
  obtain ⟨before, hleads, hspells⟩ := hcalm.exists_leads hnormal hstart
  have hsplit : '\n' :: (w ++ b :: rest) ++ (shortRule.selector ++ [' ']) =
      '\n' :: w ++ (b :: rest ++ ['a', ' ']) := by
    simp [shortRule]
  refine gateReads_of_spells rfl hsplit (List.cons_ne_nil _ _) hw.newline hleads
    hspells (exists_spells_body hblank) ?_
  rintro output source gate child site hchild hisRule hprelude hsite
    ⟨other, hother, -, htokens⟩
  rw [hchild, List.mem_singleton] at hother
  subst hother
  have hselector : site.rule.selectorTokens source =
      [⟨.identifier ['a'], ['a']⟩] := by
    rw [Css.Node.selectorTokens, hsite]
    rfl
  rw [hselector, Css.Node.selectorTokens, hprelude, hnormal] at htokens
  obtain ⟨more, hmore⟩ := exists_eq_cons_of_dropWhile htokens
  have hflatten :=
    Css.Lexeme.flatten_ofText (b :: normalizeBreaks (rest ++ ['a', ' ']))
  rw [hmore] at hflatten
  exact hletter.1 (List.cons.inj hflatten).1.symm

/-- With another blank in the unit, a sheet of the short rule does not keep its
selector. -/
theorem not_keepsSelectors (hblank : unit.allBlank = true)
    (h : ¬ Css.White unit) :
    ¬ KeepsSelectors (fun _ => some black) unit
      (LineRule.sheet [shortRule]) := by
  have hstands : ∀ rule ∈ [shortRule], rule.Stands :=
    List.forall_mem_singleton.mpr stands_shortRule
  obtain ⟨document, insertion, nodes, hparse, htransform, houtput, hlost⟩ :=
    exists_output_sheet hstands
      (List.forall_mem_singleton.mpr (gateReads_of_not_white hblank h))
  rintro ⟨document', insertion', nodes', hparse', htransform', houtput', hkept⟩
  rw [hparse, Except.ok.injEq] at hparse'
  rw [htransform, Except.ok.injEq] at htransform'
  subst hparse' htransform'
  rw [houtput, Except.ok.injEq, Css.Document.mk.injEq] at houtput'
  obtain ⟨-, rfl⟩ := houtput'
  rw [LineRule.parse_sheet hstands, Except.ok.injEq] at hparse
  subst hparse
  have hsite : shortRule.site? (fun _ => some black) 0 =
    some ⟨shortRule.nodeAt 0,
      ⟨shortRule.selector,
        [⟨shortRule.property, shortRule.value, black, false⟩], [], false⟩⟩ :=
        rfl
  rw [sitesOf_sheetNodes, hsite, Option.toList_some,
    List.singleton_append] at hlost hkept
  generalize nodes.filter isGate = gates at hlost hkept
  cases hlost with
  | cons hfirst _ =>
    cases hkept with
    | cons hother _ => exact hfirst hother

/-! ## The accepted indents -/

/-- An indent that is accepted keeps the selectors of every sheet exactly if it
is white space of style sheets. -/
theorem keeps_selectors_iff_white {members : List (Text × JsonValue)}
    {config : Config} (h : Config.ofJson (.object members) = .ok config) :
    (∀ (convert : Converter) (rules : List LineRule),
        (∀ value oklch, convert value = some oklch → IsOklch oklch) →
          (∀ rule ∈ rules, rule.Stands) →
            KeepsSelectors convert config.defaultIndent
              (LineRule.sheet rules)) ↔
      Css.White config.defaultIndent := by
  constructor
  · intro hkeeps
    by_contra hwhite
    refine not_keepsSelectors (Config.accepted_of_ofJson h).indent hwhite
      (hkeeps _ _ ?_ ?_)
    · rintro _ _ ⟨⟩
      exact isOklch_black
    · exact List.forall_mem_singleton.mpr stands_shortRule
  · exact fun hwhite convert rules hvalue hrules =>
      keepsSelectors_of_white hwhite hvalue hrules

/-- A tab is accepted, and with it a sheet keeps its selectors. -/
theorem keeps_selectors_of_tab :
    Config.ofJson (.object [("default_indent".toList, .string ['\t'])]) =
        .ok { defaultIndent := ['\t'] } ∧
      KeepsSelectors (fun _ => some black) ['\t']
        (LineRule.sheet [shortRule]) := by
  have hload : Config.ofJson
    (.object [("default_indent".toList, .string ['\t'])]) =
      .ok { defaultIndent := ['\t'] } := rfl
  refine ⟨hload, (keeps_selectors_iff_white hload).mpr (by decide) _ _ ?_ ?_⟩
  · rintro _ _ ⟨⟩
    exact isOklch_black
  · exact List.forall_mem_singleton.mpr stands_shortRule

/-- A no-break space is accepted, and with it the gate of the short rule loses
its selector. -/
theorem selector_lost_of_no_break_space :
    Config.ofJson (.object [("default_indent".toList, .string ['\u00A0'])]) =
        .ok { defaultIndent := ['\u00A0'] } ∧
      shortRule.Stands ∧ IsOklch black ∧
        ¬ KeepsSelectors (fun _ => some black) ['\u00A0']
          (LineRule.sheet [shortRule]) :=
  ⟨rfl, stands_shortRule, isOklch_black,
    not_keepsSelectors (by decide) (by decide)⟩

end Gate

end OklchGate
