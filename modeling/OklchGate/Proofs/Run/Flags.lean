import OklchGate.Proofs.Gate.Changes
import OklchGate.Proofs.Run.Processing

/-!
# Flags that tell of a change

Whether a text was changed is never found out by comparing texts: style sheets
count their gates, mapping literals their entries, and a file is written on what
these say.

There are three groups.

* `Truthful` says what a flag, a guard and a count tell of a text and its
  output.
* `truthful_insertGates` and `truthful_of_transform`, for style sheets and
  mapping literals.
* `Session.Alters` and `Session.Saves`: the files that are changed, and those
  that can be written.  `flags_truthful` says that just these are reported as
  converted.
-/

namespace OklchGate

/-! ## Texts -/

/-- What is told of a text that was worked on: the flag of a change is set
exactly if the output is another text, and exactly if colors were converted; and
where the work was done already, the output is the text. -/
structure Truthful (source output : Text) (changed alreadyProcessed : Bool)
    (colors : Nat) :
    Prop where
  altered : changed = true ↔ output ≠ source
  counted : changed = true ↔ 0 < colors
  untouched : alreadyProcessed = true → output = source

/-- What is told of a text that stays is true if no color is counted. -/
theorem Truthful.refl (source : Text) (alreadyProcessed : Bool) :
    Truthful source source false alreadyProcessed 0 where
  altered := iff_of_false Bool.false_ne_true fun hother => hother rfl
  counted := iff_of_false Bool.false_ne_true (Nat.lt_irrefl 0)
  untouched := fun _ => rfl

/-- What an insertion tells of a style sheet that was read is true. -/
theorem Gate.truthful_insertGates (convert : Converter) (unit : Text)
    {source : Text} {document : Css.Document}
    (h : Css.Document.parse source = .ok document) :
    Truthful source (insertGates convert unit document).output
      (insertGates convert unit document).changed
      (insertGates convert unit document).alreadyProcessed
      (insertGates convert unit document).colorsConverted := by
  have haltered : (insertGates convert unit document).changed = true ↔
      (insertGates convert unit document).output ≠ source :=
    (changed_iff_patches convert unit document).trans
      (not_congr (output_eq_source_iff convert unit h)).symm
  refine ⟨haltered, ?_, fun hprocessed => ?_⟩
  · have hgroups : (insertGates convert unit document).rulesConverted = 0 ↔
        (scan convert document).groups = [] := List.length_eq_zero_iff
    have hitems := groupItems_pos_iff (scan convert document)
    have hcolors : (insertGates convert unit document).colorsConverted =
        (scan convert document).groupItems +
          (insertGates convert unit document).rootColorsConverted := rfl
    rw [Insertion.changed, Bool.or_eq_true, decide_eq_true_eq,
      decide_eq_true_eq, Ne, hgroups, hcolors, ← Ne, ← hitems]
    omega
  · -- The guard asks for the counts that the flag is computed from.
    refine Classical.byContradiction fun hother => ?_
    have hchanged := haltered.mpr hother
    have hguard := ((Bool.and_eq_true _ _).mp hprocessed).1
    rw [Bool.and_eq_true, decide_eq_true_eq, decide_eq_true_eq] at hguard
    have hrules : (insertGates convert unit document).rulesConverted = 0 :=
      hguard.1
    have hroot : (insertGates convert unit document).rootColorsConverted = 0 :=
      hguard.2
    rw [Insertion.changed, hrules, hroot] at hchanged
    cases hchanged

/-- What is told of a style sheet is true. -/
theorem Gate.truthful_of_transform {convert : Converter} {unit source : Text}
    {insertion : Insertion}
    (h : transform convert unit source = .ok insertion) :
    Truthful source insertion.output insertion.changed
      insertion.alreadyProcessed
      insertion.colorsConverted := by
  rw [transform] at h
  cases hparse : Css.Document.parse source with
  | error error =>
    rw [hparse] at h
    cases h
  | ok document =>
    rw [hparse] at h
    cases h
    exact truthful_insertGates convert unit hparse

/-- What is told of a mapping literal is true. -/
theorem Mapping.truthful_of_transform {convert : Converter} {source : Text}
    {outcome : Outcome} (h : transform convert source = .ok outcome) :
    Truthful source (outcome.output source) outcome.isChanged
      outcome.isAlreadyProcessed
      outcome.colorsConverted := by
  rcases transform_cases convert source with
    ⟨_, htransform⟩ | ⟨_, _, htransform⟩ | ⟨_, hentries, offset, indent, _,
      htransform⟩
  · cases h.symm.trans htransform
    exact Truthful.refl source true
  · cases h.symm.trans htransform
    exact Truthful.refl source false
  · cases h.symm.trans htransform
    have hblock : newlineStyle source ++
        block (scan convert source).entries indent (newlineStyle source) ≠ [] :=
          fun hnil =>
      absurd (gateKey_infix_block (scan convert source).entries indent
        (newlineStyle source)) (by
        rw [(List.append_eq_nil_iff.mp hnil).2, List.infix_nil]
        decide)
    have hchanged : (Outcome.changed (scan convert source).entries
        (scan convert source).failures offset (newlineStyle source ++
          block (scan convert source).entries indent
            (newlineStyle source))).isChanged = true := by
      unfold Outcome.isChanged Outcome.entries
      rw [List.isEmpty_eq_false_iff.mpr hentries]
      rfl
    refine ⟨iff_of_true hchanged (output_changed_ne hblock _ _ offset),
      iff_of_true hchanged ?_, nofun⟩
    rw [Outcome.colorsConverted, if_pos hchanged]
    exact List.length_pos_iff.mpr hentries

/-! ## Files -/

/-- The output that the transformer for a kind makes of a source. -/
def Makes (convert : Converter) (config : Config) (source output : Text) :
    Kind → Prop
  | .styleSheet => ∃ insertion,
      Gate.transform convert config.defaultIndent source = .ok insertion ∧
        output = insertion.output
  | .mapping => ∃ outcome,
      Mapping.transform convert source = .ok outcome ∧
        output = outcome.output source

/-- A source counts as changed exactly if another text is made of it. -/
theorem transforms_iff_makes {convert : Converter} {config : Config}
    {kind : Kind} {source output : Text} :
    Transforms convert config source output kind ↔
      Makes convert config source output kind ∧ output ≠ source := by
  cases kind with
  | styleSheet =>
    constructor
    · rintro ⟨insertion, htransform, hchanged, rfl⟩
      exact ⟨⟨insertion, htransform, rfl⟩,
        (Gate.truthful_of_transform htransform).altered.mp hchanged⟩
    · rintro ⟨⟨insertion, htransform, rfl⟩, hother⟩
      exact ⟨insertion, htransform,
        (Gate.truthful_of_transform htransform).altered.mpr hother, rfl⟩
  | mapping =>
    constructor
    · rintro ⟨outcome, htransform, hchanged, rfl⟩
      exact ⟨⟨outcome, htransform, rfl⟩,
        (Mapping.truthful_of_transform htransform).altered.mp hchanged⟩
    · rintro ⟨⟨outcome, htransform, rfl⟩, hother⟩
      exact ⟨outcome, htransform,
        (Mapping.truthful_of_transform htransform).altered.mpr hother, rfl⟩

namespace Session

/-- The file is of a known kind, is read as a text, and the transformer for its
kind makes another text of it. -/
def Alters (session : Session) (tree : FileTree) (path : Path)
    (source output : Text) : Prop :=
  ∃ kind, session.config.kindOf? path = some kind ∧
    tree.readText path = .ok source ∧
    Makes session.convert session.config source output kind ∧ output ≠ source

/-- The backup of a file, if one is kept, can be written, and the file after
it. -/
def Saves (session : Session) (tree : FileTree) (path : Path) (output : Text) :
    Prop :=
  ∃ between after,
    (if session.options.backup then tree.copy path path.backup = .ok between
      else between = tree) ∧
    between.writeText path output = .ok after

/-- Saving keeps the status of a report exactly if everything can be written. -/
theorem status_save_iff (session : Session) (tree : FileTree)
    {report : FileReport} (hstatus : report.status = .converted)
    (output : Text) :
    (session.save tree report output).1.status = .converted ↔
      session.Saves tree report.path output := by
  unfold save Saves
  by_cases hkeeps : session.options.backup = true
  · rw [if_pos hkeeps]
    simp only [if_pos hkeeps]
    cases hcopy : tree.copy report.path report.path.backup with
    | error error =>
      exact iff_of_false nofun fun ⟨_, _, hcopied, _⟩ => nomatch hcopied
    | ok between =>
      dsimp only
      cases hwrite : between.writeText report.path output with
      | error error =>
        refine iff_of_false nofun ?_
        rintro ⟨_, _, ⟨⟩, hwritten⟩
        cases hwrite.symm.trans hwritten
      | ok after => exact iff_of_true hstatus ⟨between, after, rfl, hwrite⟩
  · rw [if_neg hkeeps]
    simp only [if_neg hkeeps]
    cases hwrite : tree.writeText report.path output with
    | error error =>
      refine iff_of_false nofun ?_
      rintro ⟨_, _, rfl, hwritten⟩
      cases hwrite.symm.trans hwritten
    | ok after => exact iff_of_true hstatus ⟨tree, after, rfl, hwrite⟩

/-- Where the source is known, the transformer for the kind of the file changes
it exactly if the conversion has the status of a converted one. -/
theorem alters_iff {session : Session} {tree : FileTree} {path : Path}
    {kind : Kind} {source : Text}
    (hkind : session.config.kindOf? path = some kind)
    (htext : tree.readText path = .ok source) (text output : Text) :
    session.Alters tree path text output ↔ text = source ∧
      ∃ done, Converted.ofSource session.convert session.config kind
        source = .ok done ∧
        done.status = .converted ∧ output = done.output := by
  constructor
  · rintro ⟨own, hown, hread, hmakes⟩
    obtain rfl : kind = own := Option.some.inj (hkind.symm.trans hown)
    obtain rfl : source = text := Except.ok.inj (htext.symm.trans hread)
    exact ⟨rfl, transforms_iff.mp (transforms_iff_makes.mpr hmakes)⟩
  · rintro ⟨rfl, hdone⟩
    exact ⟨kind, hkind, htext,
      transforms_iff_makes.mp (transforms_iff.mpr hdone)⟩

/-- The status of a file whose source was converted. -/
theorem status_reportOn_iff (session : Session) (tree : FileTree) (path : Path)
    (kind : Kind) (done : Converted) :
    (if done.status = .converted ∧ session.options.dryRun = false then
        (session.save tree (session.reportOn path kind done) done.output).1
      else session.reportOn path kind done).status = .converted ↔
      done.status = .converted ∧
        (session.options.dryRun = false →
          session.Saves tree path done.output) := by
  have hreported : (session.reportOn path kind done).status = done.status := rfl
  by_cases hstatus : done.status = .converted
  · have hsaved :=
      session.status_save_iff tree (hreported.trans hstatus) done.output
    cases hdry : session.options.dryRun with
    | false =>
      rw [if_pos ⟨hstatus, rfl⟩, hsaved]
      exact ⟨fun h => ⟨hstatus, fun _ => h⟩, fun h => h.2 rfl⟩
    | true =>
      rw [if_neg fun h => nomatch h.2, hreported]
      exact iff_of_true hstatus ⟨hstatus, nofun⟩
  · rw [if_neg fun h => hstatus h.1, hreported]
    exact iff_of_false hstatus fun h => hstatus h.1

/-- The files that are reported as converted. -/
theorem status_process_iff (session : Session) (tree : FileTree) (path : Path) :
    (∃ report, (session.process tree path).result = .ok report ∧
      report.status = .converted) ↔
      ∃ source output, session.Alters tree path source output ∧
        (session.options.dryRun = false → session.Saves tree path output) := by
  cases hkind : session.config.kindOf? path with
  | none =>
    unfold process
    rw [hkind]
    refine iff_of_false ?_ ?_
    · rintro ⟨_, ⟨⟩, hstatus⟩
      cases hstatus
    · rintro ⟨_, _, ⟨_, hknown, _⟩, _⟩
      cases hkind.symm.trans hknown
  | some kind =>
    cases htext : tree.readText path with
    | error error =>
      unfold process
      rw [hkind]
      dsimp only
      rw [htext]
      dsimp only
      refine iff_of_false ?_ ?_
      · rintro ⟨report, hresult, hstatus⟩
        split at hresult
        · cases hresult
        · cases hresult
          cases hstatus
      · rintro ⟨_, _, ⟨_, _, hread, _⟩, _⟩
        cases htext.symm.trans hread
    | ok source =>
      simp only [alters_iff hkind htext]
      cases hdone : Converted.ofSource session.convert session.config kind
        source with
      | error error =>
        rw [process_of_error hkind htext hdone]
        refine iff_of_false ?_ ?_
        · rintro ⟨_, ⟨⟩, hstatus⟩
          cases hstatus
        · rintro ⟨_, _, ⟨_, _, ⟨⟩, _⟩, _⟩
      | ok done =>
        have hresult : (session.process tree path).result = .ok
            (if done.status = .converted ∧ session.options.dryRun = false then
              (session.save tree (session.reportOn path kind done)
                done.output).1
            else session.reportOn path kind done) := by
          rw [process_of_ofSource hkind htext hdone]
          split <;> rfl
        have hstatus := session.status_reportOn_iff tree path kind done
        rw [hresult]
        constructor
        · rintro ⟨_, ⟨⟩, hconverted⟩
          obtain ⟨hdoneStatus, hsaves⟩ := hstatus.mp hconverted
          exact ⟨source, done.output, ⟨rfl, done, rfl, hdoneStatus, rfl⟩,
            hsaves⟩
        · rintro ⟨_, _, ⟨rfl, _, ⟨⟩, hdoneStatus, rfl⟩, hsaves⟩
          exact ⟨_, rfl, hstatus.mpr ⟨hdoneStatus, hsaves⟩⟩

/-- The flags of both transformers are true, and exactly those files are
reported as converted that are read and parsed, of whose text the transformer
makes another one, and for which, outside a dry run, the backup that is kept and
the new text can be written. -/
theorem flags_truthful (session : Session) (tree : FileTree) (path : Path)
    (convert : Converter) (unit source : Text) :
    (∀ insertion, Gate.transform convert unit source = .ok insertion →
        Truthful source insertion.output insertion.changed
          insertion.alreadyProcessed insertion.colorsConverted) ∧
      (∀ outcome, Mapping.transform convert source = .ok outcome →
        Truthful source (outcome.output source) outcome.isChanged
          outcome.isAlreadyProcessed outcome.colorsConverted) ∧
      ((∃ report, (session.process tree path).result = .ok report ∧
          report.status = .converted) ↔
        ∃ text output, session.Alters tree path text output ∧
          (session.options.dryRun = false → session.Saves tree path output)) :=
  ⟨fun _ => Gate.truthful_of_transform, fun _ => Mapping.truthful_of_transform,
    session.status_process_iff tree path⟩

/-- What becomes of the mapping literal in the tree with one. -/
def onePair : Mapping.Outcome :=
  .changed [⟨"x".toList, "#fff".toList, "oklch(1 0 0)".toList⟩] [] 11
    (['\n'] ++ Mapping.block
      [⟨"x".toList, "#fff".toList, "oklch(1 0 0)".toList⟩] ['\t'] ['\n'])

/-- The mapping literal is changed wherever it is read. -/
theorem alters_onePair {tree : FileTree} {path : Path}
    (hkind : backupSession.config.kindOf? path = some .mapping)
    (htext : tree.readText path = .ok "'x': '#fff'".toList) :
    backupSession.Alters tree path "'x': '#fff'".toList
      (onePair.output "'x': '#fff'".toList) := by
  have htransform :
    Mapping.transform backupSession.convert "'x': '#fff'".toList =
      .ok onePair := rfl
  exact ⟨.mapping, hkind, htext, ⟨onePair, htransform, rfl⟩,
    (Mapping.truthful_of_transform htransform).altered.mp rfl⟩

/-- A mapping literal that is changed and saved with a backup. -/
theorem flags_truthful_backup :
    backupSession.Saves mappingTree (Path.ofText "a.ts".toList)
        (onePair.output "'x': '#fff'".toList) ∧
      ∃ report,
        (backupSession.process mappingTree (Path.ofText "a.ts".toList)).result =
          .ok report ∧ report.status = .converted := by
  have hsaves : backupSession.Saves mappingTree (Path.ofText "a.ts".toList)
      (onePair.output "'x': '#fff'".toList) := ⟨_, _, rfl, rfl⟩
  have hreported :=
    (flags_truthful backupSession mappingTree (Path.ofText "a.ts".toList)
    backupSession.convert [] []).2.2
  exact ⟨hsaves, hreported.mpr ⟨_, _, alters_onePair rfl rfl, fun _ => hsaves⟩⟩

/-- The tree with one mapping literal, and with a directory where its backup
would go. -/
def blockedTree : FileTree :=
  { mappingTree with directories := [["a.ts.bak".toList, "a.ts".toList]] }

/-- A file that the transformer changes ends in the report of an error if its
backup cannot be written. -/
theorem altered_not_converted :
    (∃ source output, backupSession.Alters blockedTree
      (Path.ofText "a.ts".toList) source output) ∧
      ∃ report,
        (backupSession.process blockedTree (Path.ofText "a.ts".toList)).result =
          .ok report ∧ report.status = .error := by
  have hstatus :
    (backupSession.process blockedTree
    (Path.ofText "a.ts".toList)).result.toOption.map
      FileReport.status = some .error := by
    decide +kernel
  refine ⟨⟨_, _, alters_onePair rfl rfl⟩, ?_⟩
  cases hresult :
    (backupSession.process blockedTree (Path.ofText "a.ts".toList)).result with
  | error error =>
    rw [hresult] at hstatus
    cases hstatus
  | ok report =>
    rw [hresult] at hstatus
    exact ⟨report, rfl, Option.some.inj hstatus⟩

end Session

end OklchGate
