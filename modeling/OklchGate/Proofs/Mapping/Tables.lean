import OklchGate.Proofs.Mapping.Layout
import OklchGate.Proofs.Color.Hex

/-!
# Token tables

A token table is a text of rows, and a row holds no single quote, or one key and
one value in single quotes.  Quotes can be paired wrongly in such a text, from
the end of a value to the start of the next key, but no entry is read there.

There are three groups.

* `Row` and `Table`, with the text of a table and the colors in it.
* `Table.hexPairs_text`: the pairs of a table are those of its rows.
* `scan_table`: the entries and the failures of a table, read off its rows.
-/

namespace OklchGate.Mapping

/-! ## Rows and tables -/

/-- A row of a token table. -/
inductive Row where
  /-- A row without quotes. -/
  | plain (text : Text)
  /-- A key and a value, with blanks before each. -/
  | pair (lead key blanks value : Text) (hasComma : Bool)
  deriving DecidableEq, Repr

namespace Row

/-- The text of a row, without the line break that ends it. -/
def text : Row → Text
  | plain text => text
  | pair lead key blanks value hasComma =>
    lead ++ '\'' :: (key ++ '\'' :: ':' :: (blanks ++ '\'' ::
      (value ++ '\'' :: if hasComma then [','] else [])))

/-- Keys, values and other rows hold no quote, and only blanks stand before a
key and before a value. -/
def Conventional : Row → Prop
  | plain text => '\'' ∉ text
  | pair lead key blanks value _ =>
    ((∀ c ∈ lead, isBlank c = true) ∧ ∀ c ∈ blanks, isBlank c = true) ∧
      '\'' ∉ key ∧ '\'' ∉ value

instance : (row : Row) → Decidable row.Conventional
  | plain text => inferInstanceAs (Decidable ('\'' ∉ text))
  | pair lead key blanks value _ =>
    decidable_of_iff
      ((lead.all isBlank = true ∧ blanks.all isBlank = true) ∧
        '\'' ∉ key ∧ '\'' ∉ value)
      (by rw [List.all_eq_true, List.all_eq_true]; rfl)

end Row

/-- Blanks that end a row, such as a line break. -/
def EndsRow (blanks : Text) : Prop :=
  blanks ≠ [] ∧ ∀ c ∈ blanks, isBlank c = true

instance (blanks : Text) : Decidable (EndsRow blanks) :=
  decidable_of_iff (blanks ≠ [] ∧ blanks.all isBlank = true)
    (by rw [List.all_eq_true]; rfl)

/-- A `#` and three, four, six or eight hexadecimal digits. -/
def isColorNotation : Text → Bool
  | '#' :: digits =>
    digits.all isHexDigit && [3, 4, 6, 8].contains digits.length
  | _ => false

/-- The key and the color of a row. -/
def Row.color? : Row → Option (Text × Text)
  | pair _ key _ value _ =>
    if isColorNotation value then some (key, value) else none
  | plain _ => none

/-- A token table: rows with the blanks that end them, and the row at the end of
the text. -/
structure Table where
  rows : List (Row × Text)
  last : Row
  rows_conventional : ∀ row ∈ rows, row.1.Conventional ∧ EndsRow row.2
  last_conventional : last.Conventional

namespace Table

variable (convert : Converter) (table : Table)

/-- The text of a table. -/
def text : Text :=
  (table.rows.flatMap fun row => row.1.text ++ row.2) ++ table.last.text

/-- The keys and colors of a table. -/
def colors : List (Text × Text) :=
  (table.rows.map Prod.fst ++ [table.last]).filterMap Row.color?

/-- The colors that convert, with their keys. -/
def conversions : List Entry :=
  table.colors.filterMap fun color => (convert color.2).map fun oklch =>
    ⟨color.1, color.2, oklch⟩

/-- The colors that do not convert, with their keys. -/
def failures : List Text :=
  (table.colors.filter fun color => (convert color.2).isNone).map fun color =>
    color.1 ++ ": ".toList ++ color.2

end Table

/-! ## The pairs of a table -/

/-- The pair of a row. -/
def Row.pair? : Row → Option (Text × Text)
  | pair _ key _ value _ => if isHexValue value then some (key, value) else none
  | plain _ => none

/-- The text is empty or starts with a blank. -/
def StartsBlank (text : Text) : Prop := ∀ c ∈ text.head?, isBlank c = true

theorem startsBlank_nil : StartsBlank [] := fun _ hc => absurd hc (by simp)

theorem EndsRow.startsBlank {blanks : Text} (h : EndsRow blanks) (rest : Text) :
    StartsBlank (blanks ++ rest) := by
  obtain ⟨first, others, rfl⟩ := List.exists_cons_of_ne_nil h.1
  intro c hc
  cases hc
  exact h.2 first List.mem_cons_self

/-- The pair of a row that blanks follow, and that no entry is read across its
start. -/
theorem hexPairs_row {row : Row} (hrow : row.Conventional) {rest : Text}
    (hblank : StartsBlank rest) (hrest : Dead rest) :
    hexPairs (row.text ++ rest) = row.pair?.toList ++ hexPairs rest ∧
      Dead (row.text ++ rest) := by
  cases row with
  | plain text => exact ⟨hexPairs_append hrow rest, hrest.append hrow⟩
  | pair lead key blanks value hasComma =>
    obtain ⟨⟨hlead, hblanks⟩, hkey, hvalue⟩ := hrow
    have hquote := quote_not_mem_blanks hlead
    obtain ⟨comma, hcomma⟩ : ∃ comma, comma = if hasComma then [',']
        else ([] : Text) := ⟨_, rfl⟩
    have hparts : (Row.pair lead key blanks value hasComma).text ++ rest =
        lead ++ '\'' :: (key ++ '\'' :: ':' :: (blanks ++ '\'' ::
          (value ++ '\'' :: (comma ++ rest)))) := by
      simp [Row.text, hcomma]
    have hskip : '\'' ∉ comma := by
      rw [hcomma]
      split <;> decide
    have hnext : ∀ c, c ≠ ',' → isBlank c = false → (comma ++ rest).head? ≠
        some c := by
      intro c hc hother hhead
      rw [hcomma] at hhead
      cases hasComma with
      | true => exact hc (Option.some.inj hhead).symm
      | false => exact Bool.false_ne_true (hother.symm.trans (hblank c hhead))
    rw [hparts]
    refine ⟨?_, (dead_of_key hkey _).append hquote⟩
    rw [hexPairs_append hquote,
      hexPairs_pair hkey hblanks hvalue (hrest.append hskip)
        (hnext _ (by decide) (by decide)) (hnext _ (by decide) (by decide)),
      hexPairs_append hskip]
    rfl

/-- The pairs of some rows before a text. -/
theorem hexPairs_rows {rows : List (Row × Text)}
    (hrows : ∀ row ∈ rows, row.1.Conventional ∧ EndsRow row.2) {rest : Text}
    (hrest : Dead rest) :
    hexPairs ((rows.flatMap fun row => row.1.text ++ row.2) ++ rest) =
        (rows.map Prod.fst).filterMap Row.pair? ++ hexPairs rest ∧
      Dead ((rows.flatMap fun row => row.1.text ++ row.2) ++ rest) := by
  induction rows with
  | nil => exact ⟨rfl, hrest⟩
  | cons row rows ih =>
    obtain ⟨⟨hrow, hends⟩, hothers⟩ := List.forall_mem_cons.mp hrows
    obtain ⟨hpairs, hdead⟩ := ih hothers
    have hquote := quote_not_mem_blanks hends.2
    obtain ⟨hown, hownDead⟩ :=
      hexPairs_row hrow (hends.startsBlank _) (hdead.append hquote)
    rw [List.flatMap_cons, List.append_assoc, List.append_assoc, hown,
      hexPairs_append hquote, hpairs, List.map_cons, List.filterMap_cons]
    exact ⟨by cases row.1.pair? <;> rfl, hownDead⟩

/-- The pairs of a table are those of its rows. -/
theorem Table.hexPairs_text (table : Table) :
    hexPairs table.text = (table.rows.map Prod.fst ++ [table.last]).filterMap
      Row.pair? := by
  have hnil : Dead [] := dead_of_not_mem List.not_mem_nil
  obtain ⟨hlast, hdead⟩ :=
    hexPairs_row table.last_conventional startsBlank_nil hnil
  rw [List.append_nil] at hlast hdead
  rw [text, (hexPairs_rows table.rows_conventional hdead).1, hlast,
    List.filterMap_append, List.filterMap_cons]
  cases table.last.pair? <;> rfl

/-! ## The scan of a table -/

/-- A hex text has no blanks around it. -/
theorem trim_of_isHexValue {value : Text} (h : isHexValue value = true) :
    value.trim = value := by
  obtain ⟨digits, rfl⟩ : ∃ digits, value = '#' :: digits := by
    unfold isHexValue at h
    split at h
    · exact ⟨_, rfl⟩
    · cases h
  exact trim_hash ((isHexValue_cons digits).mp h).2.2

/-- The values in the notation of a color are the hex texts that are colors. -/
theorem isColorNotation_eq (value : Text) :
    isColorNotation value = (isHexValue value && isHexColor value) := by
  by_cases hvalue : isHexValue value = true
  · rw [hvalue, Bool.true_and, isHexColor, trim_of_isHexValue hvalue]
    rfl
  · rw [Bool.eq_false_iff.mpr hvalue, Bool.false_and, Bool.eq_false_iff]
    intro hcolor
    unfold isColorNotation at hcolor
    split at hcolor
    · next digits =>
      rw [Bool.and_eq_true, List.contains_iff_mem, List.all_eq_true] at hcolor
      refine hvalue ((isHexValue_cons digits).mpr ?_)
      have hlength : digits.length = 3 ∨ digits.length = 4 ∨ digits.length = 6 ∨
          digits.length = 8 := by simpa using hcolor.2
      exact ⟨by omega, by omega, hcolor.1⟩
    · cases hcolor

/-- The color of a row is its pair, if that is a color. -/
theorem Row.color?_eq (row : Row) :
    row.color? = row.pair?.filter fun pair => isHexColor pair.2 := by
  cases row with
  | plain text => rfl
  | pair lead key blanks value hasComma =>
    rw [Row.pair?, Row.color?, isColorNotation_eq]
    cases isHexValue value with
    | false => rfl
    | true => cases hcolor : isHexColor value <;> simp [Option.filter, hcolor]

section Scanning

variable (convert : Converter) (table : Table)

theorem Table.conversions_text :
    Mapping.conversions convert table.text = table.conversions convert := by
  rw [Mapping.conversions, table.hexPairs_text, Table.conversions, Table.colors,
    List.filterMap_filterMap, List.filterMap_filterMap]
  refine congrArg (List.filterMap · _) (funext fun row => ?_)
  rw [row.color?_eq]
  cases row.pair? with
  | none => rfl
  | some pair =>
    rw [Option.bind_some, Option.filter, Entry.ofPair?]
    cases isHexColor pair.2 <;> rfl

theorem Table.failures_text :
    (scan convert table.text).failures = table.failures convert := by
  rw [failures_scan, table.hexPairs_text, Table.failures, Table.colors,
    List.filterMap_filterMap, List.filter_filterMap, List.map_filterMap]
  refine congrArg (List.filterMap · _) (funext fun row => ?_)
  rw [row.color?_eq]
  cases row.pair? with
  | none => rfl
  | some pair =>
    rw [Option.bind_some, Option.filter, failure?]
    cases isHexColor pair.2 with
    | false => rfl
    | true =>
      cases hnone : (convert pair.2).isNone <;> simp [Option.filter, hnone]

/-- A table is read row by row, with no entry between its rows: its keys stand
in the order in which they first convert, each with its last color that
converts, and the failures are the colors that do not convert. -/
theorem scan_table :
    (scan convert table.text).entries.map Entry.key =
        ((table.conversions convert).map Entry.key).eraseDups ∧
      (∀ entry ∈ (scan convert table.text).entries,
        (table.conversions convert).reverse.find?
          (fun other => decide (other.key = entry.key)) = some entry) ∧
      (scan convert table.text).failures = table.failures convert := by
  refine ⟨?_, fun entry hentry => ?_, table.failures_text convert⟩
  · rw [keys_scan, table.conversions_text]
  · have hlast := (mem_scan_iff convert table.text entry).mp hentry
    rwa [table.conversions_text] at hlast

end Scanning

/-- A table with rows of both kinds: a key with two colors, a color that does
not convert, a value that is no color and a color at the end of the text. -/
def mixedTable : Table where
  rows :=
    [(.plain "theme: \x7b".toList, ['\r', '\n']),
      (.pair ['\t'] "a".toList [' '] "#fff".toList true, ['\n']),
      (.pair ['\t'] "b".toList [] "#000".toList true, ['\n']),
      (.pair ['\t'] "a".toList [' '] "#123456".toList true, ['\n', '\n']),
      (.pair ['\t'] "c".toList [' '] "red".toList true, ['\n'])]
  last := .pair [] "d".toList [' '] "#1234".toList false
  rows_conventional := by decide
  last_conventional := by decide

/-- Every color but black converts to itself. -/
def butBlack : Converter := fun value => if value = "#000".toList then none
    else some value

/-- The first key keeps its last color, and black is listed as a failure. -/
theorem scan_table_mixed :
    (scan butBlack mixedTable.text).entries.map Entry.key =
      ["a".toList, "d".toList] ∧
      (∀ entry ∈ (scan butBlack mixedTable.text).entries,
        entry ∈ [(⟨"a".toList, "#123456".toList, "#123456".toList⟩ : Entry),
          ⟨"d".toList, "#1234".toList, "#1234".toList⟩]) ∧
      (scan butBlack mixedTable.text).failures = ["b: #000".toList] := by
  obtain ⟨hkeys, hentries, hfailures⟩ := scan_table butBlack mixedTable
  have hlisted : ((mixedTable.conversions butBlack).map Entry.key).eraseDups =
      ["a".toList, "d".toList] := by
    decide
  have hlast : ∀ key ∈ ["a".toList, "d".toList],
      ∀ entry ∈ (mixedTable.conversions butBlack).reverse.find? fun other =>
          decide (other.key = key),
        entry ∈ [(⟨"a".toList, "#123456".toList, "#123456".toList⟩ : Entry),
          ⟨"d".toList, "#1234".toList, "#1234".toList⟩] := by
    decide
  rw [hlisted] at hkeys
  refine ⟨hkeys, fun entry hentry => ?_, hfailures.trans (by decide)⟩
  have hkey : entry.key ∈ ["a".toList, "d".toList] := by
    rw [← hkeys]
    exact List.mem_map_of_mem hentry
  exact hlast entry.key hkey entry (hentries entry hentry)

end OklchGate.Mapping
