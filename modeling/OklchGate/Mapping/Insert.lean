import OklchGate.Mapping.Entry
import OklchGate.Text.Line

/-!
# Inserting a gated entry into a mapping literal

The gated entry is a nested mapping under the key of the feature gate, with a
comment before it.  It is put after the line of the last hex color, or in front
of the line with a closing brace that comes next.

* `block` is the text of the gated entry.
* `insertionOffset?` finds its place.
* `transform` inserts it, unless the text has one already.
-/

namespace OklchGate.Mapping

/-! ## The gated entry -/

/-- The key of the gated entry with its quotes and colon. -/
def gateKey : Text := "'@supports (color: oklch(0 0 0))':".toList

/-- The lines of the comment before the gated entry. -/
def comment : List Text :=
  ["/**".toList,
   " * OKLCH (https://oklch.com/) Color Primitives".toList,
   " * Used for browsers that support the oklch() function.".toList,
   " */".toList]

/-- The indent of one level. -/
def defaultIndent : Text := ['\t']

/-- The line of an entry. -/
def entryLine (entry : Entry) : Text :=
  ['\''] ++ entry.key ++ "': '".toList ++ entry.oklch ++ "',".toList

/-- Entries by key, in the order of code points; entries with one key keep
their order. -/
def sorted (entries : List Entry) : List Entry :=
  entries.mergeSort fun a b => !decide (b.key < a.key)

/-- The gated entry, which starts with an empty line. -/
def block (entries : List Entry) (indent newline : Text) : Text :=
  let opening := indent ++ gateKey ++ [' ', '\x7b']
  let closing := indent ++ ['\x7d', ',']
  Text.joinWith newline <|
    [[]] ++ comment.map (indent ++ ·) ++ [opening] ++
      (sorted entries).map
        (fun entry => indent ++ defaultIndent ++ entryLine entry) ++
      [closing]

/-! ## The place of the gated entry -/

/-- The text after a line break starts with a line that holds a closing brace,
maybe a comma, and blanks only; empty lines may come first. -/
def startsWithClosingLine (text : Text) : Bool :=
  match text.dropWhile isBlank with
  | '\x7d' :: rest =>
    let rest := if rest.head? = some ',' then rest.tail else rest
    let blanks := rest.takeWhile isBlank
    blanks.contains '\n' || blanks.length = rest.length
  | _ => false

/-- The offset of the first line feed after which a closing line comes. -/
def closingLine? : Text → Option Nat
  | [] => none
  | c :: rest =>
    if c = '\n' && startsWithClosingLine rest then some 0
    else (closingLine? rest).map (· + 1)

/-- The offset before the CR of a CR LF, for an offset between the two; any
other offset stays. -/
def beforeBreak (content : Text) (offset : Nat) : Nat :=
  if 0 < offset && content.slice (offset - 1) (offset + 1) = ['\r', '\n'] then
    offset - 1
  else offset

/-- The offset at which a block goes whose anchor is the last occurrence of
`anchor`: the end of the line of the anchor, or the line break before the next
closing line. -/
def insertionOffset? (content anchor : Text) : Option Nat :=
  (Text.findLast? anchor content).map fun last =>
    let lineEnd :=
      match Text.find? ['\n'] (content.drop last) with
      | some length => last + length
      | none => content.length
    let offset :=
      match closingLine? (content.drop lineEnd) with
      | some length => lineEnd + length
      | none => lineEnd
    beforeBreak content offset

/-- The spaces and tabs at the start of the line that holds an offset. -/
def indentAt (content : Text) (offset : Nat) : Text :=
  let lineLength := ((content.take offset).reverse.takeWhile (· ≠ '\n')).length
  (content.drop (offset - lineLength)).takeWhile fun c => c = ' ' || c = '\t'

/-! ## Insertion -/

/-- The anchor of a block does not occur in the text. -/
structure MissingAnchor where
  anchor : Text
  deriving DecidableEq, Repr

/-- The wording of the error, with the file it is about. -/
def MissingAnchor.message (error : MissingAnchor) (path : Option Text) : Text :=
  "Could not find insertion point for ".toList ++ error.anchor.quoted ++
    (path.elim [] fun path => " in ".toList ++ path)

/-- What became of a mapping literal. -/
inductive Outcome where
  /-- It has a gated entry. -/
  | alreadyProcessed
  /-- It has no hex color that converts. -/
  | untouched (failures : List Text)
  /-- `inserted` goes in at `offset`. -/
  | changed (entries : List Entry) (failures : List Text) (offset : Nat)
    (inserted : Text)
  deriving DecidableEq, Repr

namespace Outcome

/-- The text after the insertion. -/
def output (content : Text) : Outcome → Text
  | changed _ _ offset inserted =>
    content.take offset ++ inserted ++ content.drop offset
  | _ => content

/-- The entries that were converted. -/
def entries : Outcome → List Entry
  | changed entries _ _ _ => entries
  | _ => []

/-- The entries that do not convert. -/
def failures : Outcome → List Text
  | alreadyProcessed => []
  | untouched failures => failures
  | changed _ failures _ _ => failures

/-- The mapping has a gated entry already. -/
def isAlreadyProcessed : Outcome → Bool
  | alreadyProcessed => true
  | _ => false

/-- A gated entry was inserted. -/
def isChanged (outcome : Outcome) : Bool :=
  !outcome.entries.isEmpty && !outcome.isAlreadyProcessed

/-- The number of colors in the inserted entry. -/
def colorsConverted (outcome : Outcome) : Nat :=
  if outcome.isChanged then outcome.entries.length else 0

end Outcome

/-- Inserts the gated entry of a mapping literal. -/
def transform (convert : Converter) (content : Text) :
    Except MissingAnchor Outcome :=
  if (Text.find? gateKey content).isSome then .ok .alreadyProcessed
  else
    let found := scan convert content
    match found.entries.getLast? with
    | none => .ok (.untouched found.failures)
    | some last =>
      match insertionOffset? content last.hex,
        Text.findLast? last.hex content with
      | some offset, some anchor =>
        let lineIndent := indentAt content anchor
        let indent := if lineIndent.isEmpty then defaultIndent else lineIndent
        let newline := newlineStyle content
        .ok (.changed found.entries found.failures offset
          (newline ++ block found.entries indent newline))
      | _, _ => .error ⟨last.hex⟩

end OklchGate.Mapping
