import OklchGate.Proofs.Config.Settings
import OklchGate.Proofs.Files.Path
import OklchGate.Proofs.Text.Lowercase
import OklchGate.Proofs.Text.Trimming

/-!
# Configured extensions

A configured extension is trimmed, gets a dot in front and is compared in lower
case.  A file name is only compared from its last dot on, so an extension with
another dot in it does not take effect by itself.

There are three groups.

* `extensionOf` and `Names`: the extension that an entry stands for.
* `normalizeExtension?_eq` and `kindOf?_eq`: the kind of a file by the entries
  that name its suffix.
* `Config.takes_effect_iff`: when a file whose name ends in a configured
  extension has the kind that the extension is configured for.
-/

namespace OklchGate

/-! ## The extension of an entry -/

/-- The extension that an entry stands for: the trimmed entry, with a dot put in
front if it does not start with one. -/
def extensionOf (entry : Text) : Text :=
  match entry.trim with
  | '.' :: rest => '.' :: rest
  | name => '.' :: name

/-- An entry that is not blank names an extension if both are the same but for
letter case. -/
def Names (extension entry : Text) : Prop :=
  entry.trim ≠ [] ∧ (extensionOf entry).lower = extension.lower

instance (extension entry : Text) : Decidable (Names extension entry) :=
  inferInstanceAs (Decidable (_ ∧ _))

theorem exists_extensionOf (entry : Text) :
    ∃ rest, extensionOf entry = '.' :: rest := by
  unfold extensionOf
  split
  · exact ⟨_, rfl⟩
  · exact ⟨_, rfl⟩

/-- An entry names its own extension. -/
theorem names_extensionOf {entry : Text} (h : entry.trim ≠ []) :
    Names (extensionOf entry) entry := ⟨h, rfl⟩

/-- The form in which an entry is compared is its extension in lower case. -/
theorem normalizeExtension?_eq (entry : Text) :
    normalizeExtension? entry =
      if entry.trim = [] then none else some (extensionOf entry).lower := by
  unfold normalizeExtension? extensionOf
  cases entry.trim with
  | nil => rfl
  | cons c rest =>
    obtain ⟨first, others, hlower, hdot⟩ := Text.lower_cons c rest
    rw [hlower, if_neg (List.cons_ne_nil c rest)]
    by_cases hc : c = '.'
    · have hfirst := hdot.mpr hc
      subst hc hfirst
      exact congrArg some hlower.symm
    · have hfirst := mt hdot.mp hc
      split
      · next heq => cases heq
      · next heq => exact absurd (List.cons.inj heq).1 hfirst
      · split
        · next heq => exact absurd (List.cons.inj heq).1 hc
        · rw [Text.lower_cons_dot, hlower]

/-- The normal forms of some entries hold the lower-case form of an extension
exactly if one of the entries names it. -/
theorem mem_normalizeExtensions {entries : List Text} {extension : Text} :
    extension.lower ∈ normalizeExtensions entries ↔ ∃ entry ∈ entries,
      Names extension entry := by
  rw [normalizeExtensions, List.mem_filterMap]
  refine exists_congr fun entry => and_congr_right fun _ => ?_
  rw [normalizeExtension?_eq, Names]
  split
  · next hblank => simp [hblank]
  · next hblank => simp [hblank]

/-! ## The kind of a file -/

/-- The kind that an extension is configured for, by the entries for style
sheets: the one of style sheets if an entry for these names it. -/
def kindFor (styles : List Text) (extension : Text) : Kind :=
  if ∃ entry ∈ styles, Names extension entry then .styleSheet else .mapping

namespace Config

variable {members : List (Text × JsonValue)} {config : Config}

/-- Some entry of a configuration, for either kind, names an extension. -/
def IsConfigured (members : List (Text × JsonValue)) (extension : Text) :
    Prop :=
  ∃ entry ∈ styleTexts members ++ mappingTexts members, Names extension entry

instance (members : List (Text × JsonValue)) (extension : Text) :
    Decidable (IsConfigured members extension) :=
      inferInstanceAs (Decidable (∃ _ ∈ _, _))

/-- A file has a kind if its suffix is configured, and it is the one that the
suffix is configured for. -/
theorem kindOf?_eq (h : Accepted members config) (path : Path) :
    config.kindOf? path =
      if IsConfigured members path.suffix then
        some (kindFor (styleTexts members) path.suffix)
      else none := by
  have hstyle : config.styleExtensions.contains path.suffix.lower = true ↔
      ∃ entry ∈ styleTexts members, Names path.suffix entry := by
    rw [List.contains_iff_mem, h.styles, mem_normalizeExtensions]
  have hmapping : config.mappingExtensions.contains path.suffix.lower = true ↔
      ∃ entry ∈ mappingTexts members, Names path.suffix entry := by
    rw [List.contains_iff_mem, h.mappings, mem_normalizeExtensions]
  have hany : IsConfigured members path.suffix ↔
      (∃ entry ∈ styleTexts members, Names path.suffix entry) ∨
        ∃ entry ∈ mappingTexts members, Names path.suffix entry := by
    simp only [IsConfigured, List.mem_append, or_and_right, exists_or]
  rw [kindOf?]
  by_cases hfor : ∃ entry ∈ styleTexts members, Names path.suffix entry
  · rw [if_pos (hstyle.mpr hfor), if_pos (hany.mpr (Or.inl hfor)), kindFor,
      if_pos hfor]
  · rw [if_neg (mt hstyle.mp hfor), kindFor, if_neg hfor]
    by_cases hother : ∃ entry ∈ mappingTexts members, Names path.suffix entry
    · rw [if_pos (hmapping.mpr hother), if_pos (hany.mpr (Or.inr hother))]
    · rw [if_neg (mt hmapping.mp hother), if_neg fun h =>
        (hany.mp h).elim hfor hother]

/-- No entry names the empty suffix. -/
theorem not_names_nil (entry : Text) : ¬ Names [] entry := by
  rintro ⟨-, hlower⟩
  obtain ⟨rest, hrest⟩ := exists_extensionOf entry
  rw [hrest, Text.lower_cons_dot] at hlower
  cases hlower

/-- The suffix of a name that ends in an extension is the extension from its
last dot on, or nothing if that dot is at the end. -/
theorem suffix_of_name {path : Path} {stem extension front last : Text}
    (hstem : stem ≠ []) (hname : path.name = stem ++ extension)
    (hparts : extension = front ++ '.' :: last) (hlast : '.' ∉ last) :
    path.suffix = if last = [] then [] else '.' :: last := by
  have hfront : stem ++ front ≠ [] :=
    fun hnil => hstem (List.append_eq_nil_iff.mp hnil).1
  rw [Path.suffix, hname, hparts, ← List.append_assoc]
  exact Path.suffixOf_append hfront hlast

/-- A file whose name ends in a configured extension has the kind that the
extension is configured for exactly if something follows the last dot of the
extension, and the extension from there on is configured, and for the same kind.
So every extension with no other dot in it takes effect, in any letter case. -/
theorem takes_effect_iff (hload : ofJson (.object members) = .ok config)
    {entry : Text} (hentry : entry ∈ styleTexts members ++ mappingTexts members)
    (hblank : entry.trim ≠ []) {path : Path} {stem front last : Text}
    (hstem : stem ≠ []) (hname : path.name = stem ++ extensionOf entry)
    (hparts : extensionOf entry = front ++ '.' :: last) (hlast : '.' ∉ last) :
    (front = [] → last ≠ [] →
        config.kindOf? path =
          some (kindFor (styleTexts members) (extensionOf entry))) ∧
      (config.kindOf? path =
        some (kindFor (styleTexts members) (extensionOf entry)) ↔
        last ≠ [] ∧ IsConfigured members ('.' :: last) ∧
          kindFor (styleTexts members) ('.' :: last) =
            kindFor (styleTexts members) (extensionOf entry)) := by
  have hkind := kindOf?_eq (accepted_of_ofJson hload) path
  rw [suffix_of_name hstem hname hparts hlast] at hkind
  have hiff : config.kindOf? path =
    some (kindFor (styleTexts members) (extensionOf entry)) ↔
      last ≠ [] ∧ IsConfigured members ('.' :: last) ∧
        kindFor (styleTexts members) ('.' :: last) =
          kindFor (styleTexts members) (extensionOf entry) := by
    by_cases hempty : last = []
    · have hnone : ¬ IsConfigured members [] :=
        fun ⟨other, _, hnames⟩ => not_names_nil other hnames
      rw [hkind, if_pos hempty, if_neg hnone]
      exact iff_of_false nofun fun h => h.1 hempty
    · rw [hkind, if_neg hempty]
      split
      · next hnamed =>
        exact ⟨fun h => ⟨hempty, hnamed, Option.some.inj h⟩,
          fun h => congrArg some h.2.2⟩
      · next hnamed => exact iff_of_false nofun fun h => hnamed h.2.1
  refine ⟨fun hfront hsome => hiff.mpr ⟨hsome, ⟨entry, hentry, ?_⟩, ?_⟩, hiff⟩
  · have hown := names_extensionOf hblank
    rwa [hparts, hfront] at hown
  · rw [hparts, hfront]
    rfl

/-- Members with blanks and capitals around an extension, and with an extension
that has a dot in it and ends in another one. -/
def dottedMembers : List (Text × JsonValue) :=
  [("css_extensions".toList, .array
    [.string " SCSS ".toList, .string ".module.TS".toList]),
    ("literal_extensions".toList, .array [.string "ts".toList])]

/-- The configuration of these members. -/
def dottedConfig : Config where
  styleExtensions := [".scss".toList, ".module.ts".toList]
  mappingExtensions := [".ts".toList]

/-- The extension with capitals takes effect, and the one with a dot in it does
not. -/
theorem takes_effect_iff_dotted :
    ofJson (.object dottedMembers) = .ok dottedConfig ∧
      dottedConfig.kindOf? ⟨[], ["a.SCSS".toList]⟩ =
        some (kindFor (styleTexts dottedMembers)
          (extensionOf " SCSS ".toList)) ∧
      (dottedConfig.kindOf? ⟨[], ["a.module.TS".toList]⟩ =
          some (kindFor (styleTexts dottedMembers)
            (extensionOf ".module.TS".toList)) ↔
        "TS".toList ≠ [] ∧ IsConfigured dottedMembers ".TS".toList ∧
          kindFor (styleTexts dottedMembers) ".TS".toList =
            kindFor (styleTexts dottedMembers)
              (extensionOf ".module.TS".toList)) := by
  have hload : ofJson (.object dottedMembers) = .ok dottedConfig := rfl
  have hcapitals :=
    @takes_effect_iff dottedMembers dottedConfig hload " SCSS ".toList
      (by decide)
    (by decide) ⟨[], ["a.SCSS".toList]⟩ ['a'] [] "SCSS".toList (by decide) rfl
      rfl (by decide)
  have hinner :=
    @takes_effect_iff dottedMembers dottedConfig hload ".module.TS".toList
    (by decide) (by decide) ⟨[], ["a.module.TS".toList]⟩ ['a'] ".module".toList
      "TS".toList
    (by decide) rfl rfl (by decide)
  exact ⟨hload, hcapitals.1 rfl (by decide), hinner.2⟩

/-- An extension with a dot in it that is configured alone takes no effect: the
file whose name ends in it has no kind. -/
theorem no_effect_of_inner_dot :
    ofJson (.object
      [("css_extensions".toList, .array [.string ".module.css".toList])]) =
        .ok { styleExtensions := [".module.css".toList] } ∧
      Path.name (Path.ofText "x.module.css".toList) =
        ['x'] ++ extensionOf ".module.css".toList ∧
      ({ styleExtensions := [".module.css".toList] } : Config).kindOf?
        (Path.ofText "x.module.css".toList) = none :=
  ⟨rfl, rfl, rfl⟩

end Config

end OklchGate
