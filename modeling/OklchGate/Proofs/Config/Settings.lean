import OklchGate.Config.Validation

/-!
# Accepted settings

A configuration is accepted if each of its settings is, and then it holds what
was read of each one: the member with its name, or the default.

* `Config.ofJson_eq_ok` takes an accepted configuration apart.
* `Config.Accepted` says what is known of its lists of extensions and of its
  indent.
-/

namespace OklchGate

/-- A setting that is accepted is the default, or it was read. -/
theorem setting_eq_ok {α : Type} {members : List (Text × JsonValue)}
    {name : Text} {default value : α} {read : JsonValue → SettingResult α}
    (h : setting members name default read = .ok value) :
    (JsonValue.member? name members = none ∧ value = default) ∨
      ∃ data, JsonValue.member? name members = some data ∧
        read data = .ok value := by
  rw [setting] at h
  cases hmember : JsonValue.member? name members with
  | none =>
    rw [hmember] at h
    exact Or.inl ⟨rfl, (Except.ok.inj h).symm⟩
  | some data =>
    rw [hmember] at h
    dsimp only at h
    refine Or.inr ⟨data, rfl, ?_⟩
    cases hread : read data with
    | error faults =>
      rw [hread] at h
      cases h
    | ok found =>
      rw [hread] at h
      exact congrArg Except.ok (Except.ok.inj h)

/-- A list that is accepted holds texts only, and gives their normal forms. -/
theorem listSetting_eq_ok {data : JsonValue} {extensions : List Text}
    (h : listSetting data = .ok extensions) :
    ∃ items, data = .array items ∧ itemFaults 0 items = [] ∧
      extensions = normalizeExtensions (itemTexts items) := by
  unfold listSetting at h
  split at h
  · next items =>
    split at h
    · next hfaults => exact ⟨items, rfl, hfaults, (Except.ok.inj h).symm⟩
    · cases h
  · cases h

/-- An indent that is accepted is blank. -/
theorem indentSetting_eq_ok {data : JsonValue} {indent : Text}
    (h : indentSetting data = .ok indent) : indent.allBlank = true := by
  unfold indentSetting at h
  split at h
  · next text =>
    split at h
    · next hblank =>
      cases h
      exact hblank
    · cases h
  · cases h

namespace Config

/-- The texts that are configured for a list of extensions: those of its member,
or the default. -/
def textsOf (members : List (Text × JsonValue)) (name : Text)
    (default : List Text) :
    List Text :=
  match JsonValue.member? name members with
  | some (.array items) => itemTexts items
  | _ => default

/-- The texts that are configured as extensions of style sheets. -/
def styleTexts (members : List (Text × JsonValue)) : List Text :=
  textsOf members "css_extensions".toList ({} : Config).styleExtensions

/-- The texts that are configured as extensions of mapping literals. -/
def mappingTexts (members : List (Text × JsonValue)) : List Text :=
  textsOf members "literal_extensions".toList ({} : Config).mappingExtensions

/-- The extensions of a configuration are normal forms of the texts that are
configured, and its indent is blank. -/
structure Accepted (members : List (Text × JsonValue)) (config : Config) :
    Prop where
  styles : config.styleExtensions = normalizeExtensions (styleTexts members)
  mappings : config.mappingExtensions =
    normalizeExtensions (mappingTexts members)
  indent : config.defaultIndent.allBlank = true

/-- An extension that is the default is its own normal form. -/
theorem normalizeExtensions_defaults :
    normalizeExtensions ({} : Config).styleExtensions =
      ({} : Config).styleExtensions ∧
      normalizeExtensions ({} : Config).mappingExtensions =
        ({} : Config).mappingExtensions := by
  decide +kernel

theorem extensions_eq {members : List (Text × JsonValue)} {name : Text}
    {default extensions : List Text}
    (hdefault : normalizeExtensions default = default)
    (h : setting members name default listSetting = .ok extensions) :
    extensions = normalizeExtensions (textsOf members name default) := by
  rcases setting_eq_ok h with ⟨hmember, rfl⟩ | ⟨data, hmember, hread⟩
  · rw [textsOf, hmember]
    exact hdefault.symm
  · obtain ⟨items, rfl, -, rfl⟩ := listSetting_eq_ok hread
    rw [textsOf, hmember]

/-- An accepted configuration holds what was read of each setting. -/
theorem ofJson_eq_ok {members : List (Text × JsonValue)} {config : Config}
    (h : ofJson (.object members) = .ok config) :
    setting members "schema_version".toList ({} : Config).schemaVersion
      integerSetting = .ok config.schemaVersion ∧
      setting members "css_extensions".toList ({} : Config).styleExtensions
        listSetting = .ok config.styleExtensions ∧
      setting members "literal_extensions".toList
        ({} : Config).mappingExtensions listSetting =
        .ok config.mappingExtensions ∧
      setting members "default_indent".toList ({} : Config).defaultIndent
        indentSetting = .ok config.defaultIndent ∧
      setting members "backup".toList ({} : Config).backup flagSetting = .ok
        config.backup := by
  unfold ofJson at h
  dsimp only at h
  split at h
  · next hversion hstyles hmappings hindent hbackup =>
    cases h
    exact ⟨hversion, hstyles, hmappings, hindent, hbackup⟩
  · cases h

theorem accepted_of_ofJson {members : List (Text × JsonValue)} {config : Config}
    (h : ofJson (.object members) = .ok config) : Accepted members config := by
  obtain ⟨-, hstyles, hmappings, hindent, -⟩ := ofJson_eq_ok h
  refine ⟨extensions_eq normalizeExtensions_defaults.1 hstyles,
    extensions_eq normalizeExtensions_defaults.2 hmappings, ?_⟩
  rcases setting_eq_ok hindent with ⟨-, hdefault⟩ | ⟨data, -, hread⟩
  · rw [hdefault]
    decide
  · exact indentSetting_eq_ok hread

end Config

end OklchGate
