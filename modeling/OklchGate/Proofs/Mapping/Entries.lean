import OklchGate.Mapping.Insert
import OklchGate.Proofs.Pieces

/-!
# The entries of a mapping literal

The pairs of a mapping literal stand in its text, and of the pairs with one key
that convert the last one counts.

There are three groups.

* `exists_of_mem_hexPairs`: where a pair stands.
* `conversions`, the pairs that convert, and `mem_scan_iff`: the entries of a
  scan are the last conversions of their keys, in the order of `keys_scan`.
* `pairwise_sorted`: in the order of an inserted entry, keys ascend strictly.
-/

namespace OklchGate.Mapping

/-! ## Pairs in a text -/

/-- The characters of a class at the start of a text, and the rest. -/
theorem takeWhile_append_drop (isIn : Char → Bool) (text : Text) :
    text.takeWhile isIn ++ text.drop (text.takeWhile isIn).length = text :=
  List.prefix_iff_eq_append.mp (List.takeWhile_prefix isIn)

/-- An entry that is read stands at the start of the text, up to the quote after
its hex text. -/
theorem readEntry?_eq_some {text key hex : Text} {length : Nat}
    (h : readEntry? text = some (key, hex, length)) :
    '\'' ∉ key ∧ (∃ digits, hex = '#' :: digits ∧
      digits.all isHexDigit = true) ∧
      ∃ blanks after, blanks.all isBlank = true ∧
        text = key ++ '\'' :: ':' ::
          (blanks ++ '\'' :: (hex ++ '\'' :: after)) := by
  have hkey := takeWhile_append_drop (· ≠ '\'') text
  have hquote : '\'' ∉ text.takeWhile (· ≠ '\'') := by
    intro hmem
    have hall := List.all_eq_true.mp (List.all_takeWhile (l := text)) _ hmem
    exact of_decide_eq_true hall rfl
  unfold readEntry? at h
  dsimp only at h
  split at h
  · next rest hrest =>
    have hblanks := takeWhile_append_drop isBlank rest
    split at h
    · next value hvalue =>
      have hdigits := takeWhile_append_drop isHexDigit value
      split at h
      · next hcond =>
        simp only [Option.some.injEq, Prod.mk.injEq] at h
        obtain ⟨rfl, rfl, -⟩ := h
        obtain ⟨after, hafter⟩ := List.head?_eq_some_iff.mp hcond.2.2
        refine ⟨hquote, ⟨_, rfl, List.all_takeWhile⟩,
          rest.takeWhile isBlank, after, List.all_takeWhile, ?_⟩
        rw [List.cons_append, ← hafter, hdigits, ← hvalue, hblanks, ← hrest,
          hkey]
      · cases h
    · cases h
  · cases h

/-- Where a pair stands in its text, and what it is made of. -/
theorem exists_of_mem_hexPairs {content : Text} {pair : Text × Text}
    (h : pair ∈ hexPairs content) :
    '\'' ∉ pair.1 ∧
      (∃ digits, pair.2 = '#' :: digits ∧ digits.all isHexDigit = true) ∧
      ∃ before blanks after, blanks.all isBlank = true ∧
        content = before ++ '\'' :: (pair.1 ++ '\'' :: ':' ::
          (blanks ++ '\'' :: (pair.2 ++ '\'' :: after))) := by
  rw [hexPairs, List.mem_filterMap] at h
  obtain ⟨piece, hmem, rfl⟩ := h
  obtain ⟨before, c, rest, rfl, hpiece⟩ := Pieces.exists_of_mem_cut content hmem
  split at hpiece
  · next hquote =>
    split at hpiece
    · next key hex length hread =>
      cases hpiece
      obtain ⟨hkey, hhex, blanks, after, hblanks, rfl⟩ :=
        readEntry?_eq_some hread
      exact ⟨hkey, hhex, before, blanks, after, hblanks, by rw [hquote]⟩
    · cases hpiece
  · cases hpiece

/-! ## The pairs that convert -/

/-- The entry of a pair that converts. -/
def Entry.ofPair? (convert : Converter) (pair : Text × Text) : Option Entry :=
  if isHexColor pair.2 then (convert pair.2).map fun oklch =>
    ⟨pair.1, pair.2, oklch⟩ else none

/-- The pairs that convert, with their conversions, in the order of the text. -/
def conversions (convert : Converter) (content : Text) : List Entry :=
  (hexPairs content).filterMap (Entry.ofPair? convert)

theorem Entry.ofPair?_eq_some {convert : Converter} {pair : Text × Text}
    {entry : Entry} (h : Entry.ofPair? convert pair = some entry) :
    entry.key = pair.1 ∧ entry.hex = pair.2 ∧ isHexColor pair.2 = true ∧
      convert pair.2 = some entry.oklch := by
  rw [Entry.ofPair?] at h
  split at h
  · next hcolor =>
    obtain ⟨oklch, hoklch, rfl⟩ := Option.map_eq_some_iff.mp h
    exact ⟨rfl, rfl, hcolor, hoklch⟩
  · cases h

/-- A pair that does not convert changes no entry. -/
theorem entries_add (convert : Converter) (found : Scan) (pair : Text × Text) :
    (found.add convert pair).entries =
      match Entry.ofPair? convert pair with
      | some entry => put entry found.entries
      | none => found.entries := by
  rw [Scan.add, Entry.ofPair?]
  by_cases hcolor : isHexColor pair.2 = true
  · rw [if_pos hcolor, if_pos hcolor]
    cases convert pair.2 <;> rfl
  · rw [if_neg hcolor, if_neg hcolor]

/-- The entries of a scan are put in one after the other. -/
theorem entries_scan (convert : Converter) (content : Text) :
    (scan convert content).entries =
      (conversions convert content).foldl
        (fun entries entry => put entry entries) [] := by
  have hfold : ∀ (pairs : List (Text × Text)) (found : Scan),
      (pairs.foldl (Scan.add convert) found).entries =
        (pairs.filterMap (Entry.ofPair? convert)).foldl
          (fun entries entry => put entry entries) found.entries := by
    intro pairs
    induction pairs with
    | nil => exact fun _ => rfl
    | cons pair pairs ih =>
      intro found
      rw [List.foldl_cons, ih, entries_add, List.filterMap_cons]
      cases Entry.ofPair? convert pair <;> rfl
  exact hfold _ _

/-- The line in the list of failures for a pair that is a color and does not
convert. -/
def failure? (convert : Converter) (pair : Text × Text) : Option Text :=
  if isHexColor pair.2 && (convert pair.2).isNone then
    some (pair.1 ++ [':', ' '] ++ pair.2)
  else none

/-- A pair that converts, or that is no color, adds no failure. -/
theorem failures_add (convert : Converter) (found : Scan) (pair : Text × Text) :
    (found.add convert pair).failures =
      found.failures ++ (failure? convert pair).toList := by
  rw [Scan.add, failure?]
  by_cases hcolor : isHexColor pair.2 = true
  · rw [if_pos hcolor, hcolor, Bool.true_and]
    cases convert pair.2 with
    | none => rfl
    | some oklch => exact (List.append_nil _).symm
  · rw [if_neg hcolor, Bool.eq_false_iff.mpr hcolor, Bool.false_and]
    exact (List.append_nil _).symm

/-- The failures of a scan, in the order of the text. -/
theorem failures_scan (convert : Converter) (content : Text) :
    (scan convert content).failures =
      (hexPairs content).filterMap (failure? convert) := by
  have hfold : ∀ (pairs : List (Text × Text)) (found : Scan),
      (pairs.foldl (Scan.add convert) found).failures =
        found.failures ++ pairs.filterMap (failure? convert) := by
    intro pairs
    induction pairs with
    | nil => exact fun _ => (List.append_nil _).symm
    | cons pair pairs ih =>
      intro found
      rw [List.foldl_cons, ih, failures_add, List.append_assoc,
        List.filterMap_cons]
      cases failure? convert pair <;> rfl
  exact hfold _ _

/-! ## The last conversion of a key -/

/-- The first of some entries with a key. -/
def entryFor? (key : Text) (entries : List Entry) : Option Entry :=
  entries.find? fun entry => decide (entry.key = key)

theorem entryFor?_cons (key : Text) (entry : Entry) (rest : List Entry) :
    entryFor? key (entry :: rest) = if entry.key = key then some entry
      else entryFor? key rest := by
  rw [entryFor?, List.find?_cons]
  by_cases h : entry.key = key <;> simp [h, entryFor?]

/-- An entry that is put in takes the place of the one with its key, and no
other. -/
theorem entryFor?_put (key : Text) (entry : Entry) (entries : List Entry) :
    entryFor? key (put entry entries) =
      if entry.key = key then some entry else entryFor? key entries := by
  induction entries with
  | nil =>
    rw [put, entryFor?_cons]
  | cons other rest ih =>
    rw [put, entryFor?_cons]
    by_cases hother : other.key = entry.key
    · rw [if_pos hother, entryFor?_cons, hother]
      by_cases hkey : entry.key = key
      · rw [if_pos hkey, if_pos hkey]
      · rw [if_neg hkey, if_neg hkey, if_neg hkey]
    · rw [if_neg hother, entryFor?_cons, ih]
      by_cases hkey : entry.key = key
      · rw [if_neg (hkey ▸ hother), if_pos hkey, if_pos hkey]
      · rw [if_neg hkey, if_neg hkey]

theorem keys_put (entry : Entry) (entries : List Entry) :
    (put entry entries).map Entry.key =
      if entry.key ∈ entries.map Entry.key then entries.map Entry.key
      else entries.map Entry.key ++ [entry.key] := by
  induction entries with
  | nil => rfl
  | cons other rest ih =>
    rw [put]
    by_cases hother : other.key = entry.key
    · simp [hother]
    · rw [if_neg hother, List.map_cons, ih, List.map_cons]
      simp only [List.mem_cons, Ne.symm hother, false_or]
      split <;> rfl

/-- Putting an entry in makes no key come twice. -/
theorem nodup_put {entry : Entry} {entries : List Entry}
    (h : (entries.map Entry.key).Nodup) :
    ((put entry entries).map Entry.key).Nodup := by
  rw [keys_put]
  split
  · exact h
  · next hnot =>
    rw [List.nodup_append]
    refine ⟨h, List.nodup_cons.mpr ⟨nofun, List.nodup_nil⟩,
      fun key hkey other hother => ?_⟩
    rw [List.mem_singleton.mp hother]
    exact fun heq => hnot (heq ▸ hkey)

section Scanning

variable (convert : Converter) (content : Text)

theorem nodup_scan : ((scan convert content).entries.map Entry.key).Nodup := by
  rw [entries_scan]
  have hfold : ∀ (read entries : List Entry), (entries.map Entry.key).Nodup →
      ((read.foldl (fun entries entry => put entry entries) entries).map
        Entry.key).Nodup := by
    intro read
    induction read with
    | nil => exact fun _ h => h
    | cons entry read ih => exact fun _ h => ih _ (nodup_put h)
  exact hfold _ [] List.nodup_nil

/-- The keys of a scan stand in the order in which they first convert. -/
theorem keys_scan :
    (scan convert content).entries.map Entry.key =
      ((conversions convert content).map Entry.key).eraseDups := by
  -- The induction is on the last entry, as a key is put in its place or behind
  -- all others.
  have hfold : ∀ later : List Entry,
      (later.reverse.foldl (fun entries entry => put entry entries) []).map
        Entry.key = (later.reverse.map Entry.key).eraseDups := by
    intro later
    induction later with
    | nil => rfl
    | cons entry later ih =>
      rw [List.reverse_cons, List.foldl_append, List.foldl_cons, List.foldl_nil,
        keys_put, ih, List.map_append, List.eraseDups_append]
      by_cases hmem : entry.key ∈ later.reverse.map Entry.key
      · have hgone : [entry.key].removeAll (later.reverse.map Entry.key) =
            [] := by
          simpa [List.removeAll] using hmem
        rw [if_pos (List.mem_eraseDups.mpr hmem), List.map_cons, List.map_nil,
          hgone, List.eraseDups_nil, List.append_nil]
      · have hkept : [entry.key].removeAll (later.reverse.map Entry.key) =
            [entry.key] := by
          simpa [List.removeAll] using hmem
        rw [if_neg (mt List.mem_eraseDups.mp hmem), List.map_cons, List.map_nil,
          hkept]
        rfl
  have hread := hfold (conversions convert content).reverse
  rwa [List.reverse_reverse, ← entries_scan] at hread

/-- The entry of a key is its last conversion. -/
theorem entryFor?_scan (key : Text) :
    entryFor? key (scan convert content).entries =
      entryFor? key (conversions convert content).reverse := by
  have hfold : ∀ (read entries : List Entry),
      entryFor? key (read.foldl (fun entries entry => put entry entries)
        entries) = (entryFor? key read.reverse).or (entryFor? key entries) := by
    intro read
    induction read with
    | nil => exact fun _ => rfl
    | cons entry read ih =>
      intro entries
      rw [List.foldl_cons, ih, entryFor?_put, List.reverse_cons]
      have happend : entryFor? key (read.reverse ++ [entry]) =
          (entryFor? key read.reverse).or (entryFor? key [entry]) :=
            List.find?_append ..
      rw [happend, Option.or_assoc, entryFor?_cons]
      split <;> rfl
  rw [entries_scan, hfold]
  exact Option.or_none

/-- Where keys do not come twice, an entry is the one of its key. -/
theorem entryFor?_eq_some_iff {entries : List Entry}
    (h : (entries.map Entry.key).Nodup) (entry : Entry) :
    entryFor? entry.key entries = some entry ↔ entry ∈ entries := by
  refine ⟨fun hfind => List.mem_of_find?_eq_some hfind, fun hmem => ?_⟩
  induction entries with
  | nil => cases hmem
  | cons other rest ih =>
    rw [List.map_cons, List.nodup_cons] at h
    rw [entryFor?_cons]
    rcases List.mem_cons.mp hmem with rfl | hmem
    · rw [if_pos rfl]
    · have hne : other.key ≠ entry.key := by
        intro heq
        exact h.1 (heq ▸ List.mem_map_of_mem hmem)
      rw [if_neg hne, ih h.2 hmem]

/-- The entries of a scan are the last conversions of their keys. -/
theorem mem_scan_iff (entry : Entry) :
    entry ∈ (scan convert content).entries ↔
      entryFor? entry.key (conversions convert content).reverse =
        some entry := by
  rw [← entryFor?_eq_some_iff (nodup_scan convert content), entryFor?_scan]

/-- An entry of a scan was read from the text. -/
theorem exists_of_mem_scan {entry : Entry}
    (h : entry ∈ (scan convert content).entries) :
    (entry.key, entry.hex) ∈ hexPairs content ∧ isHexColor entry.hex = true ∧
      convert entry.hex = some entry.oklch := by
  have hmem : entry ∈ conversions convert content :=
    List.mem_reverse.mp
      (List.mem_of_find?_eq_some ((mem_scan_iff convert content entry).mp h))
  obtain ⟨pair, hpair, hentry⟩ := List.mem_filterMap.mp hmem
  obtain ⟨hkey, hhex, hcolor, hconvert⟩ := Entry.ofPair?_eq_some hentry
  rw [hkey, hhex]
  exact ⟨hpair, hcolor, hconvert⟩

/-- A scan finds an entry as soon as one pair converts. -/
theorem entries_ne_nil (h : conversions convert content ≠ []) :
    (scan convert content).entries ≠ [] := by
  intro hnil
  obtain ⟨entry, hentry⟩ := List.exists_mem_of_ne_nil _ h
  have hfind :
      (entryFor? entry.key (conversions convert content).reverse).isSome =
      true := by
    rw [entryFor?, List.find?_isSome]
    exact ⟨entry, List.mem_reverse.mpr hentry, decide_eq_true rfl⟩
  rw [← entryFor?_scan, hnil] at hfind
  cases hfind

end Scanning

/-! ## The order of an inserted entry -/

theorem mem_sorted {entries : List Entry} {entry : Entry} :
    entry ∈ sorted entries ↔ entry ∈ entries :=
  (List.mergeSort_perm entries _).mem_iff

/-- Entries with different keys ascend strictly once they are sorted. -/
theorem pairwise_sorted {entries : List Entry}
    (h : (entries.map Entry.key).Nodup) :
    (sorted entries).Pairwise fun a b => a.key < b.key := by
  have hle : ∀ a b : Entry, (!decide (b.key < a.key)) = true ↔
      List.le a.key b.key := by
    intro a b
    rw [Bool.not_eq_true', decide_eq_false_iff_not, List.le]
  have hpairwise : (sorted entries).Pairwise fun a b =>
      List.le a.key b.key := by
    refine (List.pairwise_mergeSort ?_ ?_ entries).imp fun {a b} hab =>
      (hle a b).mp hab
    · intro a b c hab hbc
      rw [hle] at hab hbc ⊢
      exact List.le_trans hab hbc
    · intro a b
      rw [Bool.or_eq_true, hle, hle]
      exact List.le_total a.key b.key
  have hnodup : (sorted entries).Pairwise fun a b => a.key ≠ b.key := by
    have hperm := (List.mergeSort_perm entries fun a b =>
      !decide (b.key < a.key)).map Entry.key
    exact List.pairwise_map.mp (hperm.nodup_iff.mpr h)
  exact (hpairwise.and hnodup).imp fun {a b} hab =>
    @Std.lt_of_le_of_ne Text List.instLE List.instLT _ _ _ _ hab.1 hab.2

end OklchGate.Mapping
