import OklchGate.Proofs.Mapping.Layout
import OklchGate.Proofs.Mapping.Repeating

/-!
# Where the pairs of a mapping literal end

The gated entry goes after the line of its anchor, which is the last entry of
the scan.  A key that comes again keeps its place among the entries, so the
anchor need not be the last pair of the text, and the gated entry need not come
after that pair.

There are four groups.

* `pairsAt`: the pairs of a text with the offsets at which they end.  They are
  the ones that a scan reads (`map_pairsAt`), and they end one after the other
  (`pairwise_pairsAt`).
* `getLast?_scan`: a last pair with a new key is the last entry of the scan.
* `le_insertionOffset?_iff`: the ends of pairs that lie in front of the gated
  entry.
* `insertion_follows_iff`, which puts this together.
-/

namespace OklchGate.Mapping

/-! ## The ends of pairs -/

/-- A pair of a text, and the offset at which it ends. -/
structure PairAt where
  key : Text
  hex : Text
  stop : Nat
  deriving DecidableEq, Repr

/-- The pairs of a part of a text that goes up to the offset `total`. -/
def pairsUpTo (total : Nat) (text : Text) : List PairAt :=
  (Pieces.cut (fun c rest =>
    if c = '\'' then
      match readEntry? rest with
      | some (key, hex, length) =>
        (some ⟨key, hex, total - (rest.length - length)⟩, length)
      | none => (none, 0)
    else (none, 0)) text).filterMap id

/-- The pairs of a text, with the offsets at which they end. -/
def pairsAt (content : Text) : List PairAt := pairsUpTo content.length content

theorem pairsUpTo_quote (total : Nat) (rest : Text) :
    pairsUpTo total ('\'' :: rest) =
      match readEntry? rest with
      | some (key, hex, length) =>
        ⟨key, hex, total - (rest.length - length)⟩ :: pairsUpTo total
          (rest.drop length)
      | none => pairsUpTo total rest := by
  rw [pairsUpTo, Pieces.cut_cons, if_pos rfl]
  cases readEntry? rest <;> rfl

theorem pairsUpTo_other (total : Nat) {c : Char} (hc : c ≠ '\'') (rest : Text) :
    pairsUpTo total (c :: rest) = pairsUpTo total rest := by
  rw [pairsUpTo, Pieces.cut_cons, if_neg hc]
  rfl

/-- The pairs of a text are read one after the other. -/
theorem pairsUpTo_induction {motive : Text → List PairAt → Prop} (total : Nat)
    (nil : motive [] [])
    (skip : ∀ c rest, (c = '\'' → readEntry? rest = none) →
      motive rest (pairsUpTo total rest) →
      motive (c :: rest) (pairsUpTo total rest))
    (read : ∀ rest key hex length, readEntry? rest = some (key, hex, length) →
      motive (rest.drop length) (pairsUpTo total (rest.drop length)) →
      motive ('\'' :: rest)
      (⟨key, hex, total - (rest.length - length)⟩ :: pairsUpTo total
      (rest.drop length)))
    (text : Text) : motive text (pairsUpTo total text) := by
  induction hlength : text.length using Nat.strongRecOn generalizing text with
  | _ n ih =>
  subst hlength
  cases text with
  | nil => exact nil
  | cons c rest =>
    by_cases hc : c = '\''
    · subst hc
      rw [pairsUpTo_quote]
      cases hread : readEntry? rest with
      | none =>
        exact skip _ rest (fun _ => hread)
          (ih rest.length (Nat.lt_succ_self _) rest rfl)
      | some found =>
        obtain ⟨key, hex, length⟩ := found
        have hshort : (rest.drop length).length < ('\'' :: rest).length := by
          rw [List.length_drop, List.length_cons]
          omega
        exact read rest key hex length hread
          (ih _ hshort (rest.drop length) rfl)
    · rw [pairsUpTo_other total hc]
      exact skip c rest (fun hquote => absurd hquote hc)
        (ih rest.length (Nat.lt_succ_self _) rest rfl)

/-- The pairs are those that a scan reads. -/
theorem map_pairsAt (content : Text) :
    (pairsAt content).map (fun pair => (pair.key, pair.hex)) =
      hexPairs content := by
  refine pairsUpTo_induction (motive := fun text pairs =>
    pairs.map (fun pair => (pair.key, pair.hex)) = hexPairs text) content.length
      rfl ?_ ?_ content
  · intro c rest hnone ih
    by_cases hc : c = '\''
    · rw [hc, hexPairs_quote, hnone hc, ih]
    · have hskip : '\'' ∉ [c] :=
        fun hmem => hc (List.mem_singleton.mp hmem).symm
      rw [ih, ← hexPairs_append hskip rest, List.singleton_append]
  · intro rest key hex length hread ih
    rw [List.map_cons, ih, hexPairs_quote, hread]

/-- An entry that is read, up to the quote at its end. -/
theorem exists_readEntry?_eq {text key hex : Text} {length : Nat}
    (h : readEntry? text = some (key, hex, length)) :
    ∃ blanks after,
      text = key ++ '\'' :: ':' :: (blanks ++ '\'' :: (hex ++ '\'' :: after)) ∧
      text.length = length + after.length := by
  obtain ⟨hquote, ⟨digits, rfl, hdigits⟩, blanks, after, hblanks, rfl⟩ :=
    readEntry?_eq_some h
  refine ⟨blanks, after, rfl, ?_⟩
  have htake : (digits ++ '\'' :: after).takeWhile isHexDigit = digits := by
    rw [List.takeWhile_append_of_pos (List.all_eq_true.mp hdigits),
      List.takeWhile_cons_of_neg (by decide), List.append_nil]
  rw [readEntry?_key hquote, List.cons_append,
    readValue?_blanks _ (List.all_eq_true.mp hblanks), htake] at h
  split at h
  · simp only [Option.some.injEq, Prod.mk.injEq, true_and] at h
    simp only [List.length_append, List.length_cons]
    omega
  · cases h

/-- Where a pair ends. -/
theorem exists_of_mem_pairsUpTo {total : Nat} {text : Text} {pair : PairAt}
    (h : pair ∈ pairsUpTo total text) :
    ∃ before blanks after,
      text = before ++ '\'' :: (pair.key ++ '\'' :: ':' ::
        (blanks ++ '\'' :: (pair.hex ++ '\'' :: after))) ∧
      pair.stop = total - after.length := by
  refine pairsUpTo_induction (motive := fun text pairs => ∀ pair ∈ pairs,
    ∃ before blanks after,
      text = before ++ '\'' :: (pair.key ++ '\'' :: ':' ::
        (blanks ++ '\'' :: (pair.hex ++ '\'' :: after))) ∧
      pair.stop = total - after.length) total ?_ ?_ ?_ text pair h
  · exact nofun
  · intro c rest _ ih pair hpair
    obtain ⟨before, blanks, after, hrest, hstop⟩ := ih pair hpair
    exact ⟨c :: before, blanks, after, by rw [hrest, List.cons_append], hstop⟩
  · intro rest key hex length hread ih pair hpair
    rcases List.mem_cons.mp hpair with rfl | hpair
    · obtain ⟨blanks, after, hrest, hlength⟩ := exists_readEntry?_eq hread
      refine ⟨[], blanks, after, by rw [hrest, List.nil_append], ?_⟩
      dsimp only
      omega
    · obtain ⟨before, blanks, after, hrest, hstop⟩ := ih pair hpair
      refine ⟨'\'' :: (rest.take length ++ before), blanks, after, ?_, hstop⟩
      rw [List.cons_append, List.append_assoc, ← hrest, List.take_append_drop]

/-- Up to its end, a text ends in a pair. -/
theorem exists_take_of_mem_pairsAt {content : Text} {pair : PairAt}
    (h : pair ∈ pairsAt content) :
    pair.stop ≤ content.length ∧ ∃ before blanks,
      content.take pair.stop = before ++ '\'' :: (pair.key ++ '\'' :: ':' ::
        (blanks ++ '\'' :: (pair.hex ++ ['\'']))) := by
  obtain ⟨before, blanks, after, hcontent, hstop⟩ := exists_of_mem_pairsUpTo h
  refine ⟨by omega, before, blanks, ?_⟩
  have hparts : content = (before ++ '\'' :: (pair.key ++ '\'' :: ':' ::
      (blanks ++ '\'' :: (pair.hex ++ ['\''])))) ++ after := by
    rw [hcontent]
    simp
  have hlength := congrArg List.length hparts
  rw [List.length_append] at hlength
  rw [hstop, hlength, Nat.add_sub_cancel, hparts, List.take_left]

/-- Pairs end one after the other. -/
theorem pairwise_pairsAt (content : Text) :
    (pairsAt content).Pairwise fun a b => a.stop < b.stop := by
  refine pairsUpTo_induction (motive := fun text pairs => text.length ≤
    content.length →
    pairs.Pairwise fun a b => a.stop < b.stop) content.length ?_ ?_ ?_ content
      (Nat.le_refl _)
  · exact fun _ => List.Pairwise.nil
  · exact fun c rest _ ih hle => ih (Nat.le_of_succ_le hle)
  · intro rest key hex length hread ih hle
    obtain ⟨_, after, _, hlength⟩ := exists_readEntry?_eq hread
    have hdrop : (rest.drop length).length = after.length := by
      rw [List.length_drop]
      omega
    rw [List.length_cons] at hle
    refine List.pairwise_cons.mpr ⟨fun pair hpair => ?_, ih (by omega)⟩
    obtain ⟨before, blanks, last, hrest, hstop⟩ := exists_of_mem_pairsUpTo hpair
    have hlast := congrArg List.length hrest
    rw [hdrop, List.length_append, List.length_cons, List.length_append,
      List.length_cons, List.length_cons, List.length_append, List.length_cons,
      List.length_append, List.length_cons] at hlast
    dsimp only
    omega

/-! ## The last entry of a scan -/

/-- The color of a pair converts. -/
def PairAt.converts (convert : Converter) (pair : PairAt) : Bool :=
  isHexColor pair.hex && (convert pair.hex).isSome

/-- The pairs whose color converts. -/
def convertingAt (convert : Converter) (content : Text) : List PairAt :=
  (pairsAt content).filter (PairAt.converts convert)

/-- The conversions of a text are those of the pairs that convert. -/
theorem map_conversions (convert : Converter) (content : Text) :
    (conversions convert content).map (fun entry => (entry.key, entry.hex)) =
      (convertingAt convert content).map fun pair => (pair.key, pair.hex) := by
  rw [conversions, ← map_pairsAt, convertingAt]
  induction pairsAt content with
  | nil => rfl
  | cons pair rest ih =>
    rw [List.map_cons, List.filterMap_cons, List.filter_cons, PairAt.converts,
      Entry.ofPair?]
    cases hcolor : isHexColor pair.hex with
    | false => simpa using ih
    | true =>
      cases hconvert : convert pair.hex with
      | none => simpa [hconvert] using ih
      | some oklch => simpa [hconvert] using ih

theorem put_of_not_mem {entry : Entry} {entries : List Entry}
    (h : ∀ other ∈ entries, other.key ≠ entry.key) :
    put entry entries = entries ++ [entry] := by
  induction entries with
  | nil => rfl
  | cons other rest ih =>
    rw [List.forall_mem_cons] at h
    rw [put, if_neg h.1, ih h.2, List.cons_append]

theorem mem_of_mem_put {entry other : Entry} {entries : List Entry}
    (h : other ∈ put entry entries) : other = entry ∨ other ∈ entries := by
  induction entries with
  | nil => exact Or.inl (List.mem_singleton.mp h)
  | cons first rest ih =>
    rw [put] at h
    split at h
    · exact (List.mem_cons.mp h).imp_right (List.mem_cons_of_mem first)
    · rcases List.mem_cons.mp h with rfl | h
      · exact Or.inr List.mem_cons_self
      · exact (ih h).imp_right (List.mem_cons_of_mem first)

theorem mem_of_mem_foldl_put {read entries : List Entry} {other : Entry}
    (h : other ∈ read.foldl (fun entries entry => put entry entries) entries) :
    other ∈ read ∨ other ∈ entries := by
  induction read generalizing entries with
  | nil => exact Or.inr h
  | cons entry read ih =>
    rcases ih h with hread | hput
    · exact Or.inl (List.mem_cons_of_mem entry hread)
    · rcases mem_of_mem_put hput with rfl | hmem
      · exact Or.inl List.mem_cons_self
      · exact Or.inr hmem

/-- A last pair whose key is new is the last entry of the scan. -/
theorem getLast?_scan {convert : Converter} {content : Text}
    {front : List PairAt} {last : PairAt}
    (h : convertingAt convert content = front ++ [last])
    (hkey : ∀ pair ∈ front, pair.key ≠ last.key) :
    ∃ entry, (scan convert content).entries.getLast? = some entry ∧ entry.hex =
      last.hex := by
  have hmap := map_conversions convert content
  rw [h, List.map_append, List.map_singleton, List.map_eq_append_iff] at hmap
  obtain ⟨before, after, hconversions, hbefore, hafter⟩ := hmap
  obtain ⟨entry, rfl, hentry⟩ := List.map_eq_singleton_iff.mp hafter
  rw [Prod.mk.injEq] at hentry
  have hnew :
    ∀ other ∈ before.foldl (fun entries entry => put entry entries) [],
      other.key ≠ entry.key := by
    intro other hother
    have hmem := (mem_of_mem_foldl_put hother).resolve_right List.not_mem_nil
    have hpair : (other.key, other.hex) ∈ front.map fun pair =>
        (pair.key, pair.hex) :=
      hbefore ▸ List.mem_map_of_mem hmem
    obtain ⟨pair, hfront, heq⟩ := List.mem_map.mp hpair
    rw [hentry.1, ← (Prod.mk.inj heq).1]
    exact hkey pair hfront
  refine ⟨entry, ?_, hentry.2⟩
  rw [entries_scan, hconversions, List.foldl_append, List.foldl_cons,
    List.foldl_nil, put_of_not_mem hnew, List.getLast?_concat]

/-! ## The place of the gated entry -/

/-- The offset before a line break comes after a quote exactly if the offset
does. -/
theorem le_beforeBreak_iff {content text : Text} {stop offset : Nat}
    (hquote : content.take stop = text ++ ['\''])
    (hstop : stop ≤ content.length) :
    stop ≤ beforeBreak content offset ↔ stop ≤ offset := by
  have hlength : stop = text.length + 1 := by
    rw [← List.length_take_of_le hstop, hquote, List.length_append,
      List.length_singleton]
  have hcontent : content = text ++ '\'' :: content.drop stop := by
    have hparts := List.take_append_drop stop content
    rwa [hquote, List.append_assoc, List.singleton_append, eq_comm] at hparts
  rw [beforeBreak]
  split
  · next hbreak =>
    rw [Bool.and_eq_true, decide_eq_true_iff, decide_eq_true_iff] at hbreak
    have hne : stop ≠ offset := by
      rintro rfl
      have hslice := hbreak.2
      rw [hcontent, hlength, Text.slice, Nat.add_sub_cancel, List.drop_left,
        Nat.add_assoc, Nat.add_sub_cancel_left, List.take_succ_cons] at hslice
      exact absurd (List.cons.inj hslice).1 (by decide)
    omega
  · exact Iff.rfl

/-- A quote stands in front of the gated entry exactly if it stands on the line
of the anchor, or before it, or in front of the next closing line. -/
theorem le_insertionOffset?_iff {content anchor text : Text}
    {place offset stop : Nat}
    (hplace : Text.findLast? anchor content = some place)
    (hoffset : insertionOffset? content anchor = some offset)
    (hquote : content.take stop = text ++ ['\''])
    (hstop : stop ≤ content.length) :
    stop ≤ offset ↔ '\n' ∉ content.slice place stop ∨
      ∃ length, closingLine? (content.drop place) = some length ∧
        stop ≤ place + length := by
  obtain ⟨line, tail, hcontent, hline, htail, hown⟩ :=
    exists_line_of_findLast? hplace
  have hdrop : content.drop place = line ++ tail := by
    have hparts := List.take_append_drop place content
    exact List.append_cancel_left
      (hparts.trans (hcontent.trans (List.append_assoc ..)))
  have hlength : content.length = place + line.length + tail.length := by
    have hle : place ≤ content.length := (Text.findLast?_eq_some hplace).1
    have hparts := congrArg List.length hdrop
    rw [List.length_drop, List.length_append] at hparts
    omega
  have hsame : '\n' ∉ (line ++ tail).take (stop - place) ↔
      stop ≤ place + line.length := by
    rcases Nat.lt_or_ge (place + line.length) stop with hlt | hle
    · rcases htail with rfl | ⟨back, rfl⟩
      · rw [List.length_nil] at hlength
        omega
      · refine iff_of_false (fun hnot => hnot ?_) (Nat.not_le.mpr hlt)
        rw [List.take_append, List.mem_append]
        refine Or.inr ?_
        obtain ⟨more, hmore⟩ : ∃ more, stop - place - line.length = more + 1 :=
          ⟨stop - place - line.length - 1, by omega⟩
        rw [hmore, List.singleton_append, List.take_succ_cons]
        exact List.mem_cons_self
    · refine iff_of_true (fun hmem => ?_) hle
      rw [List.take_append_of_le_length (by omega)] at hmem
      exact hline (List.mem_of_mem_take hmem)
  rw [hoffset, Option.some.injEq] at hown
  rw [hown, le_beforeBreak_iff hquote hstop, Text.slice, hdrop,
    closingLine?_append hline, hsame]
  cases closingLine? tail with
  | none => simp
  | some length =>
    simp only [Option.getD_some, Option.map_some, Option.some.injEq,
      exists_eq_left']
    omega

/-! ## Pairs and the gated entry -/

/-- A text that changes gets a gated entry at the offset for its last entry. -/
theorem exists_of_transform_changed {convert : Converter}
    {content inserted : Text} {entries : List Entry} {failures : List Text}
    {offset : Nat}
    (h : transform convert content = .ok
      (.changed entries failures offset inserted)) :
    entries = (scan convert content).entries ∧ ∃ entry place,
      entries.getLast? = some entry ∧ Text.findLast? entry.hex content =
        some place ∧
      insertionOffset? content entry.hex = some offset := by
  rcases transform_cases convert content with
    ⟨_, hother⟩ | ⟨_, _, hother⟩ | ⟨hkey, hne, _⟩
  · rw [h] at hother
    cases hother
  · rw [h] at hother
    cases hother
  · have hconversions : conversions convert content ≠ [] := by
      intro hnil
      rw [entries_scan, hnil] at hne
      exact hne rfl
    obtain ⟨entry, found, indent, hlast, hoffset, _, _, htransform⟩ :=
      exists_transform_eq hkey hconversions
    rw [h] at htransform
    cases htransform
    obtain ⟨_, place, hplace, _⟩ :=
      exists_insertionOffset?
        (hex_infix_of_mem_scan (List.mem_of_getLast? hlast))
    exact ⟨rfl, entry, place, hlast, hplace, hoffset⟩

theorem mem_hexPairs_of_mem_pairsAt {content : Text} {pair : PairAt}
    (h : pair ∈ pairsAt content) :
    (pair.key, pair.hex) ∈ hexPairs content :=
  map_pairsAt content ▸ List.mem_map_of_mem h

/-- A pair ends on the line of the last place of its hex text, or before that
line. -/
theorem not_mem_slice_of_mem {content : Text} {pair : PairAt} {place : Nat}
    (hpair : pair ∈ pairsAt content)
    (hplace : Text.findLast? pair.hex content = some place) :
    '\n' ∉ content.slice place pair.stop := by
  obtain ⟨hstop, before, blanks, htake⟩ := exists_take_of_mem_pairsAt hpair
  obtain ⟨_, ⟨digits, hhex, hdigits⟩, _⟩ :=
    exists_of_mem_hexPairs (mem_hexPairs_of_mem_pairsAt hpair)
  obtain ⟨front, hfront⟩ : ∃ front, content.take pair.stop =
      front ++ (pair.hex ++ ['\'']) := by
    refine ⟨before ++ '\'' :: (pair.key ++ '\'' :: ':' :: (blanks ++ ['\''])),
      ?_⟩
    rw [htake]
    simp
  have hcontent :
      content = front ++ (pair.hex ++ ['\''] ++ content.drop pair.stop) := by
    rw [← List.append_assoc, ← hfront, List.take_append_drop]
  have hle : front.length ≤ place := by
    refine Nat.le_of_not_lt fun hlt =>
      (Text.findLast?_eq_some hplace).2.2 front.length hlt ?_ ?_
    · rw [hcontent, List.length_append]
      omega
    · rw [hcontent, List.drop_left, List.append_assoc]
      exact List.prefix_append pair.hex _
  intro hmem
  rw [Text.slice, ← List.drop_take, hfront, List.drop_append,
    List.drop_of_length_le hle, List.nil_append] at hmem
  dsimp only at hhex
  have hchar := List.mem_of_mem_drop hmem
  rw [hhex, List.mem_append, List.mem_cons] at hchar
  rcases hchar with (hchar | hchar) | hchar
  · exact absurd hchar (by decide)
  · exact absurd (List.all_eq_true.mp hdigits _ hchar) (by decide)
  · exact absurd (List.mem_singleton.mp hchar) (by decide)

/-- The gated entry comes after every pair that converts exactly if it comes
after the last one: exactly if that pair ends on the line of the anchor or
before it, or in front of the next closing line.  This is so if the key of that
pair has not come before. -/
theorem insertion_follows_iff {convert : Converter} {content inserted : Text}
    {entries : List Entry} {failures : List Text} {offset : Nat}
    (h : transform convert content = .ok
      (.changed entries failures offset inserted)) :
    ∃ front last entry place,
      (pairsAt content).filter (PairAt.converts convert) = front ++ [last] ∧
      entries.getLast? = some entry ∧ Text.findLast? entry.hex content =
        some place ∧
      ((∀ pair ∈ pairsAt content, pair.converts convert = true →
        pair.stop ≤ offset) ↔
        '\n' ∉ content.slice place last.stop ∨
          ∃ length, closingLine? (content.drop place) = some length ∧
            last.stop ≤ place + length) ∧
      ((∀ pair ∈ front, pair.key ≠ last.key) →
        ∀ pair ∈ pairsAt content, pair.converts convert = true →
          pair.stop ≤ offset) := by
  obtain ⟨hentries, entry, place, hentry, hplace, hoffset⟩ :=
    exists_of_transform_changed h
  have hne : convertingAt convert content ≠ [] := by
    intro hnil
    have hconversions := map_conversions convert content
    rw [hnil, List.map_nil, List.map_eq_nil_iff] at hconversions
    rw [hentries, entries_scan, hconversions] at hentry
    cases hentry
  obtain ⟨front, last, hlast⟩ : ∃ front last, convertingAt convert content =
      front ++ [last] :=
    ⟨_, _, (List.dropLast_concat_getLast hne).symm⟩
  have hmem : last ∈ pairsAt content ∧ last.converts convert = true := by
    have hconverting : last ∈ convertingAt convert content :=
      hlast ▸ List.mem_append_right front List.mem_cons_self
    exact List.mem_filter.mp hconverting
  have hall : (∀ pair ∈ pairsAt content, pair.converts convert = true →
    pair.stop ≤ offset) ↔ last.stop ≤ offset := by
    refine ⟨fun hpairs => hpairs last hmem.1 hmem.2,
      fun hle pair hpair hconverts => ?_⟩
    have hthere : pair ∈ front ++ [last] :=
      hlast ▸ List.mem_filter.mpr ⟨hpair, hconverts⟩
    have hpairwise : (front ++ [last]).Pairwise fun a b => a.stop < b.stop :=
      hlast ▸ (pairwise_pairsAt content).filter _
    rcases List.mem_append.mp hthere with hfront | hsame
    · have hlt := (List.pairwise_append.mp hpairwise).2.2 pair hfront last
        List.mem_cons_self
      omega
    · rwa [List.mem_singleton.mp hsame]
  obtain ⟨hstop, before, blanks, htake⟩ := exists_take_of_mem_pairsAt hmem.1
  have hquote : content.take last.stop =
    (before ++ '\'' :: (last.key ++ '\'' :: ':' ::
      (blanks ++ '\'' :: last.hex))) ++ ['\''] := by
    rw [htake]
    simp
  have hplaceIff := le_insertionOffset?_iff hplace hoffset hquote hstop
  refine ⟨front, last, entry, place, hlast, hentry, hplace,
    hall.trans hplaceIff, fun hkey => hall.mpr (hplaceIff.mpr (Or.inl ?_))⟩
  obtain ⟨own, hown, hhex⟩ := getLast?_scan hlast hkey
  rw [← hentries, hentry, Option.some.injEq] at hown
  rw [hown, hhex] at hplace
  exact not_mem_slice_of_mem hmem.1 hplace

/-- Two mappings; the first key of the first one comes again in the second
one. -/
def themes : Text :=
  "\x7b\n\t':root': \x7b\n\t\t'a': '#111',\n\t\t'b': '#222',\n\t\x7d,\n".toList ++
    "\t'.dark': \x7b\n\t\t'a': '#333',\n\t\x7d,\n\x7d\n".toList

/-- The gated entry of the two mappings. -/
theorem insertion_follows_iff_themes :
    ∃ entries failures offset inserted,
      transform (fun _ => some "oklch(1 0 0)".toList) themes =
        .ok (.changed entries failures offset inserted) ∧
      ∃ front last entry place,
        (pairsAt themes).filter (PairAt.converts fun _ =>
          some "oklch(1 0 0)".toList) = front ++ [last] ∧
        entries.getLast? = some entry ∧ Text.findLast? entry.hex themes =
          some place ∧
        ((∀ pair ∈ pairsAt themes,
            pair.converts (fun _ => some "oklch(1 0 0)".toList) = true →
              pair.stop ≤ offset) ↔
          '\n' ∉ themes.slice place last.stop ∨
            ∃ length, closingLine? (themes.drop place) = some length ∧
              last.stop ≤ place + length) ∧
        ((∀ pair ∈ front, pair.key ≠ last.key) →
          ∀ pair ∈ pairsAt themes,
            pair.converts (fun _ => some "oklch(1 0 0)".toList) = true →
              pair.stop ≤ offset) :=
  ⟨_, _, _, _, rfl, insertion_follows_iff rfl⟩

/-- The gated entry of the two mappings goes to the end of the first one, in
front of the last pair, which converts. -/
theorem insertion_precedes_pair :
    ∃ inserted,
      transform (fun _ => some "oklch(1 0 0)".toList) themes =
        .ok (.changed [⟨"a".toList, "#333".toList, "oklch(1 0 0)".toList⟩,
          ⟨"b".toList, "#222".toList, "oklch(1 0 0)".toList⟩] [] 43 inserted) ∧
      ⟨"a".toList, "#333".toList, 73⟩ ∈ pairsAt themes ∧
      PairAt.converts (fun _ => some "oklch(1 0 0)".toList)
        ⟨"a".toList, "#333".toList, 73⟩ = true :=
  ⟨['\n'] ++ block [⟨"a".toList, "#333".toList, "oklch(1 0 0)".toList⟩,
      ⟨"b".toList, "#222".toList, "oklch(1 0 0)".toList⟩] ['\t', '\t'] ['\n'],
    rfl, by decide, rfl⟩

end OklchGate.Mapping
