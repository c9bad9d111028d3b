import OklchGate.Proofs.Css.ColorTokens

/-!
# Trees by their text

Trees of white space, exclamation marks and words without either can be read off
their text, if no two words meet.

There are two groups.

* `Tree.Simple` and `Apart`, with `Tree.peel_gaps`, `Tree.peel_bang` and
  `Tree.peel_word` for the trees at the start of a text.
* `Tree.Legible`, with `Tree.Legible.word`, `Tree.Legible.bang` and
  `Tree.Legible.gaps`: what the trees are that are no gaps.
-/

namespace OklchGate.Css

open Text

/-! ## The trees at the start of a text -/

/-- A character that is neither a blank nor an exclamation mark. -/
def isSolid (c : Char) : Bool := !isBlank c && c ≠ '!'

theorem IsHex.solid {hex : Text} (h : IsHex hex) :
    ∀ c ∈ hex, isSolid c = true := by
  obtain ⟨digits, rfl, hdigits, _⟩ := h
  rw [List.forall_mem_cons]
  refine ⟨by decide, fun c hc => ?_⟩
  have hdigit := hdigits c hc
  have hbang : c ≠ '!' := by
    rintro rfl
    cases hdigit
  rw [isSolid, (hexDigit_other hdigit).1, decide_eq_true hbang]
  rfl

theorem IsImportant.solid {word : Text} (h : IsImportant word) :
    ∀ c ∈ word, isSolid c = true := by
  intro c hc
  obtain ⟨letter, hmem, hletter⟩ := h.exists_letter c hc
  obtain ⟨hblank, hbang, _⟩ := letter_other hmem hletter
  rw [isSolid, hblank, decide_eq_true hbang]
  rfl

theorem isBlank_of_isSolid {c : Char} (h : isSolid c = true) :
    isBlank c = false := by
  rw [isSolid, Bool.and_eq_true, Bool.not_eq_true'] at h
  exact h.1

theorem IsHex.ascii {hex : Text} (h : IsHex hex) :
    ∀ c ∈ hex, c.toNat < 128 := by
  obtain ⟨digits, rfl, hdigits, _⟩ := h
  rw [List.forall_mem_cons]
  exact ⟨by decide, fun c hc => toNat_hexDigit (hdigits c hc)⟩

theorem IsHex.ne_nil {hex : Text} (h : IsHex hex) : hex ≠ [] := by
  obtain ⟨digits, rfl, _⟩ := h
  exact List.cons_ne_nil _ _

theorem IsImportant.ne_nil {word : Text} (h : IsImportant word) :
    word ≠ [] := by
  rintro rfl
  cases h.1

/-- Blanks hold nothing solid. -/
theorem Blanks.head_append {blanks rest : Text} (h : Blanks blanks)
    (hrest : ∀ c ∈ rest.head?, isSolid c = false) :
    ∀ c ∈ (blanks ++ rest).head?, isSolid c = false := by
  cases blanks with
  | nil => exact hrest
  | cons b blanks =>
    rintro _ ⟨⟩
    rw [isSolid, h b List.mem_cons_self]
    rfl

theorem Blanks.head {blanks : Text} (h : Blanks blanks) :
    ∀ c ∈ blanks.head?, isSolid c = false := by
  have happend : ∀ c ∈ (blanks ++ []).head?, isSolid c = false :=
    h.head_append nofun
  rwa [List.append_nil] at happend

/-- Such trees as the text of a color can hold: white space, an exclamation
mark, or a word without either. -/
inductive Tree.Simple (source : Text) : Tree → Prop where
  | gap {tree : Tree} : tree.isGap = true → tree.text ≠ [] → White tree.text →
    Simple source tree
  | bang {tree : Tree} : tree.isDelimiter '!' = true → tree.text = ['!'] →
    Simple source tree
  | solid {word : Word} : word ∈ Css.words source →
    (Tree.leaf word).isGap = false →
      (Tree.leaf word).isDelimiter '!' = false →
        (∀ c ∈ word.text, isSolid c = true) →
      Simple source (.leaf word)

/-- Two neighbours are never both something else than a gap or an exclamation
mark. -/
def Apart (trees : List Tree) : Prop :=
  ∀ front a b back, trees = front ++ a :: b :: back →
    a.isGap = true ∨ a.isDelimiter '!' = true ∨ b.isGap = true ∨
      b.isDelimiter '!' = true

theorem Apart.right {a b : List Tree} (h : Apart (a ++ b)) : Apart b := by
  intro front first second back hb
  exact h (a ++ front) first second back (by rw [hb, List.append_assoc])

namespace Tree

variable {source : Text}

/-- The first character of a tree says what the tree is. -/
theorem Simple.head {tree : Tree} (h : Simple source tree) :
    ∃ c own, tree.text = c :: own ∧
      (isBlank c = true → tree.isGap = true ∧ Blanks tree.text) ∧
      (c = '!' → own = [] ∧ tree.isDelimiter '!' = true) ∧
      (isSolid c = true → ∃ word, tree = .leaf word ∧ word ∈ Css.words source ∧
        tree.isGap = false ∧ tree.isDelimiter '!' = false ∧ ∀ d ∈ word.text,
          isSolid d = true) := by
  cases h with
  | gap hgap hne hwhite =>
    obtain ⟨c, own, htext⟩ := List.exists_cons_of_ne_nil hne
    have hc : isBlank c = true := by
      refine hwhite.blanks c ?_
      rw [htext]
      exact List.mem_cons_self
    refine ⟨c, own, htext, fun _ => ⟨hgap, hwhite.blanks⟩, ?_, ?_⟩
    · rintro rfl
      cases hc
    · intro hsolid
      rw [isSolid, hc] at hsolid
      cases hsolid
  | bang hbang htext =>
    exact ⟨'!', [], htext, nofun, fun _ => ⟨rfl, hbang⟩, nofun⟩
  | @solid word hmem hgap hbang hsolid =>
    obtain ⟨c, own, htext⟩ := List.exists_cons_of_ne_nil (Word.text_ne_nil hmem)
    have hc : isSolid c = true := by
      refine hsolid c ?_
      rw [htext]
      exact List.mem_cons_self
    refine ⟨c, own, by simpa [text] using htext, ?_, ?_,
      fun _ => ⟨word, rfl, hmem, hgap, hbang, hsolid⟩⟩
    · intro hblank
      rw [isSolid, hblank] at hc
      cases hc
    · rintro rfl
      cases hc

/-- Blanks at the start of the text are gaps. -/
theorem peel_gaps {trees : List Tree} {blanks rest : Text}
    (h : ∀ tree ∈ trees, Simple source tree)
    (htext : textOf trees = blanks ++ rest) (hblanks : Blanks blanks)
    (hrest : ∀ c ∈ rest.head?, isBlank c = false) :
    ∃ gaps more, trees = gaps ++ more ∧ (∀ tree ∈ gaps, tree.isGap = true) ∧
      textOf more = rest := by
  induction trees generalizing blanks with
  | nil =>
    exact ⟨[], [], rfl, nofun, (List.append_eq_nil_iff.mp htext.symm).2.symm⟩
  | cons tree others ih =>
    rw [List.forall_mem_cons] at h
    obtain ⟨c, own, hown, hgap, _, _⟩ := h.1.head
    cases blanks with
    | nil => exact ⟨[], tree :: others, rfl, nofun, htext⟩
    | cons b blanks =>
      have htext' := htext
      rw [textOf_cons, hown, List.cons_append, List.cons_append,
        List.cons.injEq] at htext'
      rw [htext'.1] at hgap
      obtain ⟨hgap, hwhole⟩ := hgap (hblanks b List.mem_cons_self)
      rw [textOf_cons] at htext
      rcases List.append_eq_append_iff.mp htext with
        ⟨more, hmore, hothers⟩ | ⟨more, htree, hothers⟩
      · rw [hmore] at hblanks
        obtain ⟨gaps, last, rfl, hgaps, hlast⟩ :=
          ih h.2 hothers fun c hc => hblanks c (List.mem_append_right _ hc)
        exact ⟨tree :: gaps, last, rfl, List.forall_mem_cons.mpr ⟨hgap, hgaps⟩,
          hlast⟩
      · -- A tree of blanks does not reach into what is behind the blanks.
        cases more with
        | nil =>
          exact ⟨[tree], others, rfl, List.forall_mem_singleton.mpr hgap,
            hothers.symm⟩
        | cons d more =>
          have hd : isBlank d = true := by
            refine hwhole d ?_
            rw [htree]
            exact List.mem_append_right _ List.mem_cons_self
          rw [hrest d (by rw [hothers]; rfl)] at hd
          cases hd

/-- An exclamation mark at the start of the text is a tree. -/
theorem peel_bang {trees : List Tree} {rest : Text}
    (h : ∀ tree ∈ trees, Simple source tree)
    (htext : textOf trees = '!' :: rest) :
    ∃ bang more, trees = bang :: more ∧ bang.isDelimiter '!' = true ∧
      textOf more = rest := by
  cases trees with
  | nil => cases htext
  | cons tree others =>
    obtain ⟨c, own, hown, _, hmark, _⟩ := (h tree List.mem_cons_self).head
    rw [textOf_cons, hown, List.cons_append, List.cons.injEq] at htext
    obtain ⟨rfl, hbang⟩ := hmark htext.1
    exact ⟨tree, others, rfl, hbang, htext.2⟩

/-- The characters at the start of a text up to a blank or an exclamation mark
are a word. -/
theorem peel_word {trees : List Tree} {own rest : Text}
    (h : ∀ tree ∈ trees, Simple source tree) (hapart : Apart trees)
    (htext : textOf trees = own ++ rest) (hne : own ≠ [])
    (hown : ∀ c ∈ own, isSolid c = true)
    (hrest : ∀ c ∈ rest.head?, isSolid c = false) :
    ∃ word more, trees = .leaf word :: more ∧ word ∈ Css.words source ∧
      word.text = own ∧
      (Tree.leaf word).isGap = false ∧ textOf more = rest := by
  cases trees with
  | nil => exact absurd (List.append_eq_nil_iff.mp htext.symm).1 hne
  | cons tree others =>
    rw [List.forall_mem_cons] at h
    obtain ⟨c, text, htree, _, _, hsolid⟩ := h.1.head
    have hc : isSolid c = true := by
      obtain ⟨d, more, rfl⟩ := List.exists_cons_of_ne_nil hne
      rw [textOf_cons, htree, List.cons_append, List.cons_append,
        List.cons.injEq] at htext
      rw [htext.1]
      exact hown d List.mem_cons_self
    obtain ⟨word, rfl, hmem, hgap, hbang, hword⟩ := hsolid hc
    have hwordText : (Tree.leaf word).text = word.text := by simp [Tree.text]
    rw [textOf_cons, hwordText] at htext
    refine ⟨word, others, rfl, hmem, ?_⟩
    rcases List.append_eq_append_iff.mp htext with
      ⟨more, hmore, hothers⟩ | ⟨more, htext, hothers⟩
    · cases more with
      | nil => exact ⟨by rw [hmore, List.append_nil], hgap, hothers⟩
      | cons d more =>
        -- The word would go on in the next tree.
        cases others with
        | nil => cases hothers
        | cons next others =>
          rw [List.forall_mem_cons] at h
          obtain ⟨e, _, hnext, _, _, hsolid⟩ := h.2.1.head
          rw [textOf_cons, hnext, List.cons_append, List.cons_append,
            List.cons.injEq] at hothers
          have he : isSolid e = true := by
            rw [hothers.1]
            refine hown d ?_
            rw [hmore]
            exact List.mem_append_right _ List.mem_cons_self
          obtain ⟨_, _, _, hnextGap, hnextBang, _⟩ := hsolid he
          rcases hapart [] _ _ others rfl with h | h | h | h
          · rw [hgap] at h
            cases h
          · rw [hbang] at h
            cases h
          · rw [hnextGap] at h
            cases h
          · rw [hnextBang] at h
            cases h
    · cases more with
      | nil => exact ⟨by rw [htext, List.append_nil], hgap, hothers.symm⟩
      | cons d more =>
        have hd : isSolid d = true := by
          refine hword d ?_
          rw [htext]
          exact List.mem_append_right _ List.mem_cons_self
        rw [hrest d (by rw [hothers]; rfl)] at hd
        cases hd

/-! ## The trees that are no gaps -/

/-- Simple trees, no two words of which meet. -/
structure Legible (source : Text) (trees : List Tree) : Prop where
  simple : ∀ tree ∈ trees, Simple source tree
  apart : Apart trees

theorem Legible.right {a b : List Tree} (h : Legible source (a ++ b)) :
    Legible source b :=
  ⟨(List.forall_mem_append.mp h.simple).2, h.apart.right⟩

/-- The first tree that is no gap is found behind gaps. -/
theorem filter_gaps {gaps rest : List Tree} {tree : Tree}
    (hgaps : ∀ tree ∈ gaps, tree.isGap = true) (htree : tree.isGap = false) :
    (gaps ++ tree :: rest).filter (fun tree => !tree.isGap) =
      tree :: rest.filter fun tree => !tree.isGap := by
  rw [List.filter_append, List.filter_eq_nil_iff.mpr (by simpa using hgaps),
    List.nil_append,
    List.filter_cons_of_pos (by rw [htree]; rfl)]

/-- A word behind blanks is the first tree that is no gap. -/
theorem Legible.word {trees : List Tree} {blanks own rest : Text}
    (h : Legible source trees) (htext : textOf trees = blanks ++ (own ++ rest))
    (hblanks : Blanks blanks) (hne : own ≠ [])
    (hown : ∀ c ∈ own, isSolid c = true)
    (hrest : ∀ c ∈ rest.head?, isSolid c = false) :
    ∃ word more, trees.filter (fun tree => !tree.isGap) =
        .leaf word :: more.filter (fun tree => !tree.isGap) ∧
          word ∈ Css.words source ∧
      word.text = own ∧ textOf more = rest ∧ Legible source more := by
  have hhead : ∀ c ∈ (own ++ rest).head?, isBlank c = false := by
    obtain ⟨c, more, rfl⟩ := List.exists_cons_of_ne_nil hne
    rintro _ ⟨⟩
    exact isBlank_of_isSolid (hown c List.mem_cons_self)
  obtain ⟨gaps, others, rfl, hgaps, hothers⟩ :=
    peel_gaps h.simple htext hblanks hhead
  obtain ⟨word, more, rfl, hmem, hword, hgap, hmore⟩ :=
    peel_word h.right.simple h.right.apart hothers hne hown hrest
  exact ⟨word, more, filter_gaps hgaps hgap, hmem, hword, hmore,
    h.right.right (a := [_])⟩

/-- An exclamation mark behind blanks is the first tree that is no gap. -/
theorem Legible.bang {trees : List Tree} {blanks rest : Text}
    (h : Legible source trees) (htext : textOf trees = blanks ++ '!' :: rest)
    (hblanks : Blanks blanks) :
    ∃ bang more, trees.filter (fun tree => !tree.isGap) =
        bang :: more.filter (fun tree => !tree.isGap) ∧
          bang.isDelimiter '!' = true ∧
      textOf more = rest ∧ Legible source more := by
  have hhead : ∀ c ∈ ('!' :: rest).head?, isBlank c = false := by
    rintro _ ⟨⟩
    rfl
  obtain ⟨gaps, others, rfl, hgaps, hothers⟩ :=
    peel_gaps h.simple htext hblanks hhead
  obtain ⟨bang, more, rfl, hbang, hmore⟩ := peel_bang h.right.simple hothers
  exact ⟨bang, more, filter_gaps hgaps (isGap_of_isDelimiter hbang),
    hbang, hmore, h.right.right (a := [_])⟩

/-- Trees whose text is blank are gaps. -/
theorem Legible.gaps {trees : List Tree} (h : Legible source trees)
    (hblanks : Blanks (textOf trees)) :
    trees.filter (fun tree => !tree.isGap) = [] := by
  obtain ⟨gaps, more, rfl, hgaps, hmore⟩ :=
    peel_gaps h.simple (List.append_nil _).symm hblanks nofun
  have hnil : more = [] := by
    cases more with
    | nil => rfl
    | cons tree rest =>
      obtain ⟨c, own, hown, _⟩ := (h.right.simple tree List.mem_cons_self).head
      rw [textOf_cons, hown] at hmore
      cases hmore
  rw [hnil, List.append_nil]
  exact List.filter_eq_nil_iff.mpr (by simpa using hgaps)

end Tree

end OklchGate.Css
