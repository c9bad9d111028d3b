import OklchGate.Proofs.Pieces
import OklchGate.Text.Utf8

/-!
# Bytes that are read as a text

Reading bytes loses nothing: a text that was read is written back as the same
bytes.

* `Announces`, what a first byte can announce, and `readContinuations_eq_ok`,
  the bytes that are read after it.
* `encodeChar_of_readChar`: one character.
* `encode_of_decode`: a whole text, by the pieces that are read; and
  `sublist_encode`.
-/

namespace OklchGate.Utf8

/-! ## First bytes and continuation bytes -/

/-- A first byte with this number announces these bits and bounds.  The bounds
of the second byte keep out overlong forms, surrogates and numbers that are too
large. -/
inductive Announces (n : Nat) : Nat → List (Nat × Nat) → Prop where
  | one : n < 0x80 → Announces n n []
  | two : 0xC2 ≤ n → n < 0xE0 → Announces n (n - 0xC0) [(0x80, 0xBF)]
  | three {least greatest : Nat} : 0xE0 ≤ n → n < 0xF0 → 0x80 ≤ least →
    greatest ≤ 0xBF → (n = 0xE0 → 0xA0 ≤ least) → (n = 0xED → greatest ≤ 0x9F) →
      Announces n (n - 0xE0) [(least, greatest), (0x80, 0xBF)]
  | four {least greatest : Nat} : 0xF0 ≤ n → n ≤ 0xF4 → 0x80 ≤ least →
    greatest ≤ 0xBF → (n = 0xF0 → 0x90 ≤ least) → (n = 0xF4 → greatest ≤ 0x8F) →
      Announces n (n - 0xF0) [(least, greatest), (0x80, 0xBF), (0x80, 0xBF)]

theorem announces_of_announced? {first : UInt8} {bits : Nat}
    {bounds : List (Nat × Nat)} (h : announced? first = some (bits, bounds)) :
    Announces first.toNat bits bounds := by
  unfold announced? at h
  dsimp only at h
  generalize first.toNat = n at h ⊢
  have hcases : ∀ found : Nat × List (Nat × Nat),
    some found = some (bits, bounds) →
      Announces n found.1 found.2 → Announces n bits bounds := by
    intro found hfound hann
    rwa [Option.some.inj hfound] at hann
  split at h
  · next hn => exact hcases _ h (.one hn)
  split at h
  · cases h
  split at h
  · next _ hlow hn => exact hcases _ h (.two (by omega) hn)
  split at h
  · next hn =>
    subst hn
    exact hcases _ h
      (@Announces.three 0xE0 0xA0 0xBF (by omega) (by omega) (by omega)
      (by omega) (by omega) (by omega))
  split at h
  · next hn =>
    subst hn
    exact hcases _ h
      (@Announces.three 0xED 0x80 0x9F (by omega) (by omega) (by omega)
      (by omega) (by omega) (by omega))
  split at h
  · next hlow _ _ hn =>
    exact hcases _ h
      (.three (by omega) hn (by omega) (by omega) (by omega) (by omega))
  split at h
  · next hn =>
    subst hn
    exact hcases _ h
      (@Announces.four 0xF0 0x90 0xBF (by omega) (by omega) (by omega)
      (by omega) (by omega) (by omega))
  split at h
  · next hlow _ hn =>
    exact hcases _ h
      (.four (by omega) (by omega) (by omega) (by omega) (by omega) (by omega))
  split at h
  · next hn =>
    subst hn
    exact hcases _ h
      (@Announces.four 0xF4 0x80 0x8F (by omega) (by omega) (by omega)
      (by omega) (by omega) (by omega))
  · cases h

/-- The bytes lie between the bounds for them. -/
inductive Within : List (Nat × Nat) → Bytes → Prop where
  | nil : Within [] []
  | cons {least greatest : Nat} {byte : UInt8} {bounds : List (Nat × Nat)}
    {bytes : Bytes} :
      least ≤ byte.toNat → byte.toNat ≤ greatest → Within bounds bytes →
      Within ((least, greatest) :: bounds) (byte :: bytes)

/-- The number that some bits and the lowest six bits of some bytes make up. -/
def valueOf (bits : Nat) (bytes : Bytes) : Nat :=
  bytes.foldl (fun value byte => 64 * value + byte.toNat % 64) bits

/-- Continuation bytes that are read lie within their bounds and make up the
value. -/
theorem readContinuations_eq_ok {bits value : Nat} {bounds : List (Nat × Nat)}
    {rest : Bytes} (h : readContinuations bits bounds rest = .ok value) :
    ∃ bytes after, rest = bytes ++ after ∧ bytes.length = bounds.length ∧
      Within bounds bytes ∧ value = valueOf bits bytes := by
  induction bounds generalizing bits value rest with
  | nil =>
    rw [readContinuations] at h
    exact ⟨[], rest, rfl, rfl, .nil, (Except.ok.inj h).symm⟩
  | cons bound bounds ih =>
    obtain ⟨least, greatest⟩ := bound
    cases rest with
    | nil => cases h
    | cons byte rest =>
      rw [readContinuations] at h
      split at h
      · next hbound =>
        cases hread : readContinuations (64 * bits + byte.toNat % 64) bounds
          rest with
        | error fault =>
          rw [hread] at h
          cases h
        | ok found =>
          rw [hread] at h
          obtain ⟨bytes, after, hrest, hlength, hwithin, hfound⟩ := ih hread
          refine ⟨byte :: bytes, after, by rw [hrest, List.cons_append],
            congrArg (· + 1) hlength, .cons hbound.1 hbound.2 hwithin, ?_⟩
          rw [← Except.ok.inj h, hfound]
          rfl
      · cases h

/-! ## One character -/

theorem toNat_ofNat_of_valid {n : Nat} (h : n.isValidChar) :
    (Char.ofNat n).toNat = n := by
  rw [Char.ofNat, dif_pos h]
  rfl

theorem uint8_eq {byte : UInt8} {n : Nat} (h : n = byte.toNat) :
    UInt8.ofNat n = byte := by
  rw [h, UInt8.ofNat_toNat]

/-- A continuation byte is known by its lowest six bits. -/
theorem continuation_eq {byte : UInt8} {n : Nat} (hlow : 0x80 ≤ byte.toNat)
    (hhigh : byte.toNat ≤ 0xBF) (h : n % 64 = byte.toNat % 64) :
    continuation n = byte := by
  refine uint8_eq ?_
  omega

/-- The character of a first byte and the bytes that it announces is written as
these bytes. -/
theorem encodeChar_valueOf {first : UInt8} {bits : Nat}
    {bounds : List (Nat × Nat)} (h : Announces first.toNat bits bounds)
    {bytes : Bytes} (hwithin : Within bounds bytes) :
    encodeChar (Char.ofNat (valueOf bits bytes)) = first :: bytes := by
  cases h with
  | one hlt =>
    cases hwithin
    have hvalue : valueOf first.toNat [] = first.toNat := rfl
    have hvalid : first.toNat.isValidChar := Or.inl (by omega)
    rw [hvalue, encodeChar, toNat_ofNat_of_valid hvalid, if_pos hlt,
      uint8_eq rfl]
  | two hlow hhigh =>
    obtain _ | ⟨hb, hb', _ | _⟩ := hwithin
    next b =>
    obtain ⟨value, hvalue⟩ : ∃ value, value = 64 * (first.toNat - 0xC0) +
        b.toNat % 64 :=
      ⟨_, rfl⟩
    have hvalid : value.isValidChar := Or.inl (by omega)
    have hwhole : valueOf (first.toNat - 0xC0) [b] = value := hvalue.symm
    have hlead : UInt8.ofNat (0xC0 + value / 64) = first := uint8_eq (by omega)
    rw [hwhole, encodeChar, toNat_ofNat_of_valid hvalid, if_neg (by omega),
      if_pos (by omega),
      hlead, continuation_eq hb hb' (by omega)]
  | three hlow hhigh hleast hgreatest hfirst hlast =>
    obtain _ | ⟨hb, hb', _ | ⟨hc, hc', _ | _⟩⟩ := hwithin
    next b c =>
    obtain ⟨value, hvalue⟩ : ∃ value,
        value = 64 * (64 * (first.toNat - 0xE0) + b.toNat % 64) + c.toNat %
          64 := ⟨_, rfl⟩
    have hleast : 0x800 ≤ value := by
      by_cases hfirstByte : first.toNat = 0xE0 <;> omega
    have hvalid : value.isValidChar := by
      by_cases hlead : first.toNat ≤ 0xED
      · refine Or.inl ?_
        by_cases hlastByte : first.toNat = 0xED <;> omega
      · exact Or.inr ⟨by omega, by omega⟩
    have hwhole : valueOf (first.toNat - 0xE0) [b, c] = value := hvalue.symm
    have hlead : UInt8.ofNat (0xE0 + value / 4096) = first :=
      uint8_eq (by omega)
    have hsecond : continuation (value / 64) = b :=
      continuation_eq (by omega) (by omega) (by omega)
    rw [hwhole, encodeChar, toNat_ofNat_of_valid hvalid, if_neg (by omega),
      if_neg (by omega),
      if_pos (by omega), hlead, hsecond, continuation_eq hc hc' (by omega)]
  | four hlow hhigh hleast hgreatest hfirst hlast =>
    obtain _ | ⟨hb, hb', _ | ⟨hc, hc', _ | ⟨hd, hd', _ | _⟩⟩⟩ := hwithin
    next b c d =>
    obtain ⟨value, hvalue⟩ :
      ∃ value, value = 64 * (64 * (64 * (first.toNat - 0xF0) +
        b.toNat % 64) + c.toNat % 64) + d.toNat % 64 := ⟨_, rfl⟩
    have hleast : 0x10000 ≤ value := by
      by_cases hfirstByte : first.toNat = 0xF0 <;> omega
    have hvalid : value.isValidChar := by
      refine Or.inr ⟨by omega, ?_⟩
      by_cases hlastByte : first.toNat = 0xF4 <;> omega
    have hwhole : valueOf (first.toNat - 0xF0) [b, c, d] = value := hvalue.symm
    have hlead : UInt8.ofNat (0xF0 + value / 262144) = first :=
      uint8_eq (by omega)
    have hsecond : continuation (value / 4096) = b :=
      continuation_eq (by omega) (by omega) (by omega)
    have hthird : continuation (value / 64) = c :=
      continuation_eq hc hc' (by omega)
    rw [hwhole, encodeChar, toNat_ofNat_of_valid hvalid, if_neg (by omega),
      if_neg (by omega),
      if_neg (by omega), hlead, hsecond, hthird,
        continuation_eq hd hd' (by omega)]

/-- A character that is read is written as the bytes that were read. -/
theorem encodeChar_of_readChar {first : UInt8} {rest : Bytes} {c : Char}
    {count : Nat} (h : readChar first rest = .ok (c, count)) :
    count ≤ rest.length ∧ encodeChar c = first :: rest.take count := by
  unfold readChar at h
  split at h
  · cases h
  · next bits bounds hannounced =>
    split at h
    · next value hread =>
      obtain ⟨bytes, after, rfl, hlength, hwithin, rfl⟩ :=
        readContinuations_eq_ok hread
      cases h
      rw [← hlength, List.take_left, List.length_append]
      exact ⟨Nat.le_add_right _ _,
        encodeChar_valueOf (announces_of_announced? hannounced) hwithin⟩
    · cases h

/-! ## Texts -/

/-- What is read until a fault or the end, and where that is. -/
theorem encode_run (data : Bytes) :
    encode (Pieces.run (fun first rest => (readChar first rest).toOption)
      data).1 =
        data.take (Pieces.run (fun first rest => (readChar first rest).toOption)
          data).2 ∧
      ∀ first rest,
        data.drop (Pieces.run (fun first rest => (readChar first rest).toOption)
          data).2 = first :: rest → (readChar first rest).toOption = none := by
  cases data with
  | nil => exact ⟨rfl, nofun⟩
  | cons first rest =>
    rw [Pieces.run_cons, Pieces.run_snd_cons]
    cases hread : (readChar first rest).toOption with
    | none =>
      refine ⟨rfl, fun other more hdrop => ?_⟩
      obtain ⟨rfl, rfl⟩ := List.cons.inj hdrop
      exact hread
    | some answer =>
      obtain ⟨c, count⟩ := answer
      have hok : readChar first rest = .ok (c, count) := by
        cases hanswer : readChar first rest with
        | error fault =>
          rw [hanswer] at hread
          cases hread
        | ok found =>
          rw [hanswer] at hread
          exact congrArg Except.ok (Option.some.inj hread)
      obtain ⟨hle, hchar⟩ := encodeChar_of_readChar hok
      obtain ⟨htext, hstop⟩ := encode_run (rest.drop count)
      dsimp only
      rw [Nat.min_eq_left hle, Nat.add_assoc, Nat.add_comm 1,
        List.take_succ_cons, List.drop_succ_cons, List.take_add, ← htext,
        ← List.drop_drop]
      refine ⟨?_, hstop⟩
      show encodeChar c ++ encode _ = _
      rw [hchar, List.cons_append]
termination_by data.length
decreasing_by simp only [List.length_drop, List.length_cons]; omega

/-- Bytes that are read as a text are the bytes of that text. -/
theorem encode_of_decode {data : Bytes} {text : Text}
    (h : decode data = .ok text) :
    encode text = data := by
  obtain ⟨htext, hstop⟩ := encode_run data
  unfold decode at h
  dsimp only at h
  split at h
  · next hnil =>
    rw [List.drop_eq_nil_iff] at hnil
    rw [← Except.ok.inj h, htext, List.take_of_length_le hnil]
  · next first rest hrest =>
    have hnone := hstop first rest hrest
    split at h
    · next answer hanswer =>
      rw [hanswer] at hnone
      cases hnone
    · cases h

/-- A text keeps the order of its bytes when characters are put in. -/
theorem sublist_encode {a b : Text} (h : a.Sublist b) :
    (encode a).Sublist (encode b) := by
  induction h with
  | slnil => exact List.Sublist.refl []
  | cons c _ ih => exact ih.trans (List.sublist_append_right (encodeChar c) _)
  | cons_cons c _ ih => exact (List.Sublist.refl (encodeChar c)).append ih

end OklchGate.Utf8
