import Scaffold.Proofs.Text.Cutting

/-!
# Bytes of texts

The encoding writes a character of ASCII in one byte below 128, and any other character in a first byte from
192 on and further bytes from 128 on. So a byte of ASCII stands for its character only
(`ne_toUInt8_of_mem`), what a text begins with is told by its bytes (`isPrefixOf_bytesOf`), and where a
character of ASCII comes first is found among the bytes (`findIdx?_bytesOf`).
-/

namespace Scaffold.Text

@[simp] theorem bytesOf_nil : bytesOf [] = [] := rfl

theorem bytesOf_cons (c : Char) (s : Text) : bytesOf (c :: s) = String.utf8EncodeChar c ++ bytesOf s := rfl

@[simp] theorem bytesOf_append (s t : Text) : bytesOf (s ++ t) = bytesOf s ++ bytesOf t :=
  List.flatMap_append

@[simp] theorem length_bytesOf (s : Text) : (bytesOf s).length = byteSize s := rfl

@[simp] theorem byteSize_nil : byteSize [] = 0 := rfl

@[simp] theorem byteSize_append (s t : Text) : byteSize (s ++ t) = byteSize s + byteSize t := by
  rw [← length_bytesOf, bytesOf_append, List.length_append]
  rfl

theorem byteSize_singleton (c : Char) : byteSize [c] = (String.utf8EncodeChar c).length := by
  rw [← length_bytesOf, bytesOf_cons, bytesOf_nil, List.append_nil]

/-- Every character takes at least one byte. -/
theorem byteSize_singleton_pos (c : Char) : 0 < byteSize [c] := by
  rw [byteSize_singleton]
  exact List.length_pos_iff.2 String.utf8EncodeChar_ne_nil

/-- A text is as long as its first character and the rest. -/
theorem byteSize_cons (c : Char) (s : Text) : byteSize (c :: s) = byteSize [c] + byteSize s :=
  byteSize_append [c] s

/-! ## The bytes of a character -/

/-- A character of ASCII is its only byte. -/
theorem utf8EncodeChar_of_ascii {c : Char} (h : isAscii c) : String.utf8EncodeChar c = [c.toUInt8] :=
  forall_ascii (P := fun c => String.utf8EncodeChar c = [c.toUInt8]) (by decide) h

/-- The bytes of a text begin with that of a first character of ASCII. -/
theorem bytesOf_cons_of_ascii {c : Char} (h : isAscii c) (s : Text) :
    bytesOf (c :: s) = c.toUInt8 :: bytesOf s := by
  rw [bytesOf_cons, utf8EncodeChar_of_ascii h]
  rfl

private theorem le_ofNat (m : Nat) {n : Nat} (h : m ≤ n) (hn : n < 256) : UInt8.ofNat m ≤ UInt8.ofNat n := by
  rw [UInt8.le_iff_toNat_le, UInt8.toNat_ofNat', UInt8.toNat_ofNat']
  omega

/-- Beyond ASCII, a character begins with a byte that tells it from the bytes behind it. -/
theorem exists_utf8EncodeChar_of_not_ascii {c : Char} (h : isAscii c = false) :
    ∃ b run, String.utf8EncodeChar c = b :: run ∧ 192 ≤ b ∧ ∀ d ∈ run, 128 ≤ d := by
  have hlarge : ¬c.val.toNat ≤ 127 := by
    have := decide_eq_false_iff_not.1 h
    unfold Char.toNat at this
    omega
  rw [String.utf8EncodeChar.eq_1, if_neg hlarge]
  -- two, three or four bytes
  split_ifs
  all_goals
    refine ⟨_, _, rfl, le_ofNat 192 (by omega) (by omega), ?_⟩
    simp only [List.mem_cons, List.not_mem_nil, or_false]
    rintro d (rfl | rfl | rfl) <;> exact le_ofNat 128 (by omega) (by omega)

theorem toNat_toUInt8 {c : Char} (h : isAscii c) : c.toUInt8.toNat = c.toNat :=
  forall_ascii (P := fun c => c.toUInt8.toNat = c.toNat) (by decide) h

/-- The bytes of ASCII lie below 128. -/
theorem toUInt8_lt {c : Char} (h : isAscii c) : c.toUInt8 < 128 := by
  rw [UInt8.lt_iff_toNat_lt, toNat_toUInt8 h]
  exact decide_eq_true_iff.1 h

/-- A byte from 128 on is none of ASCII. -/
theorem ne_toUInt8_of_le {d : Char} (hd : isAscii d) {b : UInt8} (h : 128 ≤ b) : b ≠ d.toUInt8 := by
  rintro rfl
  exact UInt8.not_lt.2 h (toUInt8_lt hd)

/-- The first byte of a character, and the bytes behind it. -/
theorem exists_utf8EncodeChar (c : Char) : ∃ b run, String.utf8EncodeChar c = b :: run ∧
    (b < 128 ∨ 192 ≤ b) ∧ ∀ d ∈ run, 128 ≤ d := by
  cases hc : isAscii c with
  | true => exact ⟨c.toUInt8, [], utf8EncodeChar_of_ascii hc, .inl (toUInt8_lt hc), by simp⟩
  | false =>
    obtain ⟨b, run, hencode, hb, hrun⟩ := exists_utf8EncodeChar_of_not_ascii hc
    exact ⟨b, run, hencode, .inr hb, hrun⟩

/-- A byte of ASCII stands for its character only. -/
theorem ne_toUInt8_of_mem {c d : Char} (hd : isAscii d) (hne : c ≠ d) {b : UInt8}
    (hb : b ∈ String.utf8EncodeChar c) : b ≠ d.toUInt8 := by
  -- a character of ASCII has one byte, which is its code; all bytes of another one are too large
  cases hc : isAscii c with
  | true =>
    rw [utf8EncodeChar_of_ascii hc, List.mem_singleton] at hb
    rintro rfl
    apply hne
    rw [← Char.ofNat_toNat c, ← toNat_toUInt8 hc, ← hb, toNat_toUInt8 hd, Char.ofNat_toNat]
  | false =>
    obtain ⟨first, run, hencode, hfirst, hrun⟩ := exists_utf8EncodeChar_of_not_ascii hc
    rw [hencode] at hb
    refine ne_toUInt8_of_le hd ?_
    cases hb with
    | head => exact UInt8.le_trans (by decide) hfirst
    | tail _ htail => exact hrun b htail

/-! ## Finding characters of ASCII -/

/-- What a text begins with is told by its bytes. -/
theorem isPrefixOf_bytesOf {p : Text} (hp : ∀ c ∈ p, isAscii c) (s : Text) :
    (bytesOf p).isPrefixOf (bytesOf s) = (after? p s).isSome := by
  induction p generalizing s with
  | nil => simp [after?]
  | cons c p ih =>
    obtain ⟨hc, hrest⟩ := List.forall_mem_cons.1 hp
    rw [bytesOf_cons_of_ascii hc]
    cases s with
    | nil => rfl
    | cons d s =>
      -- the first byte of `d` is that of `c` only if the characters are equal
      by_cases hcd : c = d
      · subst hcd
        rw [bytesOf_cons_of_ascii hc, List.isPrefixOf_cons_cons, beq_self_eq_true, Bool.true_and, ih hrest]
        simp [after?]
      · obtain ⟨b, run, hencode, -⟩ := exists_utf8EncodeChar d
        have hb : b ≠ c.toUInt8 := ne_toUInt8_of_mem hc (Ne.symm hcd) (hencode ▸ List.mem_cons_self)
        rw [bytesOf_cons, hencode, List.cons_append, List.isPrefixOf_cons_cons]
        simp [after?, hcd, hb.symm]

/-- Where a character of ASCII comes first, or where the text ends. -/
theorem findIdx?_bytesOf {d : Char} (hd : isAscii d) (s : Text) :
    ((bytesOf s).findIdx? (· == d.toUInt8)).getD (byteSize s) = byteSize (s.takeWhile (· ≠ d)) := by
  induction s with
  | nil => rfl
  | cons c s ih =>
    by_cases hc : c = d
    · subst hc
      rw [bytesOf_cons_of_ascii hd, List.findIdx?_cons, beq_self_eq_true]
      simp
    · have hnone : (String.utf8EncodeChar c).findIdx? (· == d.toUInt8) = none := by
        rw [List.findIdx?_eq_none_iff]
        intro b hb
        exact beq_eq_false_iff_ne.2 (ne_toUInt8_of_mem hd hc hb)
      have htake : (c :: s).takeWhile (· ≠ d) = c :: s.takeWhile (· ≠ d) :=
        List.takeWhile_cons_of_pos (by simpa using hc)
      rw [bytesOf_cons, List.findIdx?_append, hnone, Option.none_or, htake, byteSize_cons c s,
        byteSize_cons c (s.takeWhile _), ← ih, byteSize_singleton]
      cases (bytesOf s).findIdx? (· == d.toUInt8) with
      | none => rfl
      | some p => exact Nat.add_comm p _

end Scaffold.Text
