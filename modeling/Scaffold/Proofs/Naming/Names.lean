import Scaffold.Go.Lexeme
import Scaffold.Naming.GoType
import Scaffold.Proofs.Text.Cutting
import Scaffold.Service.Signature

/-!
# Names

A *name* is a word that holds no white space, such as an identifier in any script. Capitalizing and
recasing make names out of names (`isName_recase`, `isName_functionName`), so that what is generated
from names is read as the words that were meant.
-/

namespace Scaffold.Naming

open Text Go

/-- A character of a name. -/
def isNameChar (c : Char) : Bool := isWordChar c && !isBlank c

/-- A word without white space. -/
structure IsName (s : Text) : Prop where
  ne_nil : s ≠ []
  chars : ∀ c ∈ s, isNameChar c

instance (s : Text) : Decidable (IsName s) :=
  decidable_of_iff (s ≠ [] ∧ ∀ c ∈ s, isNameChar c) ⟨fun h => ⟨h.1, h.2⟩, fun h => ⟨h.1, h.2⟩⟩

/-- Characters of names in front of a name give a name. -/
theorem IsName.append {s t : Text} (hs : ∀ c ∈ s, isNameChar c) (ht : IsName t) :
    IsName (s ++ t) := by
  refine ⟨by simp [ht.ne_nil], fun c hc => ?_⟩
  rcases List.mem_append.1 hc with hc | hc
  · exact hs c hc
  · exact ht.chars c hc

/-! ## Capital letters -/

theorem isNameChar_toUpper {c : Char} (h : isNameChar c) : isNameChar c.toUpper :=
  forall_letterCase (P := fun c => isNameChar c → isNameChar c.toUpper) (by decide)
    (fun c hupper _ _ h => by rwa [hupper]) c h

/-- Whether all code points from `low` to `high` stand for characters of names: one of them does, or
they lie outside ASCII and away from white space. -/
private def areNameChars (low high : Nat) : Bool :=
  low == high && isNameChar (Char.ofNat low) ||
    128 ≤ low && (high < 0xd800 || 0xdfff < low) && high < 0x110000 &&
      [(0, 160), (5760, 5760), (8192, 8287), (12288, 12288)].all fun (first, last) =>
        high < first || last < low

/-- What is checked of a row of the table holds of its characters. -/
private theorem isNameChar_of_areNameChars {low high n : Nat} (h : areNameChars low high)
    (hlow : low ≤ n) (hhigh : n ≤ high) : isNameChar (Char.ofNat n) := by
  simp only [areNameChars, Bool.or_eq_true, Bool.and_eq_true, beq_iff_eq, decide_eq_true_eq,
    List.all_cons, List.all_nil, and_true] at h
  -- a row of the table is one character, or it lies outside ASCII and has no white space
  rcases h with ⟨rfl, hname⟩ | ⟨⟨⟨hlarge, hscalar⟩, hmax⟩, hblanks⟩
  · rwa [show n = low by omega]
  · have hvalid : n.isValidChar := by
      unfold Nat.isValidChar
      omega
    have hnat : (Char.ofNat n).toNat = n := by
      rw [Char.ofNat, dif_pos hvalid]
      rfl
    have hascii : isAscii (Char.ofNat n) = false := by
      rw [isAscii, hnat]
      simp
      omega
    have hblank : isBlank (Char.ofNat n) = false := by
      simp only [isBlank, hnat]
      simp
      omega
    simp [isNameChar, isWordChar, hascii, hblank]

private theorem areNameChars_capital : LetterTable.capital.all
    (fun (first, last, _, image) => areNameChars image (last - first + image)) := by
  decide

private theorem areNameChars_longCapital : LetterTable.longCapital.all
    (fun (_, image) => image.all fun n => areNameChars n n) := by
  decide

/-- The capital of a character of a name is text of a name. -/
theorem isNameChar_capital {c : Char} (h : isNameChar c) : ∀ d ∈ capital c, isNameChar d := by
  unfold capital
  -- the branches of `capital`: ASCII, the images of several characters, the table, or no image
  split
  · simpa using isNameChar_toUpper h
  · split
    · next image hlookup =>
      obtain ⟨front, rest, hrows, -⟩ := List.lookup_eq_some_iff.1 hlookup
      have hmem : (c.toNat, image) ∈ LetterTable.longCapital := by simp [hrows]
      intro d hd
      obtain ⟨n, hn, rfl⟩ := List.mem_map.1 hd
      have hall := List.all_eq_true.1 (List.all_eq_true.1 areNameChars_longCapital _ hmem) n hn
      exact isNameChar_of_areNameChars hall (Nat.le_refl n) (Nat.le_refl n)
    · split
      · next first last step image hfind =>
        have hall := List.all_eq_true.1 areNameChars_capital _ (List.mem_of_find?_eq_some hfind)
        have hrow := List.find?_some hfind
        simp only [Bool.and_eq_true, decide_eq_true_eq] at hrow
        intro d hd
        obtain rfl := List.mem_singleton.1 hd
        exact isNameChar_of_areNameChars hall (by omega) (by omega)
      · simpa using h

/-! ## Words put together again -/

/-- A capitalized name is one. -/
theorem isName_capitalize {s : Text} (h : ∀ c ∈ s, isNameChar c) :
    ∀ c ∈ capitalize s, isNameChar c := by
  cases s with
  | nil => simp [capitalize]
  | cons c s =>
    intro d hd
    rcases List.mem_append.1 hd with hd | hd
    · exact isNameChar_capital (h c (by simp)) d hd
    · exact h d (by simp [hd])

/-- Recasing keeps the length of an identifier. -/
theorem length_recase (s : Text) : (recase s).length = s.length := by
  have hlen : (recase s).length = (words s).flatten.length := by
    simp only [recase]
    split
    · simp only [List.length_flatMap, List.length_flatten]
      congr 1
      exact List.map_congr_left fun word _ => by split <;> simp
    · rfl
  rw [hlen, flatten_words]

/-- A recased name is one. -/
theorem isName_recase {s : Text} (h : IsName s) : IsName (recase s) := by
  have hmem : ∀ word ∈ words s, ∀ c ∈ word, isNameChar c := by
    intro word hword c hc
    refine h.chars c ?_
    rw [← flatten_words s]
    exact List.mem_flatten.2 ⟨word, hword, hc⟩
  refine ⟨?_, ?_⟩
  · have hlen := length_recase s
    have hpos := List.length_pos_iff.2 h.ne_nil
    exact List.length_pos_iff.1 (by omega)
  · simp only [recase]
    split
    · intro c hc
      obtain ⟨word, hword, hc⟩ := List.mem_flatMap.1 hc
      split at hc
      · obtain ⟨d, hd, rfl⟩ := List.mem_map.1 hc
        exact isNameChar_toUpper (hmem word hword d hd)
      · exact hmem word hword c hc
    · rw [flatten_words]
      exact h.chars

/-- The function of an action is called by a name. -/
theorem isName_functionName {a : Action} (h : IsName a.name) : IsName (Service.functionName a) := by
  have hkind : IsName (capitalize a.kind.name) := by
    cases a.kind <;> decide
  exact hkind.append (isName_capitalize h.chars)

end Scaffold.Naming
