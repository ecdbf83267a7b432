import Scaffold.Text.Letter
import Mathlib.Data.List.Basic
import Mathlib.Data.List.Infix
import Mathlib.Data.List.TakeWhile

/-!
# Cutting and trimming texts

What the operations on texts find, in the words of prefixes and infixes (`after?_isSome`,
`occursIn_iff`), and how trimming acts on a text that is put together from two.
-/

namespace Scaffold.Text

/-- What holds of all characters of a text is decided on the text, and not by going through all that
there are. -/
instance decidableForallMem (p : Char → Prop) [DecidablePred p] (s : Text) :
    Decidable (∀ c ∈ s, p c) := List.decidableBAll p s

/-- The same for a character that may be missing. -/
instance decidableForallMemOption (p : Char → Prop) [DecidablePred p] (o : Option Char) :
    Decidable (∀ c ∈ o, p c) := Option.decidableForallMem o

/-- What holds of the 128 characters of ASCII is decided by going through them. -/
theorem forall_ascii {P : Char → Prop} (h : ∀ n, n < 128 → P (Char.ofNat n)) {c : Char}
    (hc : isAscii c) : P c := by
  have hP := h c.toNat (by simpa [isAscii] using hc)
  rwa [Char.ofNat_toNat] at hP

/-- Beyond ASCII no character is a letter in the sense of letter case: what holds of the characters of
ASCII, and of those that are their own capital and small form, holds of all. -/
theorem forall_letterCase {P : Char → Prop} (hascii : ∀ n, n < 128 → P (Char.ofNat n))
    (hother : ∀ c : Char, c.toUpper = c → c.toLower = c → c.isAlpha = false → P c) (c : Char) :
    P c := by
  by_cases hc : isAscii c
  · exact forall_ascii hascii hc
  · have hlarge (d : Char) (hd : d.toNat < 128) : ¬c.val ≤ d.val := by
      have hcn : 128 ≤ c.toNat := by simpa [isAscii] using hc
      rw [UInt32.le_iff_toNat_le]
      exact Nat.not_le.2 (Nat.lt_of_lt_of_le hd hcn)
    have hz := hlarge 'z' (by decide)
    have hZ := hlarge 'Z' (by decide)
    have hupper : c.isUpper = false := decide_eq_false fun h => hZ h.2
    have hlower : c.isLower = false := Bool.and_eq_false_imp.2 fun _ => decide_eq_false hz
    exact hother c (dif_neg fun h => hz h.2) (dif_neg fun h => hZ h.2)
      (Bool.or_eq_false_iff.2 ⟨hupper, hlower⟩)

/-- The small form of a letter is a letter. -/
theorem isAlpha_toLower (c : Char) : c.toLower.isAlpha = c.isAlpha :=
  forall_letterCase (P := fun c => c.toLower.isAlpha = c.isAlpha) (by decide)
    (fun c _ hlower _ => by rw [hlower]) c

/-- No white space belongs to words. -/
theorem isWord_of_isBlank {c : Char} (h : isBlank c) : isWord c = false := by
  -- the blanks are few enough to look each of them up among the characters of words
  have hblanks : ∀ n ∈ List.range' 9 5 ++ [32, 133, 160, 5760] ++ List.range' 8192 11 ++
      [8232, 8233, 8239, 8287, 12288], isWord (Char.ofNat n) = false := by decide +kernel
  rw [← Char.ofNat_toNat c]
  refine hblanks c.toNat ?_
  simp only [isBlank, Bool.or_eq_true, Bool.and_eq_true, decide_eq_true_eq, beq_iff_eq] at h
  simp only [List.mem_append, List.mem_range'_1, List.mem_cons, List.not_mem_nil, or_false]
  omega

theorem not_isBlank_of_isWord {c : Char} (h : isWord c) : isBlank c = false := by
  by_contra hblank
  rw [Bool.not_eq_false] at hblank
  rw [isWord_of_isBlank hblank] at h
  cases h

/-! ## Cuts and what follows them -/

/-- Behind a text that it begins with, the rest of a text is what was appended. -/
theorem after?_append (p s : Text) : after? p (p ++ s) = some s := by
  induction p with
  | nil => cases s <;> rfl
  | cons c p ih => simpa [after?] using ih

/-- Whether a long enough text begins with `p` does not depend on what follows it. -/
theorem after?_eq_none_congr {p s : Text} (hlen : p.length ≤ s.length) (r r' : Text)
    (h : after? p (s ++ r) = none) : after? p (s ++ r') = none := by
  induction p generalizing s with
  | nil => simp [after?] at h
  | cons c p ih =>
    cases s with
    | nil => simp at hlen
    | cons d s =>
      simp only [List.cons_append, after?] at h ⊢
      split at h
      · next hcd => rw [if_pos hcd]; exact ih (by simpa using hlen) h
      · next hcd => rw [if_neg hcd]

/-- What follows a beginning is an end of the text. -/
theorem suffix_of_after? {t s rest : Text} (h : after? t s = some rest) : rest <:+ s :=
  after?_eq_some h ▸ List.suffix_append t rest

/-- A text that begins with `p` is cut at once. -/
theorem cutAt?_cons_of_some {p s rest : Text} {c : Char} (h : after? p (c :: s) = some rest) :
    cutAt? p (c :: s) = some ([], rest) := by
  simp [cutAt?, h]

/-- A text that does not begin with `p` is cut behind its first character. -/
theorem cutAt?_cons_of_none {p s : Text} {c : Char} (h : after? p (c :: s) = none) :
    cutAt? p (c :: s) = (cutAt? p s).map fun (front, rest) => (c :: front, rest) := by
  simp [cutAt?, h]

/-- The first occurrence of `p` stays the first if the text behind it changes. -/
theorem cutAt?_congr {p front rest : Text} (h : cutAt? p (front ++ p ++ rest) = some (front, rest))
    (rest' : Text) : cutAt? p (front ++ p ++ rest') = some (front, rest') := by
  -- the pattern does not begin earlier, as that would have to show in `front ++ p` already
  induction front with
  | nil =>
    have hafter : after? p (p ++ rest') = some rest' := after?_append p rest'
    simp only [List.nil_append]
    cases hp : p ++ rest' with
    | nil =>
      obtain ⟨rfl, rfl⟩ := List.append_eq_nil_iff.1 hp
      rfl
    | cons c s => rw [hp] at hafter; exact cutAt?_cons_of_some hafter
  | cons c front ih =>
    simp only [List.cons_append] at h ⊢
    cases hafter : after? p (c :: (front ++ p ++ rest)) with
    | some r =>
      rw [cutAt?_cons_of_some hafter] at h
      simp at h
    | none =>
      have hlen : p.length ≤ (c :: (front ++ p)).length := by simp; omega
      have hafter' : after? p (c :: (front ++ p ++ rest')) = none :=
        after?_eq_none_congr hlen rest rest' hafter
      rw [cutAt?_cons_of_none hafter] at h
      rw [cutAt?_cons_of_none hafter', ih ?_]
      · rfl
      · obtain ⟨⟨front', rest''⟩, hcut, heq⟩ := Option.map_eq_some_iff.1 h
        obtain ⟨rfl, rfl⟩ : front' = front ∧ rest'' = rest := by simpa using heq
        exact hcut

/-- Whether a mark is found does not depend on what follows a text, unless nothing stands before that. -/
theorem after?_singleton_append {mark : Char} {s y : Text}
    (h : s = [] → y.head? ≠ some mark) :
    after? [mark] (s ++ y) = (after? [mark] s).map (· ++ y) := by
  cases s with
  | nil =>
    cases y with
    | nil => rfl
    | cons d y =>
      have hd : mark ≠ d := fun heq => h rfl (congrArg some heq.symm)
      simp [after?, hd]
  | cons c s => by_cases hc : mark = c <;> simp [after?, hc]

/-- A text is cut at its first mark `c :: p` if there is no `c` before it. -/
theorem cutAt?_append_of_notMem {c : Char} {front : Text} (h : c ∉ front) (p rest : Text) :
    cutAt? (c :: p) (front ++ c :: p ++ rest) = some (front, rest) := by
  induction front with
  | nil => exact cutAt?_cons_of_some (after?_append (c :: p) rest)
  | cons d front ih =>
    obtain ⟨hd, hfront⟩ := not_or.1 (mt List.mem_cons.2 h)
    have hafter : after? (c :: p) (d :: (front ++ c :: p ++ rest)) = none := if_neg hd
    simp only [List.cons_append]
    rw [cutAt?_cons_of_none hafter, ih hfront, Option.map_some]

/-- The word in front of a text goes as far as there are characters of words. -/
theorem word?_append {w s : Text} (hne : w ≠ []) (hw : ∀ c ∈ w, isWord c)
    (hs : ∀ c ∈ s.head?, isWord c = false) : word? (w ++ s) = some (w, s) := by
  have htake : s.takeWhile isWord = [] := by
    cases s with
    | nil => rfl
    | cons c s => simp [hs c rfl]
  have hdrop : s.dropWhile isWord = s := by
    cases s with
    | nil => rfl
    | cons c s => simp [hs c rfl]
  unfold word?
  rw [List.takeWhile_append_of_pos hw, List.dropWhile_append_of_pos hw, htake, hdrop,
    List.append_nil]
  cases w with
  | nil => exact absurd rfl hne
  | cons => rfl

/-- The last character of a text that begins with `c`, or the one before it. -/
theorem getLast?_cons_or (c : Char) (s : Text) (before : Option Char) :
    (c :: s).getLast?.or before = s.getLast?.or (some c) := by
  rw [List.getLast?_cons]
  cases s.getLast? <;> rfl

/-! ## Up to a mark -/

/-- A text without the mark at the end of a stretch begins within the stretch or not at all. -/
theorem after?_append_cons {c : Char} {p : Text} (hp : c ∉ p) (s t : Text) :
    after? p (s ++ c :: t) = (after? p s).map (· ++ c :: t) := by
  induction p generalizing s with
  | nil => cases s <;> rfl
  | cons a p ih =>
    obtain ⟨ha, hrest⟩ := not_or.1 (mt List.mem_cons.2 hp)
    cases s with
    | nil => simp [after?, Ne.symm ha]
    | cons d s =>
      by_cases had : a = d
      · simp only [List.cons_append, after?, if_pos had, ih hrest]
      · simp only [List.cons_append, after?, if_neg had, Option.map_none]

/-- A text does not begin with `p` if its first character is not in `p`. -/
theorem after?_cons_eq_none {c : Char} {p : Text} (hne : p ≠ []) (hp : c ∉ p) (s : Text) :
    after? p (c :: s) = none := by
  cases p with
  | nil => exact absurd rfl hne
  | cons a p =>
    have ha : a ≠ c := fun heq => hp (heq ▸ List.mem_cons_self)
    exact if_neg ha

/-- What follows the first occurrence of a text, if a mark that is not in it is passed over. -/
theorem map_snd_cutAt?_append_cons {c : Char} {p : Text} (hne : p ≠ []) (hp : c ∉ p) (s t : Text) :
    (cutAt? p (s ++ c :: t)).map Prod.snd =
      ((cutAt? p s).map fun cut => cut.2 ++ c :: t).or ((cutAt? p t).map Prod.snd) := by
  -- the pattern lies in front of `c` or behind it, since it does not have this character
  induction s with
  | nil =>
    have hnil : cutAt? p [] = none := by
      cases p with
      | nil => exact absurd rfl hne
      | cons => rfl
    rw [List.nil_append, cutAt?_cons_of_none (after?_cons_eq_none hne hp t), hnil, Option.map_map]
    rfl
  | cons d s ih =>
    have hafter := after?_append_cons hp (d :: s) t
    rw [List.cons_append] at hafter ⊢
    cases hfound : after? p (d :: s) with
    | some rest =>
      rw [hfound, Option.map_some] at hafter
      rw [cutAt?_cons_of_some hafter, cutAt?_cons_of_some hfound]
      rfl
    | none =>
      rw [hfound, Option.map_none] at hafter
      rw [cutAt?_cons_of_none hafter, cutAt?_cons_of_none hfound, Option.map_map, Option.map_map]
      exact ih

/-- What occurs in neither of two stretches, does not occur across a mark between them. -/
theorem cutAt?_append_cons_eq_none {c : Char} {p : Text} (hp : c ∉ p) {s t : Text}
    (hs : cutAt? p s = none) (ht : cutAt? p (c :: t) = none) : cutAt? p (s ++ c :: t) = none := by
  -- an occurrence would begin in `s`, and there it cannot reach the mark
  induction s with
  | nil => exact ht
  | cons d s ih =>
    have hafter : after? p (d :: s) = none := by
      by_contra hsome
      obtain ⟨rest, hrest⟩ := Option.ne_none_iff_exists'.1 hsome
      rw [cutAt?_cons_of_some hrest] at hs
      cases hs
    have hafter' : after? p (d :: (s ++ c :: t)) = none := by
      rw [← List.cons_append, after?_append_cons hp, hafter, Option.map_none]
    rw [cutAt?_cons_of_none hafter, Option.map_eq_none_iff] at hs
    rw [List.cons_append, cutAt?_cons_of_none hafter', ih hs, Option.map_none]

/-- Dropping stops at the latest where `p` does not hold. -/
theorem dropWhile_append_cons {p : Char → Bool} {c : Char} (hc : p c = false) (s t : Text) :
    (s ++ c :: t).dropWhile p = s.dropWhile p ++ c :: t := by
  rw [List.dropWhile_append]
  split
  · next hempty => simp [List.isEmpty_iff.1 hempty, hc]
  · rfl

/-- Taking stops at the latest where `p` does not hold. -/
theorem takeWhile_append_cons {p : Char → Bool} {c : Char} (hc : p c = false) (s t : Text) :
    (s ++ c :: t).takeWhile p = s.takeWhile p := by
  induction s with
  | nil => simp [hc]
  | cons d s ih => by_cases hd : p d <;> simp [hd, ih]

/-- A stretch up to a mark ends where the mark is, or with the text. -/
theorem dropWhile_ne_append {c : Char} {s t : Text} (hs : c ∉ s) (ht : ∀ d ∈ t.head?, d = c) :
    (s ++ t).dropWhile (· ≠ c) = t := by
  rw [List.dropWhile_append_of_pos fun d hd => by simpa using ne_of_mem_of_not_mem hd hs]
  cases t with
  | nil => rfl
  | cons d t =>
    obtain rfl := ht d rfl
    simp

/-- A word does not go beyond a character that is none of words. -/
theorem word?_append_cons {c : Char} (hc : isWord c = false) (s t : Text) :
    word? (s ++ c :: t) = (word? s).map fun (w, rest) => (w, rest ++ c :: t) := by
  unfold word?
  rw [takeWhile_append_cons hc, dropWhile_append_cons hc]
  cases s.takeWhile isWord <;> rfl

/-- What follows a word in front of a text is an end of the text, and not all of it. -/
theorem suffix_of_word? {s w rest : Text} (h : word? s = some (w, rest)) :
    rest <:+ s ∧ rest.length < s.length := by
  unfold word? at h
  split at h
  · cases h
  · next hne =>
    obtain ⟨-, rfl⟩ := Prod.mk.inj (Option.some.inj h)
    have hlength := congrArg List.length (List.takeWhile_append_dropWhile (p := isWord) (l := s))
    have hpos := List.length_pos_iff.2 hne
    rw [List.length_append] at hlength
    exact ⟨List.dropWhile_suffix isWord, by omega⟩

/-! ## Prefixes and infixes -/

/-- There is something behind `p` exactly if the text begins with `p`. -/
theorem after?_isSome {p s : Text} : (after? p s).isSome ↔ p <+: s := by
  constructor
  · intro h
    obtain ⟨rest, hrest⟩ := Option.isSome_iff_exists.1 h
    exact ⟨rest, (after?_eq_some hrest).symm⟩
  · rintro ⟨rest, rfl⟩
    simp [after?_append]

/-- What a text does not begin with, no beginning of it begins with. -/
theorem after?_eq_none_of_append {p s t : Text} (h : after? p (s ++ t) = none) :
    after? p s = none := by
  by_contra hsome
  have hbegins := after?_isSome.1 (Option.isSome_iff_ne_none.2 hsome)
  have hlonger := after?_isSome.2 (hbegins.trans (List.prefix_append s t))
  rw [h] at hlonger
  cases hlonger

/-- A text occurs at the beginning or further on. -/
theorem occursIn_cons {p s : Text} {c : Char} :
    occursIn p (c :: s) ↔ p <+: c :: s ∨ occursIn p s := by
  rw [← after?_isSome]
  unfold occursIn
  cases h : after? p (c :: s) with
  | some rest => simp [cutAt?_cons_of_some h]
  | none => simp [cutAt?_cons_of_none h]

/-- A text occurs in another one if it is an infix of it. -/
theorem occursIn_iff {p s : Text} : occursIn p s ↔ p <:+: s := by
  induction s with
  | nil =>
    cases p <;> simp [occursIn, cutAt?, after?]
  | cons c s ih => rw [occursIn_cons, List.infix_cons_iff, ih]

/-- What does not occur in a text does not occur in its end. -/
theorem cutAt?_eq_none_of_suffix {p s t : Text} (hs : s <:+ t) (h : cutAt? p t = none) :
    cutAt? p s = none := by
  by_contra hsome
  have hoccurs : occursIn p s := Option.isSome_iff_ne_none.2 hsome
  have := occursIn_iff.2 ((occursIn_iff.1 hoccurs).trans hs.isInfix)
  rw [occursIn, h] at this
  cases this

/-- A text is not cut at a character exactly if it does not have it. -/
theorem cutAt?_eq_none_iff {c : Char} {s : Text} : cutAt? [c] s = none ↔ c ∉ s := by
  have hmem : occursIn [c] s ↔ c ∈ s := by rw [occursIn_iff, List.singleton_infix_iff]
  rw [← not_iff_not, not_not, ← hmem, occursIn, Option.isSome_iff_ne_none]

/-! ## Trimming -/

/-- Blanks in front of a text are trimmed with its own. -/
theorem trimStart_append_of_blank {a : Text} (h : ∀ c ∈ a, isBlank c) (b : Text) :
    trimStart (a ++ b) = trimStart b := by
  unfold trimStart
  rw [List.dropWhile_append_of_pos h]

/-- Trimming the start stops at the first character that is no blank. -/
theorem trimStart_cons_of_not_blank {c : Char} (h : isBlank c = false) (s : Text) :
    trimStart (c :: s) = c :: s := by
  simp [trimStart, h]

/-- A trimmed text that is not empty protects what follows it. -/
theorem trimStart_append_of_ne_nil {a : Text} (htrim : trimStart a = a) (hne : a ≠ []) (b : Text) :
    trimStart (a ++ b) = a ++ b := by
  unfold trimStart at htrim ⊢
  rw [List.dropWhile_append, htrim, if_neg (by simpa using hne)]

/-- Blanks behind a text are trimmed with its own. -/
theorem trimEnd_append_of_blank {b : Text} (h : ∀ c ∈ b, isBlank c) (a : Text) :
    trimEnd (a ++ b) = trimEnd a := by
  unfold trimEnd dropEndWhile
  rw [List.reverse_append, List.dropWhile_append_of_pos (by simpa using h)]

/-- Trimming the end does not go beyond a text that is not blank. -/
theorem trimEnd_append_of_ne_nil {b : Text} (h : trimEnd b ≠ []) (a : Text) :
    trimEnd (a ++ b) = a ++ trimEnd b := by
  unfold trimEnd dropEndWhile at h ⊢
  rw [List.reverse_append, List.dropWhile_append, if_neg (by simpa using h)]
  simp

/-- Nothing is left of blanks, and only of them. -/
theorem trimEnd_eq_nil_iff {s : Text} : trimEnd s = [] ↔ ∀ c ∈ s, isBlank c := by
  simp [trimEnd, dropEndWhile]

/-- Trimming the end leaves a beginning of the text. -/
theorem trimEnd_isPrefix (s : Text) : trimEnd s <+: s := by
  have h := List.dropWhile_suffix (l := s.reverse) isBlank
  simpa [trimEnd, dropEndWhile] using List.reverse_prefix.2 h

/-- Trimming the end keeps the first character, if any is left. -/
theorem head?_trimEnd {s : Text} (h : trimEnd s ≠ []) : (trimEnd s).head? = s.head? := by
  obtain ⟨tail, htail⟩ := trimEnd_isPrefix s
  conv_rhs => rw [← htail]
  exact (List.head?_append_of_ne_nil _ h).symm

/-- Trimming takes blanks off the end. -/
theorem exists_blank_of_trimEnd (s : Text) : ∃ b, s = trimEnd s ++ b ∧ ∀ c ∈ b, isBlank c := by
  refine ⟨(s.reverse.takeWhile isBlank).reverse, ?_, ?_⟩
  · rw [trimEnd, dropEndWhile, ← List.reverse_append, List.takeWhile_append_dropWhile,
      List.reverse_reverse]
  · intro c hc
    exact List.mem_takeWhile_imp (by simpa using hc)

/-- Nothing is trimmed off a text that ends with no blank. -/
theorem trimEnd_eq_self {s : Text} {c : Char} (hlast : s.getLast? = some c)
    (hc : isBlank c = false) : trimEnd s = s := by
  obtain ⟨front, rfl⟩ := List.getLast?_eq_some_iff.1 hlast
  have hsingle : trimEnd [c] = [c] := by simp [trimEnd, dropEndWhile, hc]
  rw [trimEnd_append_of_ne_nil (by simp [hsingle]), hsingle]

/-- Behind a trimmed text, trimming the end is trimming the end of what was appended. -/
theorem trimEnd_append_of_trimmed {a : Text} (ha : trimEnd a = a) (b : Text) :
    trimEnd (a ++ b) = a ++ trimEnd b := by
  by_cases hb : trimEnd b = []
  · rw [trimEnd_append_of_blank (trimEnd_eq_nil_iff.1 hb), ha, hb, List.append_nil]
  · exact trimEnd_append_of_ne_nil hb a

theorem trimEnd_trimEnd (s : Text) : trimEnd (trimEnd s) = trimEnd s := by
  obtain ⟨b, hs, hb⟩ := exists_blank_of_trimEnd s
  conv_rhs => rw [hs, trimEnd_append_of_blank hb]

/-- A trimmed text does not start with a blank. -/
theorem head_trim (s : Text) : ∀ c ∈ (trim s).head?, isBlank c = false := by
  intro c hc
  obtain ⟨rest, hrest⟩ := trimEnd_isPrefix (trimStart s)
  have hhead : (trimStart s).head? = some c := by
    rw [← hrest, List.head?_append, show (trimEnd (trimStart s)).head? = some c from hc]
    rfl
  have := List.head?_dropWhile_not isBlank s
  rw [show s.dropWhile isBlank = trimStart s from rfl, hhead] at this
  simpa using this

/-- A trimmed text does not end with a blank. -/
theorem getLast_trim (s : Text) : ∀ c ∈ (trim s).getLast?, isBlank c = false := by
  intro c hc
  have hdrop := List.head?_dropWhile_not isBlank (trimStart s).reverse
  rw [trim, trimEnd, dropEndWhile, List.getLast?_reverse] at hc
  rw [Option.mem_def.1 hc] at hdrop
  simpa using hdrop

/-- Trimming twice is trimming once. -/
theorem trim_trim (s : Text) : trim (trim s) = trim s := by
  have hstart : trimStart (trim s) = trim s := by
    cases htrim : trim s with
    | nil => rfl
    | cons c rest =>
      have hhead := head_trim s c (by simp [htrim])
      exact trimStart_cons_of_not_blank hhead rest
  rw [trim, hstart, trim, trimEnd_trimEnd]

/-- Trimming takes blanks off the start. -/
theorem exists_blank_of_trimStart (s : Text) :
    ∃ b, s = b ++ trimStart s ∧ ∀ c ∈ b, isBlank c :=
  ⟨s.takeWhile isBlank, List.takeWhile_append_dropWhile.symm, fun _ hc => List.mem_takeWhile_imp hc⟩

/-- Nothing is left of a blank text, and only of one. -/
theorem trim_eq_nil_iff {s : Text} : trim s = [] ↔ ∀ c ∈ s, isBlank c := by
  obtain ⟨b, hs, hb⟩ := exists_blank_of_trimStart s
  rw [trim, trimEnd_eq_nil_iff]
  constructor
  · intro h c hc
    rw [hs] at hc
    rcases List.mem_append.1 hc with hc | hc
    · exact hb c hc
    · exact h c hc
  · intro h c hc
    refine h c ?_
    rw [hs]
    exact List.mem_append_right b hc

/-- Trimming the start takes no occurrence of a text that begins with no blank. -/
theorem infix_trimStart_iff {p : Text} {c : Char} (hhead : p.head? = some c)
    (hc : isBlank c = false) {s : Text} : p <:+: trimStart s ↔ p <:+: s := by
  induction s with
  | nil => rfl
  | cons d s ih =>
    cases hd : isBlank d with
    | true =>
      -- a blank is dropped, and `p` does not begin with one
      have hne : ¬p <+: d :: s := by
        obtain ⟨rest, rfl⟩ := List.head?_eq_some_iff.1 hhead
        intro h
        obtain rfl := (List.cons_prefix_cons.1 h).1
        exact absurd hd (by simp [hc])
      have htrim : trimStart (d :: s) = trimStart s := List.dropWhile_cons_of_pos hd
      rw [htrim, ih, List.infix_cons_iff, or_iff_right hne]
    | false => rw [trimStart_cons_of_not_blank hd]

/-- It does not matter which end is trimmed first. -/
theorem trimStart_trimEnd (s : Text) : trimStart (trimEnd s) = trim s := by
  -- a blank text is trimmed to nothing from either end; else both trimmings stop within the text
  by_cases hnil : trim s = []
  · rw [hnil, trimEnd_eq_nil_iff.2 (trim_eq_nil_iff.1 hnil)]
    rfl
  · obtain ⟨b, hs, hb⟩ := exists_blank_of_trimStart s
    have hend : trimEnd s = b ++ trim s := by
      conv_lhs => rw [hs]
      exact trimEnd_append_of_ne_nil hnil _
    obtain ⟨c, rest, htrim⟩ := List.exists_cons_of_ne_nil hnil
    have hc : isBlank c = false := head_trim s c (by simp [htrim])
    rw [hend, trimStart_append_of_blank hb, htrim, trimStart_cons_of_not_blank hc]

/-- Trimming takes blanks off both ends. -/
theorem exists_blank_of_trim (s : Text) :
    ∃ front back, s = front ++ trim s ++ back ∧ (∀ c ∈ front, isBlank c) ∧ ∀ c ∈ back, isBlank c := by
  obtain ⟨front, hfront, hblank⟩ := exists_blank_of_trimStart s
  obtain ⟨back, hback, hblank'⟩ := exists_blank_of_trimEnd (trimStart s)
  refine ⟨front, back, ?_, hblank, hblank'⟩
  rw [trim, List.append_assoc, ← hback]
  exact hfront

/-- Blanks on both sides do not count when a text is trimmed. -/
theorem trim_append_of_blank {front back : Text} (hfront : ∀ c ∈ front, isBlank c)
    (hback : ∀ c ∈ back, isBlank c) (s : Text) : trim (front ++ s ++ back) = trim s := by
  rw [trim, List.append_assoc, trimStart_append_of_blank hfront, ← trim, ← trimStart_trimEnd,
    trimEnd_append_of_blank hback, trimStart_trimEnd]

/-- Trimming the end does not cut into a text that ends with something else than a blank. -/
theorem trimEnd_append_append {p : Text} {c : Char} (hlast : p.getLast? = some c)
    (hc : isBlank c = false) (front rest : Text) :
    trimEnd (front ++ p ++ rest) = front ++ p ++ trimEnd rest := by
  have htrimmed : trimEnd (front ++ p) = front ++ p := by
    refine trimEnd_eq_self (c := c) ?_ hc
    rw [List.getLast?_append, hlast]
    rfl
  exact trimEnd_append_of_trimmed htrimmed rest

/-- Trimming the end takes no beginning that ends with no blank. -/
theorem prefix_trimEnd_iff {p : Text} {c : Char} (hlast : p.getLast? = some c)
    (hc : isBlank c = false) {s : Text} : p <+: trimEnd s ↔ p <+: s := by
  constructor
  · exact fun h => h.trans (trimEnd_isPrefix s)
  · rintro ⟨rest, rfl⟩
    exact ⟨trimEnd rest, (trimEnd_append_append hlast hc [] rest).symm⟩

/-- Trimming the end takes no occurrence of a text that ends with no blank. -/
theorem infix_trimEnd_iff {p : Text} {c : Char} (hlast : p.getLast? = some c)
    (hc : isBlank c = false) {s : Text} : p <:+: trimEnd s ↔ p <:+: s := by
  constructor
  · exact fun h => h.trans (trimEnd_isPrefix s).isInfix
  · rintro ⟨front, rest, rfl⟩
    exact ⟨front, trimEnd rest, (trimEnd_append_append hlast hc front rest).symm⟩

end Scaffold.Text
