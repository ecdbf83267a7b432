import Scaffold.Proofs.Naming.Boundaries
import Scaffold.Proofs.Naming.Names
import Scaffold.Proofs.Naming.Recasing

/-!
# Recasing twice

Capitals change where words end: `apiId` has two words, and `APIID`, which it becomes, is one. So an
identifier that was recased has other words than before, and one of them could be an acronym. It could
only be one that is written in capitals already: a word in which small letters are left was a word before,
and no acronym (`mem_words_raised`). So recasing a second time changes nothing (`recase_stable`).

The words come with marks here, and those that are marked are raised to capitals; a marked word is a word
of letters, but need not be an acronym.
-/

namespace Scaffold.Naming

open Text

/-! ## Marked words -/

/-- A character, in capital form if it is marked. -/
def raiseChar (marked : Bool) (c : Char) : Char := if marked then c.toUpper else c

/-- A word, in capitals if it is marked. -/
def raise (m : Text × Bool) : Text := m.1.map (raiseChar m.2)

/-- The text of words of which the marked ones are in capitals. -/
def raised (ms : List (Text × Bool)) : Text := ms.flatMap raise

/-- Whether only words of ASCII letters are marked. -/
def MarksLetters (ms : List (Text × Bool)) : Prop := ∀ m ∈ ms, m.2 → ∀ c ∈ m.1, c.isAlpha

/-- Whether a word has a small letter in it. -/
def HasSmall (w : Text) : Prop := ∃ c ∈ w, Class.of c = .lower

/-- Whether a text begins with a small letter, or with a capital that goes with one. -/
def StartsSmall : Text → Prop
  | [] => False
  | c :: s => Class.of c = .lower ∨ Class.of c = .upper ∧ s.head?.map Class.of = some .lower

@[simp] theorem raise_nil (b : Bool) : raise ([], b) = [] := rfl

@[simp] theorem raise_false (w : Text) : raise (w, false) = w := List.map_id w

@[simp] theorem raise_cons (c : Char) (w : Text) (b : Bool) :
    raise (c :: w, b) = raiseChar b c :: raise (w, b) := rfl

@[simp] theorem raised_cons (m : Text × Bool) (ms : List (Text × Bool)) :
    raised (m :: ms) = raise m ++ raised ms := rfl

/-- Letters of ASCII are small or capital, and raising makes them capital. -/
theorem class_of_isAlpha {c : Char} (h : c.isAlpha) :
    (Class.of c = .lower ∨ Class.of c = .upper) ∧ Class.of c.toUpper = .upper :=
  forall_letterCase (P := fun c => c.isAlpha →
    (Class.of c = .lower ∨ Class.of c = .upper) ∧ Class.of c.toUpper = .upper) (by decide)
    (fun _ _ _ hother halpha => absurd halpha (by simp [hother])) c h

/-- A letter of ASCII that is not small stays as it is. -/
theorem toUpper_of_isAlpha {c : Char} (h : c.isAlpha) (hsmall : Class.of c ≠ .lower) :
    c.toUpper = c :=
  forall_letterCase (P := fun c => c.isAlpha → Class.of c ≠ .lower → c.toUpper = c) (by decide)
    (fun _ hupper _ _ _ _ => hupper) c h hsmall

/-- How the class of a character changes when it is raised, or stays. -/
def Raises (marked : Bool) (k k' : Class) : Prop :=
  if marked then (k = .lower ∨ k = .upper) ∧ k' = .upper else k' = k

/-- Only letters of marked words change their class. -/
theorem raises_class {c : Char} {b : Bool} (h : b → c.isAlpha) :
    Raises b (Class.of c) (Class.of (raiseChar b c)) := by
  cases b with
  | false => exact rfl
  | true => exact class_of_isAlpha (h rfl)

/-- Small letters were small, and were not marked. -/
theorem Raises.of_lower {b : Bool} {k : Class} (h : Raises b k .lower) : b = false ∧ k = .lower := by
  cases b with
  | false => exact ⟨rfl, Eq.symm h⟩
  | true => exact absurd h.2 (by decide)

/-- Where the text of marked words begins small, the words did. -/
theorem lower_of_head_raised {ms : List (Text × Bool)} (h : MarksLetters ms) :
    (raised ms).head?.map Class.of = some .lower →
      (ms.flatMap Prod.fst).head?.map Class.of = some .lower := by
  induction ms with
  | nil => exact id
  | cons m ms ih =>
    obtain ⟨w, b⟩ := m
    obtain ⟨hm, hms⟩ := List.forall_mem_cons.1 h
    cases w with
    | nil => simpa using ih hms
    | cons c w =>
      intro hsmall
      have hlower : Class.of (raiseChar b c) = .lower := by
        simpa using hsmall
      have hraises := raises_class fun hb => hm hb c List.mem_cons_self
      rw [hlower] at hraises
      simpa using hraises.of_lower.2

/-! ## Words of the raised text -/

/-- A word ends all the more if a small letter follows. -/
theorem Parts.mono {a b : Class} {next next' : Option Class}
    (hnext : next' = some .lower → next = some .lower) (h : Parts a b next') : Parts a b next :=
  h.imp_right fun h => ⟨h.1, h.2.1, hnext h.2.2⟩

/-- A word ends in front of a capital that goes with a small letter. -/
theorem parts_upper_lower (a : Class) : Parts a .upper (some .lower) := by
  cases a <;> decide

/-- Where words grow together, no small letter is left in what they become. -/
theorem not_small_of_joined {k k' l l' : Class} {b b' : Bool} {next next' : Option Class}
    (hparts : Parts k l next) (hjoins : ¬Parts k' l' next') (hk : Raises b k k')
    (hl : Raises b' l l') :
    k' ≠ .lower ∧ l' ≠ .lower ∧ ¬(l' = .upper ∧ next' = some .lower) := by
  refine ⟨?_, ?_, ?_⟩
  · rintro rfl
    obtain ⟨rfl, rfl⟩ := hk.of_lower
    have hsame : l' = .lower := by
      by_contra hne
      exact hjoins (.inl ⟨Ne.symm hne, by simp⟩)
    subst hsame
    obtain ⟨rfl, rfl⟩ := hl.of_lower
    exact absurd hparts (by simp [Parts])
  · rintro rfl
    obtain ⟨rfl, rfl⟩ := hl.of_lower
    -- in front of a small letter a word ends only behind what is no letter, and this is not raised
    have hk' : k ≠ .lower ∧ k ≠ .upper := by
      simpa [Parts] using hparts
    cases b with
    | true => exact hk.1.elim hk'.1 hk'.2
    | false =>
      obtain rfl : k' = k := hk
      exact hjoins (.inl ⟨hk'.1, fun h => hk'.2 h.1⟩)
  · rintro ⟨rfl, rfl⟩
    exact hjoins (parts_upper_lower k')

/-- Small letters are left only in words that were there before and are not marked: among the words of the
raised text, the first is the first as it was if it has a small letter, and those behind it were behind it
before. -/
def KeepsSmall (w : Text) (b : Bool) (ms : List (Text × Bool)) : Prop :=
  ∃ v vs, words (raised ((w, b) :: ms)) = v :: vs ∧
    (∀ u ∈ vs, HasSmall u → (u, false) ∈ ms) ∧
    (HasSmall v → v = w ∧ b = false ∧ StartsSmall (raised ((w, b) :: ms)))

/-- A word with small letters was there before and is not marked. -/
theorem KeepsSmall.mem {w u : Text} {b : Bool} {ms : List (Text × Bool)} (h : KeepsSmall w b ms)
    (hu : u ∈ words (raised ((w, b) :: ms))) (hsmall : HasSmall u) : (u, false) ∈ (w, b) :: ms := by
  obtain ⟨v, vs, hwords, hrest, hfirst⟩ := h
  rw [hwords] at hu
  rcases List.mem_cons.1 hu with rfl | hu
  · obtain ⟨rfl, rfl, -⟩ := hfirst hsmall
    exact List.mem_cons_self
  · exact List.mem_cons_of_mem _ (hrest u hu hsmall)

theorem hasSmall_cons {c : Char} {w : Text} :
    HasSmall (c :: w) ↔ Class.of c = .lower ∨ HasSmall w := by
  simp [HasSmall]

/-- A character in front of a text is a word of its own, or it goes in front of the first word. -/
private theorem words_cons_of_words {c d : Char} {s v : Text} {vs : List Text}
    (h : words (d :: s) = v :: vs) :
    words (c :: d :: s) = if Parts (Class.of c) (Class.of d) (s.head?.map Class.of) then [c] :: v :: vs
      else (c :: v) :: vs := by
  have hcons := wordsBy_cons_cons Class.of c d s
  rw [show wordsBy Class.of (d :: s) = v :: vs from h] at hcons
  exact hcons

/-- The first word begins where the text begins. -/
theorem exists_first_word {c : Char} {s w : Text} {ws : List Text} (h : words (c :: s) = w :: ws) :
    ∃ t, w = c :: t ∧ s = t ++ ws.flatten := by
  have hflatten := flatten_words (c :: s)
  rw [h, List.flatten_cons] at hflatten
  have hne : w ≠ [] := ne_nil_of_mem_wordsBy Class.of (h ▸ List.mem_cons_self)
  obtain ⟨d, t, rfl⟩ := List.exists_cons_of_ne_nil hne
  obtain ⟨rfl, hs⟩ := List.cons.inj hflatten
  exact ⟨t, rfl, hs.symm⟩

section

variable {c d : Char} {w : Text} {b b' : Bool} {ms : List (Text × Bool)}

/-- A word of one character goes in front. -/
theorem KeepsSmall.apart (hmarks : MarksLetters (([c], b) :: (d :: w, b') :: ms))
    (hparts : Parts (Class.of c) (Class.of d) ((((w, b') :: ms).flatMap Prod.fst).head?.map Class.of))
    (h : KeepsSmall (d :: w) b' ms) : KeepsSmall [c] b ((d :: w, b') :: ms) := by
  have hmem {u : Text} := h.mem (u := u)
  obtain ⟨v, vs, hwords, hrest, hfirst⟩ := h
  rw [hwords] at hmem
  obtain ⟨hc, htail⟩ := List.forall_mem_cons.1 hmarks
  obtain ⟨hd, -⟩ := List.forall_mem_cons.1 htail
  have hk := raises_class fun hb => hc hb c List.mem_cons_self
  have hl := raises_class fun hb => hd hb d List.mem_cons_self
  have hcons := words_cons_of_words (c := raiseChar b c) hwords
  split at hcons
  · -- the character is a word of its own, as before
    refine ⟨_, _, hcons, fun _ => hmem, ?_⟩
    intro hsmall
    have hlower : Class.of (raiseChar b c) = .lower := by
      simpa [HasSmall] using hsmall
    rw [hlower] at hk
    obtain ⟨rfl, -⟩ := hk.of_lower
    exact ⟨rfl, rfl, .inl hlower⟩
  · next hjoins =>
    -- it grows together with the next word, in which no small letter is left
    obtain ⟨hfree, hfree', hnot⟩ := not_small_of_joined hparts hjoins hk hl
    refine ⟨_, _, hcons, fun _ hu => hmem (List.mem_cons_of_mem v hu), ?_⟩
    intro hsmall
    rcases hasSmall_cons.1 hsmall with hlower | hsmall
    · exact absurd hlower hfree
    · obtain ⟨-, -, hlower | hgoes⟩ := hfirst hsmall
      · exact absurd hlower hfree'
      · exact absurd hgoes hnot

/-- A character goes in front of the first word. -/
theorem KeepsSmall.joined (hmarks : MarksLetters ((c :: d :: w, b) :: ms))
    (hparts : ¬Parts (Class.of c) (Class.of d) ((((w, b) :: ms).flatMap Prod.fst).head?.map Class.of))
    (h : KeepsSmall (d :: w) b ms) : KeepsSmall (c :: d :: w) b ms := by
  obtain ⟨v, vs, hwords, hrest, hfirst⟩ := h
  obtain ⟨hletters, hms⟩ := List.forall_mem_cons.1 hmarks
  have hk := raises_class fun hb => hletters hb c List.mem_cons_self
  have hnext : (raised ((w, b) :: ms)).head?.map Class.of = some .lower →
      (((w, b) :: ms).flatMap Prod.fst).head?.map Class.of = some .lower := by
    refine lower_of_head_raised (List.forall_mem_cons.2 ⟨?_, hms⟩)
    intro hb e he
    exact hletters hb e (by simp [he])
  have hcons := words_cons_of_words (c := raiseChar b c) hwords
  -- without marks the classes are as they were, so that nothing is cut that was whole
  have hwhole (hb : b = false) : ¬Parts (Class.of (raiseChar b c)) (Class.of (raiseChar b d))
      ((raised ((w, b) :: ms)).head?.map Class.of) := by
    subst hb
    exact fun h => hparts (h.mono hnext)
  have hunmarked (hlower : Class.of (raiseChar b c) = .lower) : b = false := by
    rw [hlower] at hk
    exact hk.of_lower.1
  split at hcons
  · next hends =>
    refine ⟨_, _, hcons, fun u hu hsmall => ?_, fun hsmall => ?_⟩
    · rcases List.mem_cons.1 hu with rfl | hu
      · exact absurd hends (hwhole (hfirst hsmall).2.1)
      · exact hrest u hu hsmall
    · exact absurd hends (hwhole (hunmarked (by simpa [HasSmall] using hsmall)))
  · next hjoins =>
    refine ⟨_, _, hcons, hrest, fun hsmall => ?_⟩
    obtain ⟨t, rfl, -⟩ := exists_first_word hwords
    rcases hasSmall_cons.1 hsmall with hlower | hsmall
    · have hlower' : Class.of (raiseChar b d) = .lower := by
        by_contra hne
        exact hjoins (.inl ⟨fun h => hne (h ▸ hlower), by simp [hlower]⟩)
      obtain ⟨hsame, rfl, -⟩ := hfirst (hasSmall_cons.2 (.inl hlower'))
      exact ⟨congrArg (c :: ·) hsame, rfl, .inl hlower⟩
    · obtain ⟨hsame, rfl, hlower' | ⟨hupper, hgoes⟩⟩ := hfirst hsmall
      · refine ⟨congrArg (c :: ·) hsame, rfl, ?_⟩
        by_contra hnot
        obtain ⟨hlower, hupper⟩ := not_or.1 hnot
        refine hjoins (.inl ⟨fun h => hlower (h.trans hlower'), fun h => hupper ⟨h.1, ?_⟩⟩)
        exact congrArg some hlower'
      · rw [hupper, hgoes] at hjoins
        exact absurd (parts_upper_lower _) hjoins

end

/-- Small letters are left only in words that were there before and are not marked. -/
theorem keepsSmall {s w : Text} {b : Bool} {ms : List (Text × Bool)}
    (hwords : words s = w :: ms.map Prod.fst) (hmarks : MarksLetters ((w, b) :: ms)) :
    KeepsSmall w b ms := by
  -- on the text: a character goes in front of the first word, or it is a new one
  induction s generalizing w b ms with
  | nil => cases hwords
  | cons c s ih =>
    cases s with
    | nil =>
      obtain ⟨rfl, hnil⟩ := List.cons.inj (show [[c]] = w :: ms.map Prod.fst from hwords)
      obtain rfl := List.map_eq_nil_iff.1 hnil.symm
      refine ⟨[raiseChar b c], [], rfl, nofun, fun hsmall => ?_⟩
      have hlower : Class.of (raiseChar b c) = .lower := by
        simpa [HasSmall] using hsmall
      have hk := raises_class fun hb => hmarks _ List.mem_cons_self hb c List.mem_cons_self
      rw [hlower] at hk
      obtain ⟨rfl, -⟩ := hk.of_lower
      exact ⟨rfl, rfl, .inl hlower⟩
    | cons d s =>
      have hne : words (d :: s) ≠ [] := by
        intro hnil
        have hflatten := flatten_words (d :: s)
        rw [hnil] at hflatten
        cases hflatten
      obtain ⟨v, vs, hbehind⟩ := List.exists_cons_of_ne_nil hne
      obtain ⟨t, rfl, rfl⟩ := exists_first_word hbehind
      have hcons := words_cons_of_words (c := c) hbehind
      rw [hwords] at hcons
      split at hcons
      · next hparts =>
        obtain ⟨rfl, hmap⟩ := List.cons.inj hcons
        obtain ⟨⟨v, b'⟩, ms, rfl, rfl, hms⟩ := List.map_eq_cons_iff.1 hmap
        subst hms
        refine KeepsSmall.apart hmarks ?_ (ih hbehind ?_)
        · rwa [List.flatMap_cons, List.flatMap_def]
        · exact fun m hm => hmarks m (List.mem_cons_of_mem _ hm)
      · next hparts =>
        obtain ⟨rfl, rfl⟩ := List.cons.inj hcons
        refine KeepsSmall.joined hmarks ?_ (ih hbehind ?_)
        · rwa [List.flatMap_cons, List.flatMap_def]
        · obtain ⟨hletters, hms⟩ := List.forall_mem_cons.1 hmarks
          exact List.forall_mem_cons.2
            ⟨fun hb e he => hletters hb e (List.mem_cons_of_mem c he), hms⟩

/-- A word with small letters was a word before its neighbours were raised, and was not raised itself. -/
theorem mem_words_raised {ms : List (Text × Bool)} (hmarks : MarksLetters ms)
    (hwords : words (ms.flatMap Prod.fst) = ms.map Prod.fst) {u : Text} (hu : u ∈ words (raised ms))
    (hsmall : HasSmall u) : (u, false) ∈ ms := by
  cases ms with
  | nil => cases hu
  | cons m ms =>
    obtain ⟨w, b⟩ := m
    exact (keepsSmall hwords hmarks).mem hu hsmall

/-! ## Acronyms -/

/-- The words of an identifier, where the acronyms are marked. -/
def markedWords (s : Text) : List (Text × Bool) := (words s).map fun w => (w, isAcronym w)

theorem map_fst_markedWords (s : Text) : (markedWords s).map Prod.fst = words s := by
  rw [markedWords, List.map_map]
  exact List.map_id _

theorem flatMap_fst_markedWords (s : Text) : (markedWords s).flatMap Prod.fst = s := by
  rw [List.flatMap_def, map_fst_markedWords, flatten_words]

/-- Acronyms are letters. -/
theorem isAlpha_of_isAcronym {w : Text} (h : isAcronym w) : ∀ c ∈ w, c.isAlpha := by
  have hletters : (w.map Char.toLower).all Char.isAlpha := by
    simp only [isAcronym, Bool.or_eq_true, decide_eq_true_eq] at h
    rcases h with h | h
    · rw [h]
      decide
    · rw [h]
      decide
  intro c hc
  rw [← isAlpha_toLower]
  exact List.all_eq_true.1 hletters _ (List.mem_map_of_mem hc)

/-- Only words of letters are marked. -/
theorem marksLetters_markedWords (s : Text) : MarksLetters (markedWords s) := by
  intro m hm hmarked
  obtain ⟨w, -, rfl⟩ := List.mem_map.1 hm
  exact isAlpha_of_isAcronym hmarked

/-- The marked words are those that recasing puts in capitals. -/
theorem raised_markedWords (s : Text) : raised (markedWords s) =
    (words s).flatMap fun word => if isAcronym word then word.map Char.toUpper else word := by
  rw [raised, markedWords, List.flatMap_map]
  refine List.flatMap_congr fun word _ => ?_
  cases isAcronym word with
  | false => exact raise_false word
  | true => rfl

/-- Recasing leaves a text as it is, or raises its marked words. -/
theorem recase_eq_raised (s : Text) : recase s = s ∨ recase s = raised (markedWords s) := by
  rw [raised_markedWords]
  exact recase_eq s

/-- Among the words of a recased identifier, the acronyms are in capitals. -/
theorem map_toUpper_of_isAcronym {s w : Text} (hw : w ∈ words (raised (markedWords s)))
    (h : isAcronym w) : w.map Char.toUpper = w := by
  have hwords : words ((markedWords s).flatMap Prod.fst) = (markedWords s).map Prod.fst := by
    rw [flatMap_fst_markedWords, map_fst_markedWords]
  have hcapitals : ¬HasSmall w := by
    intro hsmall
    have hmem := mem_words_raised (marksLetters_markedWords s) hwords hw hsmall
    obtain ⟨v, -, hv⟩ := List.mem_map.1 hmem
    obtain ⟨rfl, hplain⟩ := Prod.mk.inj hv
    rw [h] at hplain
    cases hplain
  calc w.map Char.toUpper
      = w.map id := List.map_congr_left fun c hc =>
          toUpper_of_isAlpha (isAlpha_of_isAcronym h c hc) fun hlower => hcapitals ⟨c, hc, hlower⟩
    _ = w := List.map_id w

/-- Recasing a second time changes nothing. -/
theorem recase_recase (s : Text) : recase (recase s) = recase s := by
  rcases recase_eq_raised s with h | h
  · rw [h, h]
  · rcases recase_eq (recase s) with hsame | hagain
    · exact hsame
    · rw [hagain]
      calc _ = (words (recase s)).flatMap id := by
            refine List.flatMap_congr fun w hw => ?_
            split
            · next hacronym => exact map_toUpper_of_isAcronym (h ▸ hw) hacronym
            · rfl
        _ = recase s := by rw [List.flatMap_id, flatten_words]

/-! ## What recasing changes -/

/-- Whether the place `i` of an identifier is in a word that is an acronym. -/
def InAcronym (s : Text) (i : Nat) : Prop :=
  ∃ front w back, words s = front ++ w :: back ∧ isAcronym w ∧
    front.flatten.length ≤ i ∧ i < front.flatten.length + w.length

/-- At each place, a raised text has the character that was there, or its capital if it is one of a marked
word. -/
theorem getElem?_raised (ms : List (Text × Bool)) (i : Nat) :
    (raised ms)[i]? = (ms.flatMap Prod.fst)[i]? ∨
      ∃ front w back, ms = front ++ (w, true) :: back ∧
        (front.flatMap Prod.fst).length ≤ i ∧ i < (front.flatMap Prod.fst).length + w.length ∧
        ∃ c ∈ w, (ms.flatMap Prod.fst)[i]? = some c ∧ (raised ms)[i]? = some c.toUpper := by
  induction ms generalizing i with
  | nil => exact .inl rfl
  | cons m ms ih =>
    obtain ⟨w, b⟩ := m
    have hlength : (raise (w, b)).length = w.length := List.length_map _
    rw [raised_cons, List.flatMap_cons]
    dsimp only
    by_cases hi : i < w.length
    · rw [List.getElem?_append_left (by omega), List.getElem?_append_left hi]
      cases b with
      | false => exact .inl (by rw [raise_false])
      | true =>
        refine .inr ⟨[], w, ms, rfl, Nat.zero_le i, by simpa using hi, w[i], List.getElem_mem hi, ?_, ?_⟩
        · exact List.getElem?_eq_getElem hi
        · show (w.map Char.toUpper)[i]? = _
          rw [List.getElem?_map, List.getElem?_eq_getElem hi]
          rfl
    · rw [List.getElem?_append_right (by omega), List.getElem?_append_right (by omega), hlength]
      rcases ih (i - w.length) with hsame | ⟨front, v, back, rfl, hfrom, hto, hchar⟩
      · exact .inl hsame
      · refine .inr ⟨(w, b) :: front, v, back, rfl, ?_, ?_, hchar⟩
        · rw [List.flatMap_cons, List.length_append]
          dsimp only
          omega
        · rw [List.flatMap_cons, List.length_append]
          dsimp only
          omega

/-- Recasing keeps the length of an identifier, it only makes capitals of letters in words that are
acronyms, and doing it again changes nothing. -/
theorem recase_stable (s : Text) :
    (recase s).length = s.length ∧
      (∀ i, (recase s)[i]? = s[i]? ∨
        InAcronym s i ∧ ∃ c, c.isAlpha ∧ s[i]? = some c ∧ (recase s)[i]? = some c.toUpper) ∧
      recase (recase s) = recase s := by
  refine ⟨length_recase s, ?_, recase_recase s⟩
  intro i
  rcases recase_eq_raised s with h | h
  · exact .inl (by rw [h])
  · have hchars := getElem?_raised (markedWords s) i
    rw [flatMap_fst_markedWords, ← h] at hchars
    rcases hchars with hsame | ⟨front, w, back, hms, hfrom, hto, c, hc, hplain, hraised⟩
    · exact .inl hsame
    · have hacronym : isAcronym w := by
        obtain ⟨v, -, hv⟩ := List.mem_map.1 (hms ▸ List.mem_append_right front List.mem_cons_self)
        obtain ⟨rfl, hmarked⟩ := Prod.mk.inj hv
        exact hmarked
      -- the marked word is one of the words of the text, at the place where it stands
      have hwords : words s = front.map Prod.fst ++ w :: back.map Prod.fst := by
        rw [← map_fst_markedWords, hms, List.map_append, List.map_cons]
      rw [List.flatMap_def] at hfrom hto
      exact .inr ⟨⟨_, w, _, hwords, hacronym, hfrom, hto⟩, c, isAlpha_of_isAcronym hacronym c hc,
        hplain, hraised⟩

/-- Both words of `apiId` are acronyms. Recased they are one word, which is none. -/
example : recase "apiId".toList = "APIID".toList ∧ words (recase "apiId".toList) = ["APIID".toList] := by
  decide

end Scaffold.Naming
