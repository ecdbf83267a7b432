import Scaffold.Proofs.Schema.Interior

/-!
# Two readings of documentation

A reader who goes from left to right meets the regions of documentation one after the other
(`documentation`). Stripping goes over the text three times, once for each kind of region, and looks at
quotes without regard to where they stand. Both leave the same text if all regions are closed and clear:
no comment opens a block string that is closed below, no description has a quote in it, and no two quotes
follow one (`stripDocs_eq_eraseAll`).

A text whose regions are all closed is written in bits (`exists_bits`). Each pass then takes out the bits
of its kind and touches comments, but never the end of a line.
-/

namespace Scaffold.Schema

open Text

/-- A region of documentation at a cursor. -/
def documentation : Pattern Unit := fun _ s => (docRest? s).map fun rest => ((), rest)

theorem isForward_documentation : documentation.IsForward := fun _ _ => rfl

/-- Whether the reader goes from bit to bit. -/
def AreClosed : List Bit → Prop
  | [] => True
  | b :: bits => b.IsClosed (written bits) ∧ AreClosed bits

/-- Bits that are read are closed. -/
theorem AreRead.areClosed {bits : List Bit} (h : AreRead bits) : AreClosed bits := by
  induction bits with
  | nil => trivial
  | cons b bits ih => exact ⟨h.1.isClosed, ih h.2⟩

theorem Bit.text_ne_nil (b : Bit) : b.text ≠ [] := by
  cases b <;> simp [Bit.text, blockQuotes]

/-! ## From left to right -/

/-- The reader takes out all documentation that is closed. -/
theorem eraseAll_documentation {bits : List Bit} (h : AreClosed bits) :
    eraseAll documentation (written bits) = bits.flatMap Bit.plain := by
  induction bits with
  | nil => rfl
  | cons b bits ih =>
    obtain ⟨hb, hbits⟩ := h
    have hloose {c : Char} (hcomment : c ≠ '#') (hquote : c ≠ '"') :
        eraseAll documentation ([c] ++ written bits) = [c] ++ bits.flatMap Bit.plain := by
      rw [← ih hbits]
      exact eraseAll_cons_of_none isForward_documentation
        (congrArg (Option.map _) (docRest?_eq_none hcomment hquote _))
    have hregion (hdoc : b.isComment ∨ b.isQuoted ∨ b.isBlock) :
        eraseAll documentation (b.text ++ written bits) = bits.flatMap Bit.plain := by
      rw [← ih hbits]
      exact eraseAll_append_of_takes isForward_documentation
        ⟨b.text_ne_nil, congrArg (Option.map _) (docRest?_append hb hdoc)⟩
    rw [written_cons]
    -- characters outside documentation stay, regions go
    cases b with
    | solid c | blank c => exact hloose hb.1 hb.2
    | comma => exact hloose (by decide) (by decide)
    | comment | quoted | block =>
      exact hregion (by simp [Bit.isComment, Bit.isQuoted, Bit.isBlock])

/-- Whether a region is a comment, or documentation between quotes that ends with the quotes that close
it; a description also stays on its line. -/
def IsClosedRegion (region : Text) : Prop :=
  region.head? = some '#' ∨ (∃ t, region = (Bit.quoted t).text ∧ isDescription t) ∨
    ∃ t, region = (Bit.block t).text ∧ cutAt? blockQuotes (t ++ blockQuotes) = some (t, [])

/-- Behind a description stands the end of the text. -/
theorem descriptionRest_suffix (s : Text) : descriptionRest s <:+ s := by
  fun_induction descriptionRest s with
  | case1 => exact List.suffix_rfl
  | case2 => exact List.nil_suffix
  | case3 c s ih => exact ih.trans ((List.suffix_cons c s).trans (List.suffix_cons _ _))
  | case4 s => exact List.suffix_cons _ _
  | case5 s => exact List.suffix_rfl
  | case6 c s _ _ _ _ ih => exact ih.trans (List.suffix_cons c s)

/-- Behind documentation stands the end of the text. -/
theorem docRest?_suffix {c : Char} {s rest : Text} (h : docRest? (c :: s) = some rest) :
    rest <:+ s := by
  unfold docRest? at h
  split at h
  · next heq =>
    obtain ⟨rfl, rfl⟩ := List.cons.inj heq
    obtain rfl := Option.some.inj h
    exact List.dropWhile_suffix _
  · next heq =>
    obtain ⟨rfl, rfl⟩ := List.cons.inj heq
    split at h
    · next inside hinside =>
      obtain rfl : s = "\"\"".toList ++ inside := (List.cons.inj (after?_eq_some hinside)).2
      refine List.IsSuffix.trans ?_ (List.suffix_append _ inside)
      rw [← Option.some.inj h]
      cases hcut : cutAt? blockQuotes inside with
      | none => exact List.nil_suffix
      | some cut =>
        obtain ⟨front, rest'⟩ := cut
        rw [cutAt?_eq_some hcut]
        exact List.suffix_append _ rest'
    · rw [← Option.some.inj h]
      exact descriptionRest_suffix s
  · cases h

/-- A quote opens documentation, a description or a block string. -/
theorem docRest?_quote (s : Text) : (docRest? ('"' :: s)).isSome := by
  simp only [docRest?]
  split <;> rfl

/-- A closed region is a bit. -/
theorem exists_bit {region rest : Text} (h : docRest? (region ++ rest) = some rest)
    (hclosed : IsClosedRegion region) :
    ∃ b : Bit, b.text = region ∧ b.IsClosed rest ∧ (b.isComment ∨ b.isQuoted ∨ b.isBlock) := by
  rcases hclosed with hhead | ⟨t, rfl, hdescription⟩ | ⟨t, rfl, hcut⟩
  · obtain ⟨t, rfl⟩ := List.head?_eq_some_iff.1 hhead
    have hdrop : (t ++ rest).dropWhile (· ≠ '\n') = rest := Option.some.inj h
    have htake : (t ++ rest).takeWhile (· ≠ '\n') = t := by
      have happend := List.takeWhile_append_dropWhile (p := (· ≠ '\n')) (l := t ++ rest)
      rw [hdrop] at happend
      exact List.append_cancel_right happend
    refine ⟨.comment t, rfl, ⟨fun hmem => ?_, fun c hc => ?_⟩, .inl rfl⟩
    · rw [← htake] at hmem
      simpa using List.mem_takeWhile_imp hmem
    · have hnewline := List.head?_dropWhile_not (· ≠ '\n') (t ++ rest)
      rw [hdrop, Option.mem_def.1 hc] at hnewline
      simpa using hnewline
  · refine ⟨.quoted t, rfl, ⟨hdescription, ?_⟩, .inr (.inl rfl)⟩
    rintro rfl hhead
    -- three quotes would have opened a block string
    obtain ⟨rest, rfl⟩ := List.head?_eq_some_iff.1 hhead
    have hcut : (cutAt? blockQuotes rest).elim [] (·.2) = '"' :: rest := Option.some.inj h
    have hlong : ((cutAt? blockQuotes rest).elim [] (·.2)).length ≤ rest.length := by
      cases hcut : cutAt? blockQuotes rest with
      | none => exact Nat.zero_le _
      | some cut =>
        obtain ⟨front, behind⟩ := cut
        rw [cutAt?_eq_some hcut, List.length_append]
        exact Nat.le_add_left _ _
    rw [hcut, List.length_cons] at hlong
    omega
  · exact ⟨.block t, rfl, hcut, .inr (.inr rfl)⟩

/-- The regions of bits that are closed are closed. -/
theorem isClosedRegion_of_mem_pieces {bits : List Bit} (h : AreClosed bits) {region : Text}
    (hregion : .found () region ∈ pieces documentation (written bits)) : IsClosedRegion region := by
  induction bits with
  | nil => exact absurd hregion List.not_mem_nil
  | cons b bits ih =>
    obtain ⟨hb, hbits⟩ := h
    have hloose {c : Char} (hcomment : c ≠ '#') (hquote : c ≠ '"')
        (hregion : .found () region ∈ pieces documentation (c :: written bits)) :
        IsClosedRegion region := by
      rw [pieces_cons_of_none isForward_documentation
        (congrArg (Option.map _) (docRest?_eq_none hcomment hquote _))] at hregion
      exact ih hbits (by simpa using hregion)
    have hdoc (hdoc : b.isComment ∨ b.isQuoted ∨ b.isBlock) (hclosed : IsClosedRegion b.text) :
        IsClosedRegion region := by
      rw [written_cons, pieces_append_of_takes isForward_documentation
        ⟨b.text_ne_nil, congrArg (Option.map _) (docRest?_append hb hdoc)⟩, List.mem_cons] at hregion
      rcases hregion with heq | hregion
      · obtain ⟨-, rfl⟩ := Piece.found.inj heq
        exact hclosed
      · exact ih hbits hregion
    cases b with
    | solid c | blank c => exact hloose hb.1 hb.2 hregion
    | comma => exact hloose (by decide) (by decide) hregion
    | comment t => exact hdoc (.inl rfl) (.inl rfl)
    | quoted t => exact hdoc (.inr (.inl rfl)) (.inr (.inl ⟨t, rfl, hb.1⟩))
    | block t => exact hdoc (.inr (.inr rfl)) (.inr (.inr ⟨t, rfl, hb⟩))

/-- Any text whose regions are all closed is written in bits. -/
theorem exists_bits {s : Text}
    (h : ∀ region, .found () region ∈ pieces documentation s → IsClosedRegion region) :
    ∃ bits, AreClosed bits ∧ written bits = s := by
  -- on the length, since a region of documentation takes out more than one character
  induction hlen : s.length using Nat.strong_induction_on generalizing s with
  | h n ih =>
  subst hlen
  cases s with
  | nil => exact ⟨[], trivial, rfl⟩
  | cons c s =>
    cases hdoc : docRest? (c :: s) with
    | none =>
      have hpieces : pieces documentation (c :: s) = .loose c :: pieces documentation s :=
        pieces_cons_of_none isForward_documentation (congrArg (Option.map _) hdoc)
      obtain ⟨bits, hbits, rfl⟩ := ih s.length (by simp)
        (fun region hregion => h region (hpieces ▸ List.mem_cons_of_mem _ hregion)) rfl
      refine ⟨.solid c :: bits, ⟨⟨?_, ?_⟩, hbits⟩, rfl⟩
      · rintro rfl
        cases hdoc
      · -- a quote always begins a region
        rintro rfl
        have hsome := docRest?_quote (written bits)
        rw [hdoc] at hsome
        cases hsome
    | some rest =>
      obtain ⟨t, ht⟩ := docRest?_suffix hdoc
      obtain rfl : s = t ++ rest := ht.symm
      have htakes : documentation.Takes (c :: t) rest () :=
        ⟨List.cons_ne_nil _ _, congrArg (Option.map _) hdoc⟩
      have hpieces := pieces_append_of_takes isForward_documentation htakes
      rw [List.cons_append] at hpieces
      obtain ⟨bits, hbits, rfl⟩ := ih rest.length (by rw [List.length_cons, List.length_append]; omega)
        (fun region hregion => h region (hpieces ▸ List.mem_cons_of_mem _ hregion)) rfl
      have hregion : IsClosedRegion (c :: t) := h _ (hpieces ▸ List.mem_cons_self)
      obtain ⟨b, hb, hclosed, -⟩ := exists_bit hdoc hregion
      exact ⟨b :: bits, ⟨hclosed, hbits⟩, by rw [written_cons, hb, List.cons_append]⟩

/-! ## Pass by pass -/

theorem isForward_blockString : blockString.IsForward := fun _ _ => rfl

theorem isForward_description : description.IsForward := fun _ _ => rfl

theorem isForward_lineComment : lineComment.IsForward := fun _ _ => rfl

/-- A block string begins with a quote. -/
theorem blockString_eq_none {c : Char} (h : c ≠ '"') (s : Text) :
    blockString none (c :: s) = none := by
  simp [blockString, blockQuotes, after?, h.symm]

/-- A description begins with a quote. -/
theorem description_eq_none {c : Char} (h : c ≠ '"') (s : Text) :
    description none (c :: s) = none := by
  unfold description
  split <;> simp_all

/-- A comment begins with `#`. -/
theorem lineComment_eq_none {c : Char} (h : c ≠ '#') (s : Text) :
    lineComment none (c :: s) = none := by
  unfold lineComment
  split <;> simp_all

/-- A block string goes up to the next three quotes. -/
theorem blockString_eq (s : Text) : blockString none s =
    (after? blockQuotes s).bind fun inside =>
      ((cutAt? blockQuotes inside).map Prod.snd).map fun rest => ((), rest) := by
  unfold blockString
  cases after? blockQuotes s with
  | none => rfl
  | some inside =>
    simp only [Option.bind_eq_bind, Option.bind_some]
    cases cutAt? blockQuotes inside <;> rfl

/-- A description goes up to the next quote, on its line. -/
theorem description_eq (s : Text) : description none s =
    (after? ['"'] s).bind fun inside =>
      (after? ['"'] (inside.dropWhile fun c => c ≠ '"' && c ≠ '\n')).map fun rest => ((), rest) := by
  cases s with
  | nil => rfl
  | cons c inside =>
    by_cases hc : c = '"'
    · subst hc
      simp only [description, after?, if_true, Option.bind_some]
      cases inside.dropWhile (fun c => c ≠ '"' && c ≠ '\n') with
      | nil => rfl
      | cons d rest =>
        by_cases hd : d = '"'
        · subst hd
          rfl
        · simp [hd, Ne.symm hd, after?]
    · rw [description_eq_none hc]
      simp [after?, Ne.symm hc]

/-- A comment goes up to the end of its line. -/
theorem lineComment_eq (s : Text) : lineComment none s =
    (after? ['#'] s).map fun inside => ((), inside.dropWhile (· ≠ '\n')) := by
  cases s with
  | nil => rfl
  | cons c inside =>
    by_cases hc : c = '#'
    · subst hc
      rfl
    · rw [lineComment_eq_none hc]
      simp [after?, Ne.symm hc]

/-- The block string that is found stands between three quotes and three. -/
theorem blockString_eq_some {s rest : Text} (h : blockString none s = some ((), rest)) :
    ∃ front, s = blockQuotes ++ (front ++ blockQuotes ++ rest) := by
  rw [blockString_eq] at h
  obtain ⟨inside, hinside, h⟩ := Option.bind_eq_some_iff.1 h
  obtain ⟨rest', hrest, heq⟩ := Option.map_eq_some_iff.1 h
  obtain ⟨-, rfl⟩ := Prod.mk.inj heq
  obtain ⟨⟨front, rest⟩, hcut, rfl⟩ := Option.map_eq_some_iff.1 hrest
  exact ⟨front, by rw [after?_eq_some hinside, cutAt?_eq_some hcut]⟩

/-- The description that is found stands between two quotes. -/
theorem description_eq_some {s rest : Text} (h : description none s = some ((), rest)) :
    ∃ front, s = '"' :: (front ++ '"' :: rest) := by
  rw [description_eq] at h
  obtain ⟨inside, hinside, h⟩ := Option.bind_eq_some_iff.1 h
  obtain ⟨rest', hrest, heq⟩ := Option.map_eq_some_iff.1 h
  obtain ⟨-, rfl⟩ := Prod.mk.inj heq
  refine ⟨inside.takeWhile fun c => c ≠ '"' && c ≠ '\n', ?_⟩
  have hclose : '"' :: rest' = inside.dropWhile fun c => c ≠ '"' && c ≠ '\n' := (after?_eq_some hrest).symm
  rw [hclose, List.takeWhile_append_dropWhile]
  exact after?_eq_some hinside

/-- Whether a block string is open behind a text, from left to right. -/
def leavesOpen : (isOpen : Bool) → Text → Bool
  | isOpen, '"' :: '"' :: '"' :: s => leavesOpen (!isOpen) s
  | isOpen, _ :: s => leavesOpen isOpen s
  | isOpen, [] => isOpen

/-- Whether no kind of documentation is in the way of another one in a bit that `after` follows: a comment
leaves no block string open that `after` could close, and a description has no quote in it and no two
quotes behind it that could open one. -/
def Bit.IsClear (after : Text) : Bit → Prop
  | comment t => leavesOpen false t = false ∨ cutAt? blockQuotes after = none
  | quoted t => '"' ∉ t ∧ (after? "\"\"".toList after = none ∨ cutAt? blockQuotes after = none)
  | _ => True

/-- Whether all bits are clear. -/
def AreClear : List Bit → Prop
  | [] => True
  | b :: bits => b.IsClear (written bits) ∧ AreClear bits

/-- A text at which a line ends. -/
def AtLineEnd (s : Text) : Prop := ∀ c ∈ s.head?, c = '\n'

theorem atLineEnd_iff {s : Text} : AtLineEnd s ↔ s = [] ∨ ∃ t, s = '\n' :: t := by
  cases s <;> simp [AtLineEnd]

/-- A block string is taken up to its first three quotes. -/
theorem blockString_takes {front rest : Text}
    (h : cutAt? blockQuotes (front ++ blockQuotes ++ rest) = some (front, rest)) (s : Text) :
    blockString.Takes (Bit.block front).text s () := by
  refine ⟨by simp [Bit.text, blockQuotes], ?_⟩
  have htext : (Bit.block front).text ++ s = blockQuotes ++ (front ++ blockQuotes ++ s) := by
    simp [Bit.text]
  rw [htext, blockString, after?_append]
  simp only [Option.bind_eq_bind, Option.bind_some, cutAt?_congr h s]

/-- Without three quotes no block string begins. -/
private theorem blockString_eq_none_of_after? {s : Text} (h : after? blockQuotes s = none) :
    blockString none s = none := by
  simp [blockString, h]

/-- Three quotes do not go beyond the end of a line. -/
private theorem after?_append_of_atLineEnd {t s : Text} (hs : AtLineEnd s)
    (h : after? blockQuotes t = none) : after? blockQuotes (t ++ s) = none := by
  rcases atLineEnd_iff.1 hs with rfl | ⟨s, rfl⟩
  · rwa [List.append_nil]
  · rw [after?_append_cons (by decide), h, Option.map_none]

/-- Going through a text that leaves no block string open: outside of block strings, and in one. -/
private theorem blockString_append {s : Text} (hs : AtLineEnd s) (isOpen : Bool) (t : Text)
    (h : leavesOpen isOpen t = false) :
    (isOpen = false →
      eraseAll blockString (t ++ s) = eraseAll blockString t ++ eraseAll blockString s) ∧
    (isOpen = true → ∃ front rest, cutAt? blockQuotes t = some (front, rest) ∧
      eraseAll blockString (rest ++ s) = eraseAll blockString rest ++ eraseAll blockString s) := by
  -- outside a block string the two texts are taken apart; inside one, it ends in the first text
  fun_induction leavesOpen isOpen t with
  | case1 isOpen t ih =>
    cases isOpen with
    | false =>
      refine ⟨fun _ => ?_, fun hopen => Bool.noConfusion hopen⟩
      obtain ⟨front, rest, hcut, hrest⟩ := (ih h).2 rfl
      have ht := cutAt?_eq_some hcut
      have htext : '"' :: '"' :: '"' :: t = (Bit.block front).text ++ rest := by
        rw [ht]
        simp [Bit.text, blockQuotes]
      have htakes := blockString_takes (ht ▸ hcut)
      rw [htext, List.append_assoc, eraseAll_append_of_takes isForward_blockString (htakes _),
        eraseAll_append_of_takes isForward_blockString (htakes _), hrest]
    | true => exact ⟨fun hopen => Bool.noConfusion hopen, fun _ => ⟨[], t, rfl, (ih h).1 rfl⟩⟩
  | case2 isOpen c t hquotes ih =>
    have hafter : after? blockQuotes (c :: t) = none := by
      by_contra hsome
      obtain ⟨inside, hinside⟩ := Option.ne_none_iff_exists'.1 hsome
      obtain ⟨rfl, rfl⟩ := List.cons.inj (after?_eq_some hinside)
      exact hquotes inside rfl rfl
    cases isOpen with
    | false =>
      refine ⟨fun _ => ?_, fun hopen => Bool.noConfusion hopen⟩
      have hnone := blockString_eq_none_of_after? hafter
      have hnone' := blockString_eq_none_of_after?
        (after?_append_of_atLineEnd hs hafter)
      rw [List.cons_append] at hnone'
      rw [List.cons_append, eraseAll_cons_of_none isForward_blockString hnone',
        eraseAll_cons_of_none isForward_blockString hnone, (ih h).1 rfl, List.cons_append]
    | true =>
      obtain ⟨front, rest, hcut, hrest⟩ := (ih h).2 rfl
      refine ⟨fun hopen => Bool.noConfusion hopen, fun _ => ⟨c :: front, rest, ?_, hrest⟩⟩
      rw [cutAt?_cons_of_none hafter, hcut]
      rfl
  | case3 isOpen =>
    obtain rfl : isOpen = false := h
    exact ⟨fun _ => rfl, fun hopen => Bool.noConfusion hopen⟩

/-- Where no three quotes follow, all block strings that begin in a line end in it. -/
private theorem eraseAll_blockString_append_of_none {t s : Text} (hs : AtLineEnd s)
    (h : cutAt? blockQuotes s = none) :
    eraseAll blockString (t ++ s) = eraseAll blockString t ++ eraseAll blockString s := by
  refine eraseAll_append_of_decided isForward_blockString fun c u _ => ?_
  cases hafter : after? blockQuotes (c :: u) with
  | none =>
    left
    exact ⟨blockString_eq_none_of_after? hafter, blockString_eq_none_of_after?
      (after?_append_of_atLineEnd hs hafter)⟩
  | some inside =>
    have hopening := after?_eq_some hafter
    cases hcut : cutAt? blockQuotes inside with
    | some cut =>
      right
      obtain ⟨front, rest⟩ := cut
      have hinside := cutAt?_eq_some hcut
      have htakes := blockString_takes (hinside ▸ hcut)
      exact ⟨_, rest, (), by rw [hopening, hinside]; simp [Bit.text], htakes rest, htakes _⟩
    | none =>
      left
      have hcut' : cutAt? blockQuotes (inside ++ s) = none := by
        rcases atLineEnd_iff.1 hs with rfl | ⟨s, rfl⟩
        · rwa [List.append_nil]
        · exact cutAt?_append_cons_eq_none (by decide) hcut h
      rw [← List.cons_append, hopening, List.append_assoc]
      simp [blockString, after?_append, hcut, hcut']

/-- Up to the end of the line, block strings are taken out of a comment that is clear. -/
theorem eraseAll_blockString_append {t s : Text}
    (h : leavesOpen false t = false ∨ cutAt? blockQuotes s = none) (hs : AtLineEnd s) :
    eraseAll blockString (t ++ s) = eraseAll blockString t ++ eraseAll blockString s :=
  h.elim (fun h => (blockString_append hs false t h).1 rfl) (eraseAll_blockString_append_of_none hs)

/-- A description is taken up to the first quote behind it. -/
theorem description_takes {t : Text} (hquote : '"' ∉ t) (hnewline : '\n' ∉ t) (s : Text) :
    description.Takes (Bit.quoted t).text s () := by
  have hdrop : (t ++ '"' :: s).dropWhile (fun c => c ≠ '"' && c ≠ '\n') = '"' :: s := by
    rw [List.dropWhile_append_of_pos fun c hc => ?_]
    · rfl
    · simp [ne_of_mem_of_not_mem hc hquote, ne_of_mem_of_not_mem hc hnewline]
  refine ⟨by simp [Bit.text], ?_⟩
  simp only [Bit.text, List.cons_append, List.append_assoc, List.nil_append, description, hdrop]

/-- No description goes beyond the end of a line. -/
private theorem description_eq_none_of_line {t s : Text} (hquote : '"' ∉ t) (hnewline : '\n' ∉ t)
    (hs : AtLineEnd s) : description none ('"' :: (t ++ s)) = none := by
  have hdrop : (t ++ s).dropWhile (fun c => c ≠ '"' && c ≠ '\n') = s := by
    rw [List.dropWhile_append_of_pos fun c hc => ?_]
    · rcases atLineEnd_iff.1 hs with rfl | ⟨s, rfl⟩ <;> rfl
    · simp [ne_of_mem_of_not_mem hc hquote, ne_of_mem_of_not_mem hc hnewline]
  unfold description
  simp only [hdrop]
  rcases atLineEnd_iff.1 hs with rfl | ⟨s, rfl⟩ <;> rfl

/-- Up to the end of the line, descriptions are taken out of any text. -/
theorem eraseAll_description_append {t s : Text} (h : '\n' ∉ t) (hs : AtLineEnd s) :
    eraseAll description (t ++ s) = eraseAll description t ++ eraseAll description s := by
  refine eraseAll_append_of_decided isForward_description fun c u hu => ?_
  have hnewline : '\n' ∉ u := fun hmem => h (hu.subset (List.mem_cons_of_mem c hmem))
  by_cases hquote : c = '"'
  · subst hquote
    by_cases hmem : '"' ∈ u
    · right
      obtain ⟨front, rest, rfl, hfront⟩ := List.eq_append_cons_of_mem hmem
      have htakes (s : Text) :=
        description_takes hfront (fun hc => hnewline (List.mem_append_left _ hc)) s
      exact ⟨_, rest, (), by simp [Bit.text], htakes rest, htakes (rest ++ s)⟩
    · left
      refine ⟨?_, description_eq_none_of_line hmem hnewline hs⟩
      simpa using description_eq_none_of_line hmem hnewline (s := []) (by simp [AtLineEnd])
  · exact .inl ⟨description_eq_none hquote _, description_eq_none hquote _⟩

/-- Whether a bit is as it is without block strings, when `after` follows it. -/
def Bit.IsSettled (after : Text) : Bit → Prop
  | solid c | blank c => c ≠ '#' ∧ c ≠ '"'
  | comma => True
  | comment t => '\n' ∉ t ∧ AtLineEnd after
  | quoted t => '"' ∉ t ∧ '\n' ∉ t
  | block _ => False

/-- Whether all bits are as they are without block strings. -/
def AreSettled : List Bit → Prop
  | [] => True
  | b :: bits => b.IsSettled (written bits) ∧ AreSettled bits

/-- A description is one line. -/
theorem newline_notMem_of_isDescription {t : Text} (h : isDescription t) : '\n' ∉ t := by
  fun_induction isDescription t with
  | case1 => simp
  | case2 => simp
  | case3 c t ih =>
    simp only [Bool.and_eq_true, decide_eq_true_eq] at h
    simp [ih h.2, Ne.symm h.1]
  | case4 c t hlone hescape ih =>
    simp only [Bool.and_eq_true, decide_eq_true_eq] at h
    simp [ih h.2, Ne.symm h.1.2]

/-- What a pass leaves of some bits. -/
structure Left (p : Pattern Unit) (bits left : List Bit) : Prop where
  text : eraseAll p (written bits) = written left
  settled : AreSettled left
  plain : left.flatMap Bit.plain = bits.flatMap Bit.plain
  lineEnd : AtLineEnd (written bits) → AtLineEnd (written left)

namespace Left

variable {p : Pattern Unit} {bits left : List Bit} {b b' : Bit}

/-- A bit stays, or another one takes its place. -/
theorem keep (h : Left p bits left)
    (htext : eraseAll p (b.text ++ written bits) = b'.text ++ eraseAll p (written bits))
    (hsettled : b'.IsSettled (written left)) (hplain : b'.plain = b.plain)
    (hhead : b'.text.head? = b.text.head?) : Left p (b :: bits) (b' :: left) where
  text := by rw [written_cons, htext, h.text, written_cons]
  settled := ⟨hsettled, h.settled⟩
  plain := by rw [List.flatMap_cons, List.flatMap_cons, hplain, h.plain]
  lineEnd hline c hc := by
    refine hline c ?_
    rw [written_cons, List.head?_append_of_ne_nil _ (Bit.text_ne_nil _)] at hc ⊢
    rwa [hhead] at hc

/-- A bit is taken out. -/
theorem drop (hp : p.IsForward) (h : Left p bits left) (htakes : p.Takes b.text (written bits) ())
    (hplain : b.plain = []) (hline : ¬AtLineEnd b.text) : Left p (b :: bits) left where
  text := by rw [written_cons, eraseAll_append_of_takes hp htakes, h.text]
  settled := h.settled
  plain := by rw [List.flatMap_cons, hplain, h.plain, List.nil_append]
  lineEnd h := by
    refine absurd (fun c hc => h c ?_) hline
    rwa [written_cons, List.head?_append_of_ne_nil _ b.text_ne_nil]

end Left

/-- The first pass refuses descriptions that are clear. -/
private theorem blockString_refuses_quoted {t after : Text} (hclosed : (Bit.quoted t).IsClosed after)
    (hclear : (Bit.quoted t).IsClear after) : blockString.Refuses (Bit.quoted t).text after := by
  have hopening := after?_blockQuotes_quoted hclosed
  obtain ⟨hquote, hafter⟩ := hclear
  rw [Bit.text, Pattern.refuses_append, Pattern.refuses_cons]
  refine ⟨⟨?_, Pattern.refuses_of_forall (fun c hc => ?_) _⟩, ?_, trivial⟩
  · exact blockString_eq_none_of_after? (by simpa using hopening)
  · exact blockString_eq_none (ne_of_mem_of_not_mem hc hquote)
  · rcases hafter with hafter | hcut
    · exact blockString_eq_none_of_after? (by simpa [blockQuotes, after?] using hafter)
    · rw [List.nil_append]
      cases hquotes : after? blockQuotes ('"' :: after) with
      | none => exact blockString_eq_none_of_after? hquotes
      | some inside =>
        have hafter := (List.cons.inj (after?_eq_some hquotes)).2
        have hinside : cutAt? blockQuotes inside = none := by
          refine cutAt?_eq_none_of_suffix ?_ hcut
          rw [hafter]
          exact List.suffix_append ['"', '"'] inside
        simp [blockString, hquotes, hinside]

/-- The first pass takes out block strings, also from comments. -/
theorem exists_left_blockString {bits : List Bit} (hclosed : AreClosed bits) (hclear : AreClear bits) :
    ∃ left, Left blockString bits left := by
  induction bits with
  | nil => exact ⟨[], rfl, trivial, rfl, id⟩
  | cons b bits ih =>
    obtain ⟨hb, hbits⟩ := hclosed
    obtain ⟨hb', hbits'⟩ := hclear
    obtain ⟨left, hleft⟩ := ih hbits hbits'
    have hloose {c : Char} (hc : c ≠ '"') :
        eraseAll blockString ([c] ++ written bits) = [c] ++ eraseAll blockString (written bits) :=
      eraseAll_cons_of_none isForward_blockString (blockString_eq_none hc _)
    -- only block strings go; in a comment the text is left that is no block string
    cases b with
    | solid c => exact ⟨.solid c :: left, hleft.keep (hloose hb.2) hb rfl rfl⟩
    | blank c => exact ⟨.blank c :: left, hleft.keep (hloose hb.2) hb rfl rfl⟩
    | comma => exact ⟨.comma :: left, hleft.keep (hloose (by decide)) trivial rfl rfl⟩
    | comment t =>
      refine ⟨.comment (eraseAll blockString t) :: left, hleft.keep ?_ ⟨?_, ?_⟩ rfl rfl⟩
      · have hopen : leavesOpen false ('#' :: t) = false ∨ cutAt? blockQuotes (written bits) = none := hb'
        have hrest := eraseAll_blockString_append hopen hb.2
        rwa [eraseAll_cons_of_none isForward_blockString (blockString_eq_none (by decide) t)] at hrest
      · exact fun hmem => hb.1 (mem_of_mem_eraseAll hmem)
      · exact hleft.lineEnd hb.2
    | quoted t =>
      refine ⟨.quoted t :: left, hleft.keep ?_ ?_ rfl rfl⟩
      · exact eraseAll_append_of_refuses isForward_blockString (blockString_refuses_quoted hb hb')
      · exact ⟨hb'.1, newline_notMem_of_isDescription hb.1⟩
    | block t =>
      have hcut : cutAt? blockQuotes (t ++ blockQuotes ++ []) = some (t, []) := by
        rwa [List.append_nil]
      exact ⟨left, hleft.drop isForward_blockString (blockString_takes hcut _) rfl
        (by simp [AtLineEnd, Bit.text, blockQuotes])⟩

/-- The second pass takes out descriptions, also from comments. -/
theorem exists_left_description {bits : List Bit} (h : AreSettled bits) :
    ∃ left, Left description bits left ∧ ∀ b ∈ left, b.isQuoted = false := by
  induction bits with
  | nil => exact ⟨[], ⟨rfl, trivial, rfl, id⟩, by simp⟩
  | cons b bits ih =>
    obtain ⟨hb, hbits⟩ := h
    obtain ⟨left, hleft, hquoted⟩ := ih hbits
    have hloose {c : Char} (hc : c ≠ '"') :
        eraseAll description ([c] ++ written bits) = [c] ++ eraseAll description (written bits) :=
      eraseAll_cons_of_none isForward_description (description_eq_none hc _)
    -- no block string is left; quotations go, and comments lose theirs
    cases b with
    | solid c =>
      exact ⟨.solid c :: left, hleft.keep (hloose hb.2) hb rfl rfl, List.forall_mem_cons.2 ⟨rfl, hquoted⟩⟩
    | blank c =>
      exact ⟨.blank c :: left, hleft.keep (hloose hb.2) hb rfl rfl, List.forall_mem_cons.2 ⟨rfl, hquoted⟩⟩
    | comma =>
      exact ⟨.comma :: left, hleft.keep (hloose (by decide)) trivial rfl rfl,
        List.forall_mem_cons.2 ⟨rfl, hquoted⟩⟩
    | comment t =>
      refine ⟨.comment (eraseAll description t) :: left, hleft.keep ?_ ⟨?_, ?_⟩ rfl rfl,
        List.forall_mem_cons.2 ⟨rfl, hquoted⟩⟩
      · have hnewline : '\n' ∉ '#' :: t := by simp [hb.1]
        have hrest := eraseAll_description_append hnewline hb.2
        rwa [eraseAll_cons_of_none isForward_description (description_eq_none (by decide) t)] at hrest
      · exact fun hmem => hb.1 (mem_of_mem_eraseAll hmem)
      · exact hleft.lineEnd hb.2
    | quoted t =>
      exact ⟨left, hleft.drop isForward_description (description_takes hb.1 hb.2 _) rfl
        (by simp [AtLineEnd, Bit.text]), hquoted⟩
    | block t => exact hb.elim

/-- The third pass takes out comments. -/
theorem eraseAll_lineComment {bits : List Bit} (h : AreSettled bits)
    (hquoted : ∀ b ∈ bits, b.isQuoted = false) :
    eraseAll lineComment (written bits) = bits.flatMap Bit.plain := by
  induction bits with
  | nil => rfl
  | cons b bits ih =>
    obtain ⟨hb, hbits⟩ := h
    obtain ⟨hquoted, hquoteds⟩ := List.forall_mem_cons.1 hquoted
    have htail := ih hbits hquoteds
    have hloose {c : Char} (hc : c ≠ '#') :
        eraseAll lineComment ([c] ++ written bits) = [c] ++ bits.flatMap Bit.plain := by
      rw [← htail]
      exact eraseAll_cons_of_none isForward_lineComment (lineComment_eq_none hc _)
    rw [written_cons]
    cases b with
    | solid c | blank c => exact hloose hb.1
    | comma => exact hloose (by decide)
    | comment t =>
      have htakes : lineComment.Takes ('#' :: t) (written bits) () := by
        exact ⟨List.cons_ne_nil _ _,
          congrArg (fun s => some ((), s)) (dropWhile_ne_append hb.1 hb.2)⟩
      exact (eraseAll_append_of_takes isForward_lineComment htakes).trans htail
    | quoted t => cases hquoted
    | block t => exact hb.elim

/-- Without documentation that is closed and clear, tokens, white space and commas are left. -/
theorem stripDocs_of_areClear {bits : List Bit} (hclosed : AreClosed bits) (hclear : AreClear bits) :
    stripDocs (written bits) = bits.flatMap Bit.plain := by
  obtain ⟨withoutBlocks, hblocks⟩ := exists_left_blockString hclosed hclear
  obtain ⟨withoutQuoted, hdescriptions, hquoted⟩ := exists_left_description hblocks.settled
  rw [stripDocs, hblocks.text, hdescriptions.text, eraseAll_lineComment hdescriptions.settled hquoted,
    hdescriptions.plain, hblocks.plain]

/-- A text without quotes opens and closes no block string. -/
private theorem leavesOpen_of_notMem {t : Text} (h : '"' ∉ t) (isOpen : Bool) :
    leavesOpen isOpen t = isOpen := by
  fun_induction leavesOpen isOpen t with
  | case1 => simp at h
  | case2 isOpen c t _ ih => exact ih fun hmem => h (List.mem_cons_of_mem c hmem)
  | case3 => rfl

/-- Bits that are read are clear. -/
theorem AreRead.areClear {bits : List Bit} (h : AreRead bits) : AreClear bits := by
  induction bits with
  | nil => trivial
  | cons b bits ih =>
    obtain ⟨hb, hbits⟩ := h
    refine ⟨?_, ih hbits⟩
    cases b with
    | solid | blank | comma | block => trivial
    | comment t => exact .inl (leavesOpen_of_notMem (fun hmem => (hb.1 _ hmem).2 rfl) false)
    | quoted t =>
      refine ⟨fun hmem => (hb.1 _ hmem).2 rfl, .inl ?_⟩
      have hafter := hb.2.2
      cases hbits : written bits with
      | nil => rfl
      | cons c s =>
        rw [hbits] at hafter
        have hc : '"' ≠ c := fun heq => hafter (by rw [← heq]; rfl)
        simp [after?, hc]

/-- Without documentation, tokens, white space and commas are left. -/
theorem stripDocs_written {bits : List Bit} (h : AreRead bits) :
    stripDocs (written bits) = bits.flatMap Bit.plain :=
  stripDocs_of_areClear h.areClosed h.areClear

/-- A text whose regions of documentation are all closed is a text that is written in closed bits, and if
the bits are clear, stripping leaves what a reader leaves who takes out the regions from left to right. -/
theorem stripDocs_eq_eraseAll (s : Text) :
    ((∀ region, .found () region ∈ pieces documentation s → IsClosedRegion region) ↔
      ∃ bits, AreClosed bits ∧ written bits = s) ∧
    ∀ bits, AreClosed bits → written bits = s → AreClear bits →
      stripDocs s = eraseAll documentation s := by
  refine ⟨⟨exists_bits, ?_⟩, ?_⟩
  · rintro ⟨bits, hbits, rfl⟩ region hregion
    exact isClosedRegion_of_mem_pieces hbits hregion
  · rintro bits hclosed rfl hclear
    rw [stripDocs_of_areClear hclosed hclear, eraseAll_documentation hclosed]

/-! ## Texts with documentation -/

instance (after : Text) : (b : Bit) → Decidable (b.IsClosed after)
  | .solid c | .blank c => inferInstanceAs (Decidable (c ≠ '#' ∧ c ≠ '"'))
  | .comma => .isTrue trivial
  | .comment t => inferInstanceAs (Decidable ('\n' ∉ t ∧ ∀ c ∈ after.head?, c = '\n'))
  | .quoted t => inferInstanceAs (Decidable (isDescription t ∧ (t = [] → after.head? ≠ some '"')))
  | .block t => inferInstanceAs (Decidable (cutAt? blockQuotes (t ++ blockQuotes) = some (t, [])))

instance (after : Text) : (b : Bit) → Decidable (b.IsClear after)
  | .solid _ | .blank _ | .comma | .block _ => .isTrue trivial
  | .comment t =>
    inferInstanceAs (Decidable (leavesOpen false t = false ∨ cutAt? blockQuotes after = none))
  | .quoted t =>
    inferInstanceAs (Decidable ('"' ∉ t ∧
      (after? "\"\"".toList after = none ∨ cutAt? blockQuotes after = none)))

instance decidableAreClosed : (bits : List Bit) → Decidable (AreClosed bits)
  | [] => .isTrue trivial
  | b :: bits =>
    have := decidableAreClosed bits
    inferInstanceAs (Decidable (b.IsClosed (written bits) ∧ AreClosed bits))

instance decidableAreClear : (bits : List Bit) → Decidable (AreClear bits)
  | [] => .isTrue trivial
  | b :: bits =>
    have := decidableAreClear bits
    inferInstanceAs (Decidable (b.IsClear (written bits) ∧ AreClear bits))

/-- A comment with quotes, a description with the mark of a comment, and a block string with both. -/
private def clearBits : List Bit :=
  [.comment " \"one\" of \"\"\"two\"\"\"".toList, .blank '\n', .quoted "the # sign".toList, .solid 'a',
    .block "# \"three\" \n".toList, .solid 'b']

theorem stripDocs_eq_eraseAll_clearBits :
    (∀ region, .found () region ∈ pieces documentation (written clearBits) →
      IsClosedRegion region) ∧
    stripDocs (written clearBits) = eraseAll documentation (written clearBits) := by
  have hbits : AreClosed clearBits ∧ AreClear clearBits := by
    unfold clearBits
    repeat rw [String.toList_ofList]
    decide
  obtain ⟨hclosed, hagree⟩ := stripDocs_eq_eraseAll (written clearBits)
  exact ⟨hclosed.2 ⟨_, hbits.1, rfl⟩, hagree _ hbits.1 rfl hbits.2⟩

/-- Two comments with three quotes in each, with a field between them. -/
private def markedComments : List Bit :=
  [.comment " \"\"\" opens".toList, .blank '\n', .solid 'a', .blank '\n',
    .comment " \"\"\" closes".toList, .blank '\n', .solid 'b']

/-- A description with escaped quotes. -/
private def escapedQuotes : List Bit := [.quoted "say \\\"hi\\\" twice".toList, .solid 'a']

/-- A description with a block string right behind it. -/
private def adjacentQuotes : List Bit := [.quoted "one".toList, .block "two".toList, .solid 'a']

/-- All regions are closed, but they are not clear: a field is lost, and documentation is left. -/
theorem stripDocs_differs :
    (∀ bits ∈ [markedComments, escapedQuotes, adjacentQuotes], ∀ region,
      .found () region ∈ pieces documentation (written bits) → IsClosedRegion region) ∧
    stripDocs (written markedComments) = "\nb".toList ∧
      eraseAll documentation (written markedComments) = "\na\n\nb".toList ∧
    stripDocs (written escapedQuotes) = "hi\\a".toList ∧
      eraseAll documentation (written escapedQuotes) = "a".toList ∧
    stripDocs (written adjacentQuotes) ≠ eraseAll documentation (written adjacentQuotes) := by
  have hbits : ∀ bits ∈ [markedComments, escapedQuotes, adjacentQuotes], AreClosed bits := by
    unfold markedComments escapedQuotes adjacentQuotes
    repeat rw [String.toList_ofList]
    decide
  refine ⟨fun bits hmem _ hregion => isClosedRegion_of_mem_pieces (hbits bits hmem) hregion, ?_⟩
  unfold markedComments escapedQuotes adjacentQuotes
  repeat rw [String.toList_ofList]
  decide

end Scaffold.Schema
