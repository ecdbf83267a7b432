import Scaffold.Proofs.Schema.ByteScan
import Scaffold.Proofs.Schema.LeadingComments

/-!
# Balanced blocks

Whether the braces of a block are balanced is told by what stands outside documentation. A reader who goes
from left to right keeps these characters and knows at each place whether documentation is open
(`readDocs`). If none is open at the end, then each region that was met is closed, whatever follows
(`passes_of_docsClosed`); so the block that encloses a balanced interior closes right behind it, and a text
in front of the block whose documentation is closed and that does not have the word `type` is passed over
(`interior?_of_balanced`).
-/

namespace Scaffold.Schema

open Text

/-! ## What is read -/

/-- What a reader of a schema is in. -/
inductive Region where
  | outside
  | comment
  | description
  | blockString
  deriving DecidableEq, Repr

/-- Puts a character in front of what was read behind it. -/
def keep (c : Char) (read : Text × Region) : Text × Region := (c :: read.1, read.2)

/-- Reads a text from left to right. The result is what stands outside documentation, and what the reader
is in at the end. -/
def readDocs : Region → Text → Text × Region
  | region, [] => ([], region)
  | .outside, '#' :: s => readDocs .comment s
  | .outside, '"' :: '"' :: '"' :: s => readDocs .blockString s
  | .outside, '"' :: s => readDocs .description s
  | .outside, c :: s => keep c (readDocs .outside s)
  | .comment, '\n' :: s => keep '\n' (readDocs .outside s)
  | .comment, _ :: s => readDocs .comment s
  | .description, ['\\'] => ([], .description)
  | .description, '\\' :: _ :: s => readDocs .description s
  | .description, '"' :: s => readDocs .outside s
  | .description, '\n' :: s => keep '\n' (readDocs .outside s)
  | .description, _ :: s => readDocs .description s
  | .blockString, '"' :: '"' :: '"' :: s => readDocs .outside s
  | .blockString, _ :: s => readDocs .blockString s

/-- No documentation is open at the end of a text. -/
def DocsClosed (s : Text) : Prop := (readDocs .outside s).2 = .outside

instance (s : Text) : Decidable (DocsClosed s) :=
  inferInstanceAs (Decidable ((readDocs .outside s).2 = .outside))

/-- The braces of a text are balanced: nowhere are more closed than were opened, and at the end all are
closed. -/
structure IsBalanced (t : Text) : Prop where
  sane : ∀ front, front <+: t → front.count '}' ≤ front.count '{'
  settled : t.count '}' = t.count '{'

instance (t : Text) : Decidable (IsBalanced t) :=
  decidable_of_iff ((∀ front ∈ t.inits, front.count '}' ≤ front.count '{') ∧ t.count '}' = t.count '{')
    ⟨fun ⟨hsane, hsettled⟩ => ⟨fun front h => hsane front ((List.mem_inits front t).2 h), hsettled⟩,
      fun h => ⟨fun front hfront => h.sane front ((List.mem_inits front t).1 hfront), h.settled⟩⟩

/-- A word stands in a text, and is not a part of a longer one. -/
def HasWord (w s : Text) : Prop :=
  ∃ front back, s = front ++ w ++ back ∧ front.getLast?.any isWord = false ∧ back.head?.any isWord = false

theorem hasWord_iff {w s : Text} : HasWord w s ↔
    ∃ n, n < s.length + 1 ∧ (s.take n).getLast?.any isWord = false ∧
      ∃ back ∈ after? w (s.drop n), back.head?.any isWord = false := by
  constructor
  · rintro ⟨front, back, rfl, hfront, hback⟩
    refine ⟨front.length, ?_, by simpa using hfront, back, ?_, hback⟩
    · rw [List.append_assoc, List.length_append]
      omega
    · rw [List.append_assoc, List.drop_left]
      exact after?_append w back
  · rintro ⟨n, -, hfront, back, hafter, hback⟩
    refine ⟨s.take n, back, ?_, hfront, hback⟩
    rw [List.append_assoc, ← after?_eq_some hafter, List.take_append_drop]

instance (w s : Text) : Decidable (HasWord w s) :=
  decidable_of_iff _ hasWord_iff.symm

/-! ## Regions that are closed -/

-- the clauses of the reader, as the rules by which the proofs below take a step
attribute [local simp] readDocs

/-- What follows the region that a reader is in. -/
def restIn : Region → Text → Text
  | .outside, s => s
  | .comment, s => s.dropWhile (· ≠ '\n')
  | .description, s => descriptionRest s
  | .blockString, s => ((cutAt? blockQuotes s).map Prod.snd).getD []

/-- Outside documentation, a character that opens none is kept. -/
theorem readDocs_cons {c : Char} (hcomment : c ≠ '#') (hquote : c ≠ '"') (s : Text) :
    readDocs .outside (c :: s) = keep c (readDocs .outside s) := by
  simp [hquote]

/-- Inside a block string, all is skipped up to its closing quotes. -/
theorem readDocs_blockString_cons {c : Char} {s : Text} (h : after? blockQuotes (c :: s) = none) :
    readDocs .blockString (c :: s) = readDocs .blockString s := by
  refine readDocs.eq_14 c s ?_
  rintro rest rfl rfl
  simp [blockQuotes, after?] at h

/-- A block string that is closed has its closing quotes. -/
theorem readDocs_blockString {s : Text} (h : (readDocs .blockString s).2 = .outside) :
    readDocs .blockString s = readDocs .outside (restIn .blockString s) ∧
      ∀ t, restIn .blockString (s ++ t) = restIn .blockString s ++ t := by
  have hcut : ∃ inside rest, cutAt? blockQuotes s = some (inside, rest) ∧
      readDocs .blockString s = readDocs .outside rest := by
    induction s with
    | nil => cases h
    | cons c s ih =>
      cases hafter : after? blockQuotes (c :: s) with
      | some rest =>
        refine ⟨[], rest, cutAt?_cons_of_some hafter, ?_⟩
        rw [after?_eq_some hafter]
        simp [blockQuotes]
      | none =>
        rw [readDocs_blockString_cons hafter] at h ⊢
        obtain ⟨inside, rest, hcut, hread⟩ := ih h
        refine ⟨c :: inside, rest, ?_, hread⟩
        rw [cutAt?_cons_of_none hafter, hcut]
        rfl
  obtain ⟨inside, rest, hcut, hread⟩ := hcut
  have happend (t : Text) : cutAt? blockQuotes (s ++ t) = some (inside, rest ++ t) := by
    have hsplit := cutAt?_eq_some hcut
    rw [hsplit] at hcut
    rw [hsplit, List.append_assoc]
    exact cutAt?_congr hcut (rest ++ t)
  simp [restIn, hcut, happend, hread]

/-- A comment that is closed has a newline. -/
theorem readDocs_comment {s : Text} (h : (readDocs .comment s).2 = .outside) :
    readDocs .comment s = readDocs .outside (restIn .comment s) ∧
      ∀ t, restIn .comment (s ++ t) = restIn .comment s ++ t := by
  induction s with
  | nil => cases h
  | cons c s ih =>
    by_cases hc : c = '\n'
    · subst hc
      exact ⟨rfl, fun _ => rfl⟩
    · have hskip (u : Text) : restIn .comment (c :: u) = restIn .comment u := by
        simp [restIn, hc]
      simp only [readDocs, List.cons_append, hskip] at h ⊢
      exact ih h

/-- A description that is closed ends at its quote or at the end of its line. -/
theorem readDocs_description {s : Text} (h : (readDocs .description s).2 = .outside) :
    readDocs .description s = readDocs .outside (restIn .description s) ∧
      ∀ t, restIn .description (s ++ t) = restIn .description s ++ t := by
  unfold restIn
  fun_induction descriptionRest s with
  | case1 | case2 => cases h
  | case3 c s ih =>
    rw [readDocs.eq_9] at h ⊢
    exact ih h
  | case4 s => exact ⟨readDocs.eq_10 s, fun t => descriptionRest.eq_4 (s ++ t)⟩
  | case5 s =>
    refine ⟨?_, fun t => descriptionRest.eq_5 (s ++ t)⟩
    exact (readDocs.eq_11 s).trans (readDocs_cons (by decide) (by decide) s).symm
  | case6 c s hlone hescape hquote hnewline ih =>
    have hbackslash := ne_backslash hlone hescape
    rw [readDocs.eq_12 c s hlone hescape hquote hnewline] at h ⊢
    simp only [List.cons_append, descriptionRest_cons hbackslash hquote hnewline]
    exact ih h

/-- A region that is closed, whichever it is. -/
theorem readDocs_of_closed {region : Region} {s : Text} (h : (readDocs region s).2 = .outside) :
    readDocs region s = readDocs .outside (restIn region s) ∧
      ∀ t, restIn region (s ++ t) = restIn region s ++ t := by
  cases region with
  | outside => exact ⟨rfl, fun _ => rfl⟩
  | comment => exact readDocs_comment h
  | description => exact readDocs_description h
  | blockString => exact readDocs_blockString h

/-- No block string opens at a description that is closed, unless two quotes that a third one follows. -/
theorem after?_blockQuotes_append {s t : Text} (h : (readDocs .description s).2 = .outside)
    (hnone : after? blockQuotes ('"' :: s) = none) (ht : t.head? ≠ some '"') :
    after? blockQuotes ('"' :: s ++ t) = none := by
  -- with two characters behind the quote, what follows has no part in it
  cases s with
  | nil => cases h
  | cons d s =>
    cases s with
    | cons e s =>
      rw [← List.append_nil ('"' :: d :: e :: s)] at hnone
      exact after?_eq_none_congr (by simp [blockQuotes]) [] t hnone
    | nil =>
      cases t with
      | nil => rwa [List.append_nil]
      | cons e t =>
        have he : '"' ≠ e := fun heq => ht (congrArg some heq.symm)
        simp [blockQuotes, after?, he]

/-- What opens at the start of a text whose documentation is closed, unless the text and what follows it open
a block string together. -/
theorem exists_opening {c : Char} {s : Text} (h : DocsClosed (c :: s)) (hc : c = '#' ∨ c = '"') :
    ∃ region inside, readDocs .outside (c :: s) = readDocs region inside ∧
      ∀ t, t.head? ≠ some '"' → docRest? (c :: (s ++ t)) = some (restIn region (inside ++ t)) := by
  rcases hc with rfl | rfl
  · exact ⟨.comment, s, rfl, fun _ _ => rfl⟩
  cases hafter : after? blockQuotes ('"' :: s) with
  | some inside =>
    have hinside := after?_eq_some hafter
    refine ⟨.blockString, inside, ?_, fun t _ => ?_⟩
    · rw [hinside]
      simp [blockQuotes]
    · rw [docRest?_quote_eq, ← List.cons_append, hinside, List.append_assoc, after?_append]
      rfl
  | none =>
    have hread : readDocs .outside ('"' :: s) = readDocs .description s := by
      refine readDocs.eq_4 s ?_
      rintro inside rfl
      simp [blockQuotes, after?] at hafter
    refine ⟨.description, s, hread, fun t ht => ?_⟩
    have hnone : after? blockQuotes ('"' :: s ++ t) = none :=
      after?_blockQuotes_append (hread ▸ h) hafter ht
    rw [docRest?_quote_eq, ← List.cons_append, hnone]
    rfl

/-! ## Texts that a reader goes over -/

/-- A reader goes over a text in front of `t` and keeps `u`: regions of documentation are closed before
`t` begins. -/
inductive Passes (t : Text) : (s u : Text) → Prop
  | done : Passes t [] []
  | loose {c : Char} {s u : Text} (hcomment : c ≠ '#') (hquote : c ≠ '"') (h : Passes t s u) :
      Passes t (c :: s) (c :: u)
  | region {doc s u : Text} (hne : doc ≠ []) (hdoc : docRest? (doc ++ (s ++ t)) = some (s ++ t))
      (h : Passes t s u) : Passes t (doc ++ s) u

/-- A text whose documentation is closed is gone over, whatever follows: but a quote behind two quotes would
open a block string. -/
theorem passes_of_docsClosed {s t : Text} (h : DocsClosed s) (ht : t.head? ≠ some '"') :
    Passes t s (readDocs .outside s).1 := by
  -- on the length, since a region takes out more than one character
  induction hlength : s.length using Nat.strongRecOn generalizing s with
  | ind n ih =>
  subst hlength
  cases s with
  | nil => exact .done
  | cons c s =>
    by_cases hc : c = '#' ∨ c = '"'
    · obtain ⟨region, inside, hopen, hopened⟩ := exists_opening h hc
      unfold DocsClosed at h
      rw [hopen] at h ⊢
      obtain ⟨hread, happend⟩ := readDocs_of_closed h
      have hdoc := hopened t ht
      rw [happend] at hdoc
      generalize restIn region inside = rest at hread hdoc
      -- the region and what is left of the text make up the text
      obtain ⟨doc, hsplit⟩ := docRest?_suffix hdoc
      obtain rfl : doc ++ rest = s := List.append_cancel_right (by rwa [List.append_assoc])
      rw [hread] at h ⊢
      have hshorter : rest.length < (c :: (doc ++ rest)).length := by
        rw [List.length_cons, List.length_append]
        omega
      have hpasses := ih rest.length hshorter h rfl
      refine .region (List.cons_ne_nil c doc) ?_ hpasses
      simpa using hdoc
    · obtain ⟨hcomment, hquote⟩ := not_or.1 hc
      unfold DocsClosed at h
      rw [readDocs_cons hcomment hquote] at h ⊢
      exact .loose hcomment hquote (ih s.length (by simp) h rfl)

/-! ## Balanced interiors -/

/-- A loose character moves the depth by the brace that it is, if it is one. -/
theorem exists_depth {c : Char} {depth : Nat} (h : [c].count '}' ≤ depth + [c].count '{') :
    ∃ depth', Bit.depth? depth (.solid c) = some depth' ∧
      depth' + [c].count '}' = depth + [c].count '{' := by
  by_cases hopen : c = '{'
  · subst hopen
    exact ⟨depth + 1, rfl, rfl⟩
  by_cases hclose : c = '}'
  · subst hclose
    have hpos : 0 < depth := h
    refine ⟨depth - 1, ?_, Nat.sub_add_cancel hpos⟩
    simp [Bit.depth?, hpos.ne']
  · exact ⟨depth, by simp [Bit.depth?, hopen, hclose], by simp [hopen, hclose]⟩

/-- A block stays open up to the brace that closes it, `depth` further blocks deep. -/
theorem closeBlock_of_passes {s t u : Text} (h : Passes t s u) {depth : Nat}
    (hsane : ∀ front, front <+: u → front.count '}' ≤ depth + front.count '{') :
    closeBlock 0 depth (s ++ t) = s ++ closeBlock 0 (depth + u.count '{' - u.count '}') t := by
  induction h generalizing depth with
  | done => rfl
  | @loose c s u hcomment hquote _ ih =>
    have hcount (a : Char) (v : Text) : (c :: v).count a = [c].count a + v.count a := by
      rw [← List.singleton_append, List.count_append]
    obtain ⟨depth', hstep, hdepth⟩ := exists_depth (hsane [c] (List.prefix_append [c] u))
    have hbehind (front : Text) (hfront : front <+: u) :
        front.count '}' ≤ depth' + front.count '{' := by
      have hcons := hsane (c :: front) ((List.prefix_cons_inj c).2 hfront)
      rw [hcount '}' front, hcount '{' front] at hcons
      omega
    have hrest : depth + (c :: u).count '{' - (c :: u).count '}' =
        depth' + u.count '{' - u.count '}' := by
      rw [hcount '{' u, hcount '}' u]
      omega
    rw [List.cons_append, closeBlock_brace hcomment hquote hstep, ih hbehind, hrest, List.cons_append]
  | @region doc s u hne hdoc _ ih =>
    rw [List.append_assoc, closeBlock_documentation hne hdoc, ih hsane, List.append_assoc]

/-- A balanced interior stands between the braces of its block. -/
theorem closeBlock_of_balanced {s : Text} (hclosed : DocsClosed s)
    (h : IsBalanced (readDocs .outside s).1) (rest : Text) : closeBlock 0 0 (s ++ '}' :: rest) = s := by
  have hpasses := passes_of_docsClosed (t := '}' :: rest) hclosed (by simp)
  rw [closeBlock_of_passes hpasses (by simpa using h.sane), h.settled, Nat.zero_add, Nat.sub_self,
    closeBlock_closing, List.append_nil]

/-! ## Texts in front of a block -/

/-- No header begins in a text when `t` follows it. -/
def Headless (t : Text) : (before : Option Char) → Text → Prop
  | _, [] => True
  | before, c :: s => typeHeader before (c :: (s ++ t)) = none ∧ Headless t (some c) s

/-- A text in which no header begins has none in its two halves. -/
theorem headless_append {t s s' : Text} {before : Option Char} (h : Headless t before (s ++ s')) :
    Headless (s' ++ t) before s ∧ Headless t (s.getLast?.or before) s' := by
  induction s generalizing before with
  | nil => exact ⟨trivial, h⟩
  | cons c s ih =>
    rw [List.cons_append] at h
    obtain ⟨hnone, htail⟩ := h
    obtain ⟨hs, hs'⟩ := ih htail
    rw [List.append_assoc] at hnone
    exact ⟨⟨hnone, hs⟩, getLast?_cons_or c s before ▸ hs'⟩

/-- Documentation in which no header begins is passed over. -/
theorem blockFrom?_of_headless {s t : Text} {before : Option Char} (h : Headless t before s) :
    blockFrom? 0 s.length before (s ++ t) = blockFrom? 0 0 (s.getLast?.or before) t := by
  induction s generalizing before with
  | nil => rfl
  | cons c s ih =>
    rw [List.cons_append, List.length_cons, blockFrom?_of_none _ h.1, getLast?_cons_or]
    exact ih h.2

/-- A text in which no header begins is passed over. -/
theorem blockFrom?_of_passes {s t u : Text} (h : Passes t s u) {before : Option Char}
    (hheadless : Headless t before s) :
    blockFrom? 0 0 before (s ++ t) = blockFrom? 0 0 (s.getLast?.or before) t := by
  induction h generalizing before with
  | done => rfl
  | @loose c s u hcomment hquote _ ih =>
    obtain ⟨hnone, htail⟩ := hheadless
    rw [List.cons_append, blockFrom?_of_none 0 hnone, docBehind_of_plain hcomment hquote,
      getLast?_cons_or]
    exact ih htail
  | @region doc s u hne hdoc _ ih =>
    obtain ⟨hheadless, htail⟩ := headless_append hheadless
    obtain ⟨c, doc, rfl⟩ := List.exists_cons_of_ne_nil hne
    obtain ⟨hnone, hbehind⟩ := hheadless
    have hlength : docBehind 0 c (doc ++ (s ++ t)) = doc.length := by
      rw [List.cons_append] at hdoc
      simp [docBehind, hdoc]
    rw [List.append_assoc, List.cons_append, blockFrom?_of_none 0 hnone, hlength,
      blockFrom?_of_headless hbehind, ← getLast?_cons_or, ih htail, List.getLast?_append, Option.or_assoc]

/-- A header that begins above the end of a line begins with the word `type`. -/
theorem hasWord_of_typeHeader {front s t name inside : Text} (hlast : s.getLast? = some '\n')
    (h : typeHeader front.getLast? (s ++ t) = some (name, inside)) :
    HasWord "type".toList (front ++ s) := by
  rw [typeHeader_eq] at h
  split_ifs at h with hbefore
  obtain ⟨gap, hgap, h⟩ := Option.bind_eq_some_iff.1 h
  split_ifs at h with hblank
  -- the word ends above the end of the line, since it has no newline
  rcases List.append_eq_append_iff.1 (after?_eq_some hgap) with ⟨u, hu, -⟩ | ⟨back, hs, rfl⟩
  · have hnewline : '\n' ∈ "type".toList := by
      rw [hu]
      exact List.mem_append_left u (List.mem_of_getLast? hlast)
    exact absurd hnewline (by decide)
  · obtain ⟨d, back, rfl⟩ : ∃ d back', back = d :: back' := by
      refine List.exists_cons_of_ne_nil ?_
      rintro rfl
      rw [hs] at hlast
      exact absurd hlast (by decide)
    refine ⟨front, d :: back, ?_, by simpa using hbefore, ?_⟩
    · rw [hs, List.append_assoc]
    · exact isWord_of_isBlank hblank

/-- Without the word `type` there is no header. -/
theorem headless_of_not_hasWord (front : Text) {s : Text} (hnewline : s = [] ∨ s.getLast? = some '\n')
    (hword : ¬HasWord "type".toList (front ++ s)) (t : Text) : Headless t front.getLast? s := by
  induction s generalizing front with
  | nil => trivial
  | cons c s ih =>
    have hlast : (c :: s).getLast? = some '\n' := hnewline.resolve_left (List.cons_ne_nil c s)
    refine ⟨?_, ?_⟩
    · by_contra hheader
      obtain ⟨⟨name, inside⟩, hfound⟩ := Option.ne_none_iff_exists'.1 hheader
      exact hword (hasWord_of_typeHeader hlast hfound)
    · rw [← List.getLast?_concat (a := c) (l := front)]
      refine ih (front ++ [c]) ?_ ?_
      · cases s with
        | nil => exact .inl rfl
        | cons d s => exact .inr (by rwa [List.getLast?_cons_cons] at hlast)
      · simpa using hword

/-! ## The block -/

/-- The interior of a block is found between its braces, if it is balanced and what stands in front of the
block leaves no documentation open and does not have the word `type`. -/
theorem interior?_of_balanced {p name interior : Text} (hnewline : p = [] ∨ p.getLast? = some '\n')
    (hword : ¬HasWord "type".toList p) (hclosed : DocsClosed p) (hne : name ≠ [])
    (hname : ∀ c ∈ name, isWord c) (hdocs : DocsClosed interior)
    (hbalanced : IsBalanced (readDocs .outside interior).1) (rest : Text) :
    interior? (p ++ blockText name interior rest) = some interior := by
  have hbefore : (p.getLast?.or none).any isWord = (none : Option Char).any isWord := by
    rcases hnewline with rfl | hlast
    · rfl
    · rw [hlast]
      decide
  have hpasses := passes_of_docsClosed (t := blockText name interior rest) hclosed (by simp [blockText])
  have hblock : blockFrom? 0 0 none (p ++ blockText name interior rest) =
      some (interior ++ '}' :: rest) := by
    have hheadless : Headless (blockText name interior rest) none p :=
      headless_of_not_hasWord [] hnewline hword _
    rw [blockFrom?_of_passes hpasses hheadless,
      blockFrom?_congr hbefore, blockFrom?_blockText hne hname]
  rw [interior?, hblock, Option.map_some, closeBlock_of_balanced hdocs hbalanced]

/-- A block is cut out exactly: its interior is found behind any text that leaves no documentation open and
does not have the word `type`; and in any text whatever, all positions that the scanner cuts at are between
characters, and its depth never goes below zero. -/
theorem interior?_exact :
    (∀ p name interior rest : Text, (p = [] ∨ p.getLast? = some '\n') → ¬HasWord "type".toList p →
      DocsClosed p → name ≠ [] → (∀ c ∈ name, isWord c) → DocsClosed interior →
      IsBalanced (readDocs .outside interior).1 →
        interior? (p ++ blockText name interior rest) = some interior) ∧
    ∀ s, interiorBytes s = .ok ((interior? s).map bytesOf) := by
  refine ⟨?_, interiorBytes_eq⟩
  intro p name interior rest hnewline hword hclosed hne hname hdocs hbalanced
  exact interior?_of_balanced hnewline hword hclosed hne hname hdocs hbalanced rest

private def documentedFront : Text :=
  "# types \x7b\n\"\"\" \x7d \"\"\" \"a \\\" \x7b\"\n".toList

private def documentedInterior : Text :=
  "\n # \x7da\n a(x: X = \x7bk: 1\x7d): \"\\é \x7d\\\"\" R! \"\"\"\x7d\"\"\"".toList

/-- Braces, quotes and the word `types` in documentation of all three kinds, an escaped character of two
bytes, and braces that count. -/
theorem interior?_exact_documented :
    interior? (documentedFront ++ blockText "Query".toList documentedInterior "\n\x7d".toList) =
      some documentedInterior := by
  unfold documentedFront documentedInterior
  repeat rw [String.toList_ofList]
  exact interior?_exact.1 _ _ _ _ (by decide) (by decide) (by decide) (by decide) (by decide)
    (by decide) (by decide)

end Scaffold.Schema
