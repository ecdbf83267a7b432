import Scaffold.Proofs.Schema.Headers

/-!
# Comments before a type block

Headers are told apart without regard to documentation, and only then those that begin inside it are
passed over. So a comment that ends with the word `type` can begin a header with the text below it: if
that header ends at the brace where the first block of the text opens, the block is not found. No other
comment lines change which block is found (`interior?_commentLines_iff`).

A walk over the text is followed by its counter of characters that belong to a header: behind a comment
line it is 0, or what a header from the end of the comment takes of the text below
(`blockFrom?_commentLine`); and such a header swallows either the first block or nothing that counts
(`blockFrom?_of_brace`).
-/

namespace Scaffold.Schema

open Text

/-! ## Headers and lines -/

/-- Whether a text is the word `type` with nothing but white space behind it. -/
def isTypeWord (before : Option Char) (s : Text) : Bool :=
  !before.any isWord && (after? "type".toList s).any (·.all isBlank)

/-- White space in front of a name does not count. -/
private theorem nameAndInside?_append_of_blank {gap : Text} (h : ∀ c ∈ gap, isBlank c) (s : Text) :
    nameAndInside? (gap ++ s) = nameAndInside? s := by
  unfold nameAndInside?
  rw [List.dropWhile_append_of_pos h]

/-- A name that stands before the end of the line has its brace there, or none. -/
private theorem nameAndInside?_append_newline {s : Text} (h : ¬∀ c ∈ s, isBlank c) (t : Text) :
    nameAndInside? (s ++ '\n' :: t) =
      (nameAndInside? s).map fun (name, inside) => (name, inside ++ '\n' :: t) := by
  have hdrop : (s ++ '\n' :: t).dropWhile isBlank = s.dropWhile isBlank ++ '\n' :: t := by
    have hsome : (s.dropWhile isBlank).isEmpty = false := by
      simpa [List.isEmpty_iff] using h
    rw [List.dropWhile_append, hsome]
    rfl
  -- the search for the brace stops at the end of the line
  have hline (rest : Text) : (rest ++ '\n' :: t).dropWhile (fun c => c ≠ '{' && c ≠ '\n') =
      rest.dropWhile (fun c => c ≠ '{' && c ≠ '\n') ++ '\n' :: t :=
    dropWhile_append_cons (by decide) rest t
  unfold nameAndInside?
  rw [hdrop, word?_append_cons (by decide)]
  cases word? (s.dropWhile isBlank) with
  | none => rfl
  | some found =>
    obtain ⟨name, rest⟩ := found
    simp only [Option.map_some, Option.bind_eq_bind, Option.bind_some, hline]
    cases rest.dropWhile (fun c => c ≠ '{' && c ≠ '\n') with
    | nil => rfl
    | cons c inside => by_cases hc : c = '{' <;> simp [hc]

/-- A header stays on its line, but for the word `type` at the end of the line: the name can stand
further down. -/
theorem typeHeader_append_newline (before : Option Char) (s t : Text) :
    typeHeader before (s ++ '\n' :: t) =
      if isTypeWord before s then nameAndInside? t
      else (typeHeader before s).map fun (name, inside) => (name, inside ++ '\n' :: t) := by
  rw [typeHeader_eq, typeHeader_eq, after?_append_cons (by decide)]
  unfold isTypeWord
  cases before.any isWord with
  | true => rfl
  | false =>
    cases after? "type".toList s with
    | none => rfl
    | some gap =>
      simp only [Option.map_some, Option.bind_some, Option.any_some, Bool.not_false, Bool.true_and,
        Bool.false_eq_true, if_false]
      -- the name is looked for behind the white space: below the newline if there is nothing else above it
      by_cases hgap : ∀ c ∈ gap, isBlank c
      · have hhead : (gap ++ '\n' :: t).head?.any isBlank := by
          cases gap with
          | nil => rfl
          | cons c gap => simpa using hgap c List.mem_cons_self
        rw [if_pos hhead, if_pos (List.all_eq_true.2 hgap), nameAndInside?_append_of_blank hgap]
        have hnewline : ∀ c ∈ ['\n'], isBlank c := by decide
        exact nameAndInside?_append_of_blank hnewline t
      · have hhead : (gap ++ '\n' :: t).head? = gap.head? := by
          cases gap with
          | nil => simp at hgap
          | cons c gap => rfl
        rw [hhead, if_neg (mt List.all_eq_true.1 hgap), nameAndInside?_append_newline hgap]
        cases gap.head?.any isBlank <;> rfl

/-- What belongs to a header and to documentation is passed over. -/
private theorem blockFrom?_append (header doc : Nat) (before : Option Char) (s t : Text) :
    blockFrom? (s.length + header) (s.length + doc) before (s ++ t) =
      blockFrom? header doc (s.getLast?.or before) t := by
  induction s generalizing before with
  | nil => simp
  | cons c s ih =>
    have hstep (n : Nat) : (c :: s).length + n = s.length + n + 1 := by
      rw [List.length_cons]
      omega
    rw [getLast?_cons_or, ← ih (some c), hstep, hstep, List.cons_append, blockFrom?_succ]
    rfl

/-! ## Headers that take up a beginning of the text -/

/-- Nothing changes if the characters up to the first brace are taken for a header, unless the block of
the text opens at that brace. -/
theorem blockFrom?_of_brace {s : Text} (hs : '{' ∉ s) (inside : Text) (doc : Nat)
    (before : Option Char) :
    blockFrom? 0 doc before (s ++ '{' :: inside) = some inside ∨
      blockFrom? (s.length + 1) doc before (s ++ '{' :: inside) =
        blockFrom? 0 doc before (s ++ '{' :: inside) := by
  have hend {s name rest : Text} (hs : '{' ∉ s) {before : Option Char}
      (h : typeHeader before (s ++ '{' :: inside) = some (name, rest)) : rest = inside := by
    have hdrop := dropWhile_of_typeHeader h
    rw [dropWhile_ne_append hs (by simp)] at hdrop
    exact (List.cons.inj hdrop).2.symm
  -- a header in front of the brace ends with it, since `s` has no other
  induction s generalizing doc before with
  | nil =>
    right
    have hnone : typeHeader before ('{' :: inside) = none := by
      rw [typeHeader_eq]
      simp [after?]
    rw [List.nil_append, blockFrom?_of_none doc hnone, List.length_nil, blockFrom?_succ]
  | cons c s ih =>
    have hs' : '{' ∉ s := fun h => hs (List.mem_cons_of_mem c h)
    rw [List.cons_append, List.length_cons, blockFrom?_succ]
    cases hfound : typeHeader before (c :: (s ++ '{' :: inside)) with
    | none =>
      rw [blockFrom?_of_none doc hfound]
      exact ih hs' _ _
    | some found =>
      obtain ⟨name, rest⟩ := found
      obtain rfl := hend (s := c :: s) hs hfound
      cases doc with
      | zero => exact .inl (blockFrom?_of_some hfound)
      | succ doc =>
        right
        rw [blockFrom?_of_some_succ doc hfound]
        have hlength : (s ++ '{' :: rest).length - rest.length = s.length + 1 := by simp; omega
        rw [hlength]
        rfl

/-! ## Comment lines -/

/-- Whether a text ends with the word `type`, up to white space. -/
def endsInType : (before : Option Char) → Text → Bool
  | _, [] => false
  | before, c :: s => isTypeWord before (c :: s) || endsInType (some c) s

/-- How many characters of `below` belong to a header that begins at the end of a comment above. -/
def takenBelow (before : Option Char) (comment below : Text) : Nat :=
  if endsInType before comment then
    (nameAndInside? below).elim 0 fun (_, inside) => below.length - inside.length
  else 0

/-- How a text ends is told behind its last brace. -/
private theorem endsInType_append (s t : Text) (before : Option Char) :
    endsInType before (s ++ '{' :: t) = endsInType (some '{') t := by
  have hword (s : Text) (before : Option Char) : isTypeWord before (s ++ '{' :: t) = false := by
    unfold isTypeWord
    rw [after?_append_cons (by decide)]
    have hbrace : isBlank '{' = false := by decide
    cases after? "type".toList s <;> simp [hbrace]
  induction s generalizing before with
  | nil => rw [List.nil_append, endsInType, ← List.nil_append ('{' :: t), hword, Bool.false_or]
  | cons c s ih =>
    have hfirst := hword (c :: s) before
    rw [List.cons_append] at hfirst
    rw [List.cons_append, endsInType, hfirst, ih, Bool.false_or]

/-- The end of a line opens no documentation. -/
private theorem docBehind_newline (s : Text) : docBehind 0 '\n' s = 0 := by
  simp [docBehind, docRest?_eq_none]

section

variable {before : Option Char} {c : Char} {s below name inside : Text}

/-- A header from the end of a comment goes on below. -/
private theorem blockFrom?_typeWord (hword : isTypeWord before (c :: s))
    (hname : nameAndInside? below = some (name, inside)) :
    blockFrom? 0 (c :: s).length before (c :: s ++ '\n' :: below) =
      blockFrom? (below.length - inside.length) 0 (some '\n') below := by
  have hfound : typeHeader before (c :: (s ++ '\n' :: below)) = some (name, inside) := by
    rw [← List.cons_append, typeHeader_append_newline, if_pos hword, hname]
  have hle : inside.length ≤ below.length := by
    have hdrop := (List.dropWhile_suffix (l := below) (· ≠ '{')).length_le
    rw [dropWhile_of_nameAndInside? hname, List.length_cons] at hdrop
    omega
  have hlength : (s ++ '\n' :: below).length - inside.length =
      s.length + (below.length - inside.length + 1) := by
    rw [List.length_append, List.length_cons]
    omega
  rw [List.cons_append, List.length_cons, blockFrom?_of_some_succ s.length hfound, hlength]
  calc blockFrom? (s.length + (below.length - inside.length + 1)) s.length (some c) (s ++ '\n' :: below)
      = blockFrom? (below.length - inside.length + 1) 0 (s.getLast?.or (some c)) ('\n' :: below) :=
        blockFrom?_append _ 0 _ s _
    _ = blockFrom? (below.length - inside.length) 0 (some '\n') below := by
        rw [blockFrom?_succ, docBehind_newline]

/-- A header that begins in a comment and ends in it. -/
private theorem blockFrom?_headerInComment (below : Text) (hword : isTypeWord before (c :: s) = false)
    (h : typeHeader before (c :: s) = some (name, inside)) :
    blockFrom? 0 (c :: s).length before (c :: s ++ '\n' :: below) =
        blockFrom? 0 inside.length (some '{') (inside ++ '\n' :: below) ∧
      endsInType before (c :: s) = endsInType (some '{') inside := by
  have hfound : typeHeader before (c :: (s ++ '\n' :: below)) =
      some (name, inside ++ '\n' :: below) := by
    rw [← List.cons_append, typeHeader_append_newline, hword, h]
    rfl
  obtain ⟨front, rfl⟩ : ∃ front, s = front ++ '{' :: inside := by
    have hc : c ≠ '{' := by
      rintro rfl
      simp [typeHeader_eq, after?] at h
    have hdrop := dropWhile_of_typeHeader h
    rw [List.dropWhile_cons_of_pos (by simpa using hc)] at hdrop
    exact ⟨s.takeWhile (· ≠ '{'), by rw [← hdrop, List.takeWhile_append_dropWhile]⟩
  have hlength : (front ++ '{' :: inside ++ '\n' :: below).length -
      (inside ++ '\n' :: below).length = (front ++ ['{']).length + 0 := by
    simp
    omega
  have hdoc : (front ++ '{' :: inside).length = (front ++ ['{']).length + inside.length := by
    simp
    omega
  have hsplit : front ++ '{' :: inside ++ '\n' :: below =
      front ++ ['{'] ++ (inside ++ '\n' :: below) := by
    simp
  constructor
  · rw [List.cons_append, List.length_cons, blockFrom?_of_some_succ _ hfound, hlength, hdoc, hsplit,
      blockFrom?_append, List.getLast?_concat]
    rfl
  · exact endsInType_append (c :: front) inside before

end

/-- Through a comment: all headers that begin in it end in it, except one that begins at its end. -/
private theorem blockFrom?_comment (comment : Text) (before : Option Char) (below : Text) :
    blockFrom? 0 comment.length before (comment ++ '\n' :: below) =
      blockFrom? (takenBelow before comment below) 0 (some '\n') below := by
  -- on the length of the comment: a header inside it is gone over as a whole
  induction hlen : comment.length using Nat.strong_induction_on generalizing comment before with
  | h n ih =>
  subst hlen
  cases comment with
  | nil =>
    have hnone : typeHeader before ('\n' :: below) = none := by
      rw [typeHeader_eq]
      simp [after?]
    rw [List.length_nil, List.nil_append, blockFrom?_of_none 0 hnone, docBehind_newline]
    rfl
  | cons c s =>
    have hfound := typeHeader_append_newline before (c :: s) below
    rw [List.cons_append] at hfound
    by_cases hword : isTypeWord before (c :: s)
    · have hends : endsInType before (c :: s) := by simp [endsInType, hword]
      -- the comment ends in the word `type`, so that the name is looked for below
      cases hname : nameAndInside? below with
      | none =>
        rw [if_pos hword, hname] at hfound
        have htaken (before : Option Char) (comment : Text) : takenBelow before comment below = 0 := by
          simp [takenBelow, hname]
        have htail := ih s.length (by simp) s (some c) rfl
        rw [htaken] at htail
        rw [List.cons_append, blockFrom?_of_none _ hfound, htaken]
        exact htail
      | some found =>
        rw [blockFrom?_typeWord hword hname, takenBelow, if_pos hends, hname]
        rfl
    · cases hheader : typeHeader before (c :: s) with
      | none =>
        have hends : endsInType before (c :: s) = endsInType (some c) s := by
          simp [endsInType, hword]
        rw [if_neg hword, hheader] at hfound
        rw [List.cons_append, blockFrom?_of_none _ hfound, takenBelow, hends]
        exact ih s.length (by simp) s (some c) rfl
      | some found =>
        obtain ⟨name, inside⟩ := found
        obtain ⟨hwalk, hends⟩ :=
          blockFrom?_headerInComment below (by simpa using hword) hheader
        rw [hwalk, takenBelow, hends]
        exact ih inside.length (length_of_typeHeader hheader) inside (some '{') rfl

/-- A comment line is passed over, with what a header from its end takes of the text below. -/
theorem blockFrom?_commentLine {comment : Text} (h : '\n' ∉ comment) (before : Option Char)
    (below : Text) :
    blockFrom? 0 0 before ('#' :: comment ++ '\n' :: below) =
      blockFrom? (takenBelow (some '#') comment below) 0 none below := by
  have hnone : typeHeader before ('#' :: (comment ++ '\n' :: below)) = none := by
    simp [typeHeader_eq, after?]
  have hdoc : docBehind 0 '#' (comment ++ '\n' :: below) = comment.length := by
    have hdrop : (comment ++ '\n' :: below).dropWhile (· ≠ '\n') = '\n' :: below :=
      dropWhile_ne_append h (by simp)
    unfold docBehind docRest?
    simp only [hdrop, Option.elim_some, List.length_append, List.length_cons]
    omega
  rw [List.cons_append, blockFrom?_of_none 0 hnone, hdoc, blockFrom?_comment]
  exact blockFrom?_congr (by decide) _ _ _

/-- Comment lines as they are written, each with its newline. -/
def commentLines (comments : List Text) : Text :=
  comments.flatMap fun comment => '#' :: comment ++ ['\n']

/-- What follows the opening brace of the first type block of a text. -/
def firstBlock? (s : Text) : Option Text := blockFrom? 0 0 none s

/-- The interior of a text is its first block up to the brace that closes it. -/
theorem interior?_eq (s : Text) : interior? s = (firstBlock? s).map (closeBlock 0 0) := rfl

/-- Only the last of the comment lines above a text reaches into the text. -/
theorem firstBlock?_commentLines {comments : List Text} (h : ∀ comment ∈ comments, '\n' ∉ comment)
    (t : Text) :
    firstBlock? (commentLines comments ++ t) =
      blockFrom? (comments.getLast?.elim 0 fun comment => takenBelow (some '#') comment t) 0 none t := by
  induction comments with
  | nil => rfl
  | cons comment rest ih =>
    obtain ⟨hcomment, hrest⟩ := List.forall_mem_cons.1 h
    have hline : commentLines (comment :: rest) ++ t =
        '#' :: comment ++ '\n' :: (commentLines rest ++ t) := by
      simp [commentLines]
    rw [hline, firstBlock?, blockFrom?_commentLine hcomment]
    cases rest with
    | nil => rfl
    | cons next rest =>
      -- no name stands where the next comment begins
      have hnone : takenBelow (some '#') comment (commentLines (next :: rest) ++ t) = 0 :=
        ite_self 0
      rw [hnone, List.getLast?_cons_cons]
      exact ih hrest

/-- A header that reaches into a text up to its first brace takes its block, or nothing that counts. -/
theorem blockFrom?_taken_iff {t name inside : Text} (h : nameAndInside? t = some (name, inside)) :
    blockFrom? (t.length - inside.length) 0 none t = firstBlock? t ↔ firstBlock? t ≠ some inside := by
  have hdrop := dropWhile_of_nameAndInside? h
  have hsplit : t = t.takeWhile (· ≠ '{') ++ '{' :: inside := by
    rw [← hdrop, List.takeWhile_append_dropWhile]
  have hbrace : '{' ∉ t.takeWhile (· ≠ '{') := fun hmem => by
    simpa using List.mem_takeWhile_imp hmem
  have hlength : t.length - inside.length = (t.takeWhile (· ≠ '{')).length + 1 := by
    have := congrArg List.length hsplit
    rw [List.length_append, List.length_cons] at this
    omega
  constructor
  · intro heq hfirst
    rw [hfirst] at heq
    have := length_of_blockFrom? heq
    omega
  · intro hne
    have hcases := blockFrom?_of_brace hbrace inside 0 none
    rw [← hsplit, ← hlength] at hcases
    exact hcases.resolve_left hne

/-- Whether the comment right above a text ends with the word `type`, and the first name below it is
followed on its line by the brace where the first block opens. -/
def Hides (comments : List Text) (t : Text) : Prop :=
  ∃ comment ∈ comments.getLast?, endsInType (some '#') comment ∧
    ∃ name inside, nameAndInside? t = some (name, inside) ∧ firstBlock? t = some inside

/-- Comment lines above a text change the block that is found in it only if they hide it. -/
theorem interior?_commentLines_iff {comments : List Text}
    (h : ∀ comment ∈ comments, '\n' ∉ comment) (t : Text) :
    (firstBlock? (commentLines comments ++ t) = firstBlock? t ↔ ¬Hides comments t) ∧
      (¬Hides comments t → ∀ interior, interior? t = some interior →
        interior? (commentLines comments ++ t) = some interior) := by
  have hblock : firstBlock? (commentLines comments ++ t) = firstBlock? t ↔ ¬Hides comments t := by
    rw [firstBlock?_commentLines h t]
    cases hlast : comments.getLast? with
    | none => simp [Hides, hlast, firstBlock?]
    | some comment =>
      simp only [Option.elim_some, takenBelow, Hides, hlast, Option.mem_def, Option.some.injEq,
        exists_eq_left']
      by_cases hends : endsInType (some '#') comment
      · cases hname : nameAndInside? t with
        | none => simp [hends, firstBlock?]
        | some found =>
          obtain ⟨name, inside⟩ := found
          simp [hends, blockFrom?_taken_iff hname]
      · simp [hends, firstBlock?]
  refine ⟨hblock, fun hhides interior hinterior => ?_⟩
  rw [interior?_eq, hblock.2 hhides, ← interior?_eq, hinterior]

private def queryBlock : Text := "type Query \x7b\n  a: A!\n\x7d\n".toList

private theorem interior?_queryBlock : interior? queryBlock = some "\n  a: A!\n".toList := by
  unfold queryBlock
  repeat rw [String.toList_ofList]
  decide

/-- A comment with a header of its own, and one that ends with another word than `type`. -/
theorem interior?_commentLines_iff_headers :
    interior? (commentLines [" type Old \x7b".toList, " the types".toList] ++ queryBlock) =
      some "\n  a: A!\n".toList := by
  have hcomments : ∀ comment ∈ [" type Old \x7b".toList, " the types".toList], '\n' ∉ comment := by
    decide
  have hhides : ¬Hides [" type Old \x7b".toList, " the types".toList] queryBlock := by
    rintro ⟨comment, ⟨⟩, hends, -⟩
    exact absurd hends (by decide)
  exact (interior?_commentLines_iff hcomments queryBlock).2 hhides _ interior?_queryBlock

/-- A comment that ends with the word `type` hides the block. -/
theorem interior?_hidden :
    interior? queryBlock = some "\n  a: A!\n".toList ∧
      interior? (commentLines [" the root type".toList] ++ queryBlock) = none := by
  refine ⟨interior?_queryBlock, ?_⟩
  unfold queryBlock
  repeat rw [String.toList_ofList]
  decide

end Scaffold.Schema
