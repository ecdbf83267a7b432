import Scaffold.Proofs.Schema.Interior

/-!
# Headers of type blocks

A header is the word `type` with a name and a brace on its line behind it (`typeHeader_eq`), and it ends at
the first brace (`dropWhile_of_typeHeader`). The walk that looks for the first header outside of
documentation has one equation for each thing that can stand at its cursor (`blockFrom?_succ`,
`blockFrom?_of_none`, `blockFrom?_of_some` and `blockFrom?_of_some_succ`).
-/

namespace Scaffold.Schema

open Text

/-! ## Headers -/

/-- What follows the word `type` in a header: the name, and the text behind the brace on its line. -/
def nameAndInside? (s : Text) : Option (Text × Text) := do
  let (name, rest) ← word? (s.dropWhile isBlank)
  match rest.dropWhile (fun c => c ≠ '{' && c ≠ '\n') with
  | '{' :: inside => some (name, inside)
  | _ => none

/-- A header goes on with a name, and with a brace on the same line. -/
theorem nameAndInside?_eq (s : Text) : nameAndInside? s =
    (word? (s.dropWhile isBlank)).bind fun (name, rest) =>
      (after? ['{'] (rest.dropWhile fun c => c ≠ '{' && c ≠ '\n')).map fun inside => (name, inside) := by
  unfold nameAndInside?
  cases word? (s.dropWhile isBlank) with
  | none => rfl
  | some found =>
    simp only [Option.bind_eq_bind, Option.bind_some]
    cases found.2.dropWhile (fun c => c ≠ '{' && c ≠ '\n') with
    | nil => rfl
    | cons c inside =>
      by_cases hc : c = '{'
      · subst hc
        rfl
      · have hc' : '{' ≠ c := fun heq => hc heq.symm
        simp [after?, hc, hc']

/-- A header begins with the word `type` and white space. -/
theorem typeHeader_eq (before : Option Char) (s : Text) :
    typeHeader before s = if before.any isWord then none else
      (after? "type".toList s).bind fun gap =>
        if gap.head?.any isBlank then nameAndInside? gap else none := by
  unfold typeHeader
  cases before.any isWord
  · cases after? "type".toList s with
    | none => rfl
    | some gap =>
      simp only [Option.bind_eq_bind, Option.bind_some, Bool.false_eq_true, if_false]
      cases gap.head?.any isBlank <;> rfl
  · rfl

private theorem dropWhile_dropWhile {p q : Char → Bool} (h : ∀ c, q c → p c) (s : Text) :
    (s.dropWhile q).dropWhile p = s.dropWhile p := by
  induction s with
  | nil => rfl
  | cons c s ih =>
    by_cases hc : q c
    · rw [List.dropWhile_cons_of_pos hc, List.dropWhile_cons_of_pos (h c hc), ih]
    · rw [List.dropWhile_cons_of_neg hc]

/-- A header ends at the first brace behind it. -/
theorem dropWhile_of_nameAndInside? {s name inside : Text}
    (h : nameAndInside? s = some (name, inside)) : s.dropWhile (· ≠ '{') = '{' :: inside := by
  obtain ⟨⟨name, rest⟩, hword, h⟩ := Option.bind_eq_some_iff.1 h
  have hrest : rest = (s.dropWhile isBlank).dropWhile isWord := by
    unfold word? at hword
    split at hword
    · cases hword
    · exact (Prod.mk.inj (Option.some.inj hword)).2.symm
  have hbrace : rest.dropWhile (fun c => c ≠ '{' && c ≠ '\n') = '{' :: inside := by
    dsimp only at h
    split at h
    · next inside' hdrop =>
      obtain ⟨-, rfl⟩ := Prod.mk.inj (Option.some.inj h)
      exact hdrop
    · cases h
  -- neither the white space, nor the name, nor what is behind it on its line has a brace
  calc s.dropWhile (· ≠ '{')
      = (s.dropWhile isBlank).dropWhile (· ≠ '{') :=
        (dropWhile_dropWhile (fun c hc => by simpa using (isBlank_brace hc).1) s).symm
    _ = rest.dropWhile (· ≠ '{') := by
        rw [hrest]
        refine (dropWhile_dropWhile (fun c hc => ?_) _).symm
        have hne : c ≠ '{' := by
          rintro rfl
          exact absurd hc (by decide)
        simpa using hne
    _ = (rest.dropWhile (fun c => c ≠ '{' && c ≠ '\n')).dropWhile (· ≠ '{') :=
        (dropWhile_dropWhile (fun c hc => by simp_all) rest).symm
    _ = '{' :: inside := by
        rw [hbrace]
        rfl

/-- The inside of a block begins behind the first brace of its header. -/
theorem dropWhile_of_typeHeader {before : Option Char} {s name inside : Text}
    (h : typeHeader before s = some (name, inside)) : s.dropWhile (· ≠ '{') = '{' :: inside := by
  rw [typeHeader_eq] at h
  split_ifs at h
  obtain ⟨gap, hgap, h⟩ := Option.bind_eq_some_iff.1 h
  split_ifs at h
  rw [after?_eq_some hgap, List.dropWhile_append_of_pos (by decide), dropWhile_of_nameAndInside? h]

/-! ## Steps of the walk -/

/-- How many of the characters behind `c` belong to documentation. -/
def docBehind (doc : Nat) (c : Char) (s : Text) : Nat :=
  match doc with
  | 0 => (docRest? (c :: s)).elim 0 (s.length - ·.length)
  | doc + 1 => doc

/-- Behind a character that opens no documentation, there is one character less to skip. -/
theorem docBehind_of_plain {c : Char} (hcomment : c ≠ '#') (hquote : c ≠ '"') (doc : Nat) (s : Text) :
    docBehind doc c s = doc - 1 := by
  cases doc with
  | zero => simp [docBehind, docRest?_eq_none hcomment hquote]
  | succ doc => rfl

section

variable (header doc : Nat) {before : Option Char} {c : Char} {s name inside : Text}

theorem blockFrom?_nil (before : Option Char) : blockFrom? header doc before [] = none := by
  rw [blockFrom?.eq_def]

/-- Within a header, no other one is looked for. -/
theorem blockFrom?_succ (before : Option Char) (c : Char) (s : Text) :
    blockFrom? (header + 1) doc before (c :: s) =
      blockFrom? header (docBehind doc c s) (some c) s := by
  rw [blockFrom?.eq_def]
  cases doc <;> simp [docBehind]

/-- Where no header begins, the search goes on at the next character. -/
theorem blockFrom?_of_none (h : typeHeader before (c :: s) = none) :
    blockFrom? 0 doc before (c :: s) = blockFrom? 0 (docBehind doc c s) (some c) s := by
  rw [blockFrom?.eq_def]
  cases doc <;> simp [docBehind, h]

/-- The first header outside of documentation is taken. -/
theorem blockFrom?_of_some (h : typeHeader before (c :: s) = some (name, inside)) :
    blockFrom? 0 0 before (c :: s) = some inside := by
  rw [blockFrom?.eq_def]
  simp [h]

/-- A header that begins inside documentation is passed over, but it counts as a header. -/
theorem blockFrom?_of_some_succ (h : typeHeader before (c :: s) = some (name, inside)) :
    blockFrom? 0 (doc + 1) before (c :: s) =
      blockFrom? (s.length - inside.length) doc (some c) s := by
  rw [blockFrom?.eq_def]
  simp [h]

end

/-- At a character that begins neither a header nor documentation, the counters go down by one. -/
theorem blockFrom?_cons {c : Char} (ht : c ≠ 't') (hcomment : c ≠ '#') (hquote : c ≠ '"')
    (header doc : Nat) (before : Option Char) (s : Text) :
    blockFrom? header doc before (c :: s) = blockFrom? (header - 1) (doc - 1) (some c) s := by
  have hdoc := docBehind_of_plain hcomment hquote doc s
  have hnone : typeHeader before (c :: s) = none := by
    have hafter : after? "type".toList (c :: s) = none := if_neg (Ne.symm ht)
    rw [typeHeader_eq, hafter]
    simp
  cases header with
  | zero => rw [blockFrom?_of_none doc hnone, hdoc]
  | succ header => rw [blockFrom?_succ, hdoc, Nat.add_sub_cancel]

/-- What is inside a block is shorter than the text with its header. -/
theorem length_of_typeHeader {before : Option Char} {s name inside : Text}
    (h : typeHeader before s = some (name, inside)) : inside.length < s.length := by
  have hle := (List.dropWhile_suffix (l := s) (· ≠ '{')).length_le
  rw [dropWhile_of_typeHeader h, List.length_cons] at hle
  omega

/-- A block that is found begins behind all that belongs to an earlier header. -/
theorem length_of_blockFrom? {header doc : Nat} {before : Option Char} {s inside : Text}
    (h : blockFrom? header doc before s = some inside) : inside.length + header < s.length := by
  -- `header` counts characters of the text that are still to be gone over
  induction s generalizing header doc before with
  | nil => simp [blockFrom?_nil] at h
  | cons c s ih =>
    rw [List.length_cons]
    cases header with
    | succ header =>
      rw [blockFrom?_succ] at h
      have := ih h
      omega
    | zero =>
      cases hfound : typeHeader before (c :: s) with
      | none =>
        rw [blockFrom?_of_none doc hfound] at h
        have := ih h
        omega
      | some found =>
        obtain ⟨name, inside'⟩ := found
        cases doc with
        | zero =>
          rw [blockFrom?_of_some hfound] at h
          obtain rfl := Option.some.inj h
          exact length_of_typeHeader hfound
        | succ doc =>
          rw [blockFrom?_of_some_succ doc hfound] at h
          have := ih h
          omega

/-- Of what stands before a text, only counts whether it is part of a word. -/
theorem blockFrom?_congr {before before' : Option Char}
    (h : before.any isWord = before'.any isWord) (header doc : Nat) (s : Text) :
    blockFrom? header doc before s = blockFrom? header doc before' s := by
  cases s with
  | nil => rw [blockFrom?_nil, blockFrom?_nil]
  | cons c s =>
    rw [blockFrom?.eq_def, blockFrom?.eq_def]
    simp only [typeHeader_eq, h]

end Scaffold.Schema
