import Scaffold.Go.Lexeme
import Scaffold.Proofs.Text.Cutting

/-!
# Reading a Go source piece by piece

A lexeme that was read off one source is read again off another one, as long as what stands behind it
starts with the same character. `Reads ls s` says that the lexemes `ls` are read off the front of
`textOf ls ++ s`; with it, the lexemes of a text that is put together from pieces are put together
from the lexemes of the pieces (`lex_textOf_append`).
-/

namespace Scaffold.Go

open Text

/-! ## One lexeme -/

/-- Skipping characters is lexing what is left. -/
theorem lexFrom_eq_lex_drop (skip : Nat) (s : Text) : lexFrom skip s = lex (s.drop skip) := by
  induction skip generalizing s with
  | zero => rfl
  | succ skip ih =>
    cases s with
    | nil => simp [lexFrom, lex]
    | cons c s => rw [lexFrom, ih, List.drop_succ_cons]

theorem lex_nil : lex [] = [] := rfl

/-- The lexemes of a text: the next one, and those of the rest. -/
theorem lex_cons (c : Char) (s : Text) :
    lex (c :: s) = ⟨(nextLexeme c s).1, c :: (nextLexeme c s).2⟩ ::
      lex (s.drop (nextLexeme c s).2.length) := by
  rw [← lexFrom_eq_lex_drop]
  rfl

/-! ### The grammar of lexemes -/

/-- What a lexeme of a kind looks like: its first character, the rest of it, and the text that may
follow. -/
inductive Shape : LexemeKind → Char → Text → Text → Prop
  | blank {c : Char} {tail s : Text} (hc : isGap c) (htail : ∀ d ∈ tail, isGap d)
      (hs : ∀ d ∈ s.head?, isGap d = false) : Shape .blank c tail s
  | word {c : Char} {tail s : Text} (hc : isWordChar c) (htail : ∀ d ∈ tail, isWordChar d)
      (hs : ∀ d ∈ s.head?, isWordChar d = false) : Shape .word c tail s
  | quoted {q : Char} {tail s : Text} (hq : q = '"' ∨ q = '\'')
      (htail : quotedTail q (tail ++ s) = tail) : Shape .literal q tail s
  | raw {tail s : Text} (htail : through ['`'] (tail ++ s) = tail) : Shape .literal '`' tail s
  | line {tail s : Text} (htail : ∀ d ∈ tail, d ≠ '\n') (hs : ∀ d ∈ s.head?, d = '\n') :
      Shape .comment '/' ('/' :: tail) s
  | general {tail s : Text} (htail : through "*/".toList (tail ++ s) = tail) :
      Shape .comment '/' ('*' :: tail) s
  | mark {c : Char} {s : Text} (hgap : isGap c = false) (hword : isWordChar c = false)
      (hquote : c ≠ '"' ∧ c ≠ '\'' ∧ c ≠ '`') (hs : c = '/' → ∀ d ∈ s.head?, d ≠ '/' ∧ d ≠ '*') :
      Shape (.mark c) c [] s

/-- No gap is part of a word. -/
theorem isWordChar_of_isGap {c : Char} (h : isGap c) : isWordChar c = false := by
  simp only [isGap, Bool.or_eq_true, decide_eq_true_eq] at h
  rcases h with ((rfl | rfl) | rfl) | rfl <;> decide

/-- When the longest prefix of a kind ends where a text does. -/
theorem takeWhile_append_eq_left {p : Char → Bool} {tail s : Text} :
    (tail ++ s).takeWhile p = tail ↔ (∀ d ∈ tail, p d) ∧ ∀ d ∈ s.head?, p d = false := by
  induction tail with
  | nil => cases s <;> simp [List.takeWhile_cons]
  | cons c tail ih =>
    by_cases hc : p c <;> simp [hc, ih]

/-- The reader of lexemes follows their grammar. -/
theorem shape_of_nextLexeme {kind : LexemeKind} {c : Char} {tail s : Text}
    (h : nextLexeme c (tail ++ s) = (kind, tail)) : Shape kind c tail s := by
  unfold nextLexeme at h
  -- the branches of `nextLexeme`
  split_ifs at h with hgap hword hquote hraw hslash
  · obtain ⟨rfl, htail⟩ := Prod.mk.inj h
    obtain ⟨htail, hs⟩ := takeWhile_append_eq_left.1 htail
    exact .blank hgap htail hs
  · obtain ⟨rfl, htail⟩ := Prod.mk.inj h
    obtain ⟨htail, hs⟩ := takeWhile_append_eq_left.1 htail
    exact .word hword htail hs
  · obtain ⟨rfl, htail⟩ := Prod.mk.inj h
    exact .quoted (by simpa using hquote) htail
  · obtain ⟨rfl, htail⟩ := Prod.mk.inj h
    subst hraw
    exact .raw htail
  · subst hslash
    split at h
    · next inside heq =>
      obtain ⟨rfl, rfl⟩ := Prod.mk.inj h
      rw [List.cons_append, List.cons.injEq] at heq
      have htake : (inside.takeWhile (· ≠ '\n') ++ s).takeWhile (· ≠ '\n') =
          inside.takeWhile (· ≠ '\n') := by rw [heq.2]
      obtain ⟨htail, hs⟩ := takeWhile_append_eq_left.1 htake
      exact .line (fun d hd => by simpa using htail d hd) (fun d hd => by simpa using hs d hd)
    · next inside heq =>
      obtain ⟨rfl, rfl⟩ := Prod.mk.inj h
      rw [List.cons_append, List.cons.injEq] at heq
      exact .general (by rw [heq.2])
    · next hline hgeneral =>
      obtain ⟨rfl, rfl⟩ := Prod.mk.inj h
      refine .mark (by decide) (by decide) (by decide) fun _ d hd => ?_
      cases s with
      | nil => simp at hd
      | cons e s =>
        obtain rfl : e = d := by simpa using hd
        exact ⟨fun he => hline s (he ▸ rfl), fun he => hgeneral s (he ▸ rfl)⟩
  · obtain ⟨rfl, rfl⟩ := Prod.mk.inj h
    simp only [Bool.or_eq_true, decide_eq_true_eq, not_or] at hquote
    exact .mark (by simpa using hgap) (by simpa using hword) ⟨hquote.1, hquote.2, hraw⟩
      fun hc => absurd hc hslash

/-- Whatever has the shape of a lexeme is read as one. -/
theorem nextLexeme_of_shape {kind : LexemeKind} {c : Char} {tail s : Text}
    (h : Shape kind c tail s) : nextLexeme c (tail ++ s) = (kind, tail) := by
  cases h with
  | blank hc htail hs =>
    unfold nextLexeme
    rw [if_pos hc, takeWhile_append_eq_left.2 ⟨htail, hs⟩]
  | word hc htail hs =>
    have hgap : ¬ isGap c = true := fun hgap => by simp [isWordChar_of_isGap hgap] at hc
    unfold nextLexeme
    rw [if_neg hgap, if_pos hc, takeWhile_append_eq_left.2 ⟨htail, hs⟩]
  | quoted hq htail =>
    have hkind : nextLexeme c (tail ++ s) = (.literal, quotedTail c (tail ++ s)) := by
      rcases hq with rfl | rfl <;> rfl
    rw [hkind, htail]
  | raw htail =>
    have hkind : nextLexeme '`' (tail ++ s) = (.literal, through ['`'] (tail ++ s)) := rfl
    rw [hkind, htail]
  | @line tail _ htail hs =>
    have hkind : nextLexeme '/' ('/' :: (tail ++ s)) =
        (.comment, '/' :: (tail ++ s).takeWhile (· ≠ '\n')) := rfl
    rw [List.cons_append, hkind,
      takeWhile_append_eq_left.2 ⟨by simpa using htail, by simpa using hs⟩]
  | @general tail _ htail =>
    have hkind : nextLexeme '/' ('*' :: (tail ++ s)) =
        (.comment, '*' :: through "*/".toList (tail ++ s)) := rfl
    rw [List.cons_append, hkind, htail]
  | mark hgap hword hquote hs =>
    rw [List.nil_append]
    unfold nextLexeme
    simp only [hgap, hword, hquote.1, hquote.2.1, hquote.2.2, decide_false, Bool.or_self,
      Bool.false_eq_true, if_false]
    split_ifs with hslash
    · split
      · next inside => exact absurd rfl (hs hslash '/' (by simp)).1
      · next inside => exact absurd rfl (hs hslash '*' (by simp)).2
      · rfl
    · rfl

/-- A string goes on behind a character that escapes nothing. -/
theorem quotedTail_of_ne {c : Char} (hc : c ≠ '\\') (q : Char) (s : Text) :
    quotedTail q (c :: s) =
      if c = '\n' then [] else if c = q then [c] else c :: quotedTail q s := by
  rw [quotedTail] <;> simp [hc]

/-- What the cases of `quotedTail` behind the escapes know of their first character. -/
theorem ne_backslash {c : Char} {s : Text} (hone : c = '\\' → s = [] → False)
    (htwo : ∀ (d : Char) (r : List Char), c = '\\' → s = d :: r → False) : c ≠ '\\' := by
  intro hc
  cases s with
  | nil => exact hone hc rfl
  | cons d s => exact htwo d s hc rfl

/-- A string that ends depends on one character behind it at most. -/
private theorem quotedTail_congr {q : Char} {tail s s' : Text} (h : quotedTail q (tail ++ s) = tail)
    (hhead : ∀ x ∈ s'.head?, x ∈ s.head?) : quotedTail q (tail ++ s') = tail := by
  induction tail using quotedTail.induct q with
  | case1 =>
    cases s' with
    | nil => rfl
    | cons x s' =>
      obtain ⟨rest, rfl⟩ := List.head?_eq_some_iff.1 (hhead x rfl)
      by_cases hx : x = '\\'
      · subst hx; cases rest <;> simp [quotedTail] at h
      · rw [List.nil_append, quotedTail_of_ne hx] at h ⊢
        split_ifs at h ⊢ with hnl
        rfl
  | case2 =>
    cases s' with
    | nil => rfl
    | cons x s' =>
      obtain ⟨rest, rfl⟩ := List.head?_eq_some_iff.1 (hhead x rfl)
      simp [quotedTail] at h
  | case3 c tail ih =>
    simp only [List.cons_append, quotedTail, List.cons.injEq, true_and] at h ⊢
    exact ih h
  | case4 tail hone htwo =>
    rw [List.cons_append, quotedTail_of_ne (ne_backslash hone htwo)] at h
    simp at h
  | case5 tail hone htwo hnl =>
    rw [List.cons_append, quotedTail_of_ne (ne_backslash hone htwo)] at h ⊢
    simpa [hnl] using h
  | case6 c tail hone htwo hnl hq ih =>
    rw [List.cons_append, quotedTail_of_ne (ne_backslash hone htwo)] at h ⊢
    simp only [hnl, hq, if_false, List.cons.injEq, true_and] at h ⊢
    exact ih h

/-- So does what ends with a mark. -/
private theorem through_congr {mark tail s s' : Text} (h : through mark (tail ++ s) = tail)
    (hhead : ∀ x ∈ s'.head?, x ∈ s.head?) : through mark (tail ++ s') = tail := by
  unfold through at h ⊢
  cases hcut : cutAt? mark (tail ++ s) with
  | none =>
    -- without the mark it ends with the text
    obtain rfl : s = [] := by simpa [hcut] using h
    cases s' with
    | nil =>
      rw [hcut]
      exact List.append_nil tail
    | cons x s' => exact absurd (hhead x rfl) (by simp)
  | some found =>
    obtain ⟨front, rest⟩ := found
    simp only [hcut, Option.elim_some] at h
    subst h
    obtain rfl : s = rest := List.append_cancel_left (cutAt?_eq_some hcut)
    rw [cutAt?_congr hcut]
    rfl

/-- The shape of a lexeme depends on the first character behind it only, and it stays at the end of a
text. -/
theorem Shape.of_head? {kind : LexemeKind} {c : Char} {tail s s' : Text} (h : Shape kind c tail s)
    (hhead : ∀ x ∈ s'.head?, x ∈ s.head?) : Shape kind c tail s' := by
  -- a mark, a word and white space look at the character behind; the others have come to their end
  cases h with
  | blank hc htail hs => exact .blank hc htail fun d hd => hs d (hhead d hd)
  | word hc htail hs => exact .word hc htail fun d hd => hs d (hhead d hd)
  | quoted hq htail => exact .quoted hq (quotedTail_congr htail hhead)
  | raw htail => exact .raw (through_congr htail hhead)
  | line htail hs => exact .line htail fun d hd => hs d (hhead d hd)
  | general htail => exact .general (through_congr htail hhead)
  | mark hgap hword hquote hs => exact .mark hgap hword hquote fun hc d hd => hs hc d (hhead d hd)

/-! ### Lexemes before a text -/

/-- The lexeme is read off the front of a text that it starts, with `s` behind it. -/
def Lexeme.EndsBefore (l : Lexeme) (s : Text) : Prop :=
  ∃ c tail, l.text = c :: tail ∧ Shape l.kind c tail s

/-- What ends in front of a text ends in front of any text with the same first character, and at the end
of a text. -/
theorem Lexeme.EndsBefore.of_head? {l : Lexeme} {s s' : Text} (h : l.EndsBefore s)
    (hhead : ∀ x ∈ s'.head?, x ∈ s.head?) : l.EndsBefore s' := by
  obtain ⟨c, tail, htext, hshape⟩ := h
  exact ⟨c, tail, htext, hshape.of_head? hhead⟩

/-- Whether a lexeme ends depends on the first character behind it. -/
theorem Lexeme.EndsBefore.congr {l : Lexeme} {s s' : Text} (h : l.EndsBefore s)
    (hhead : s.head? = s'.head?) : l.EndsBefore s' :=
  h.of_head? fun _ hx => hhead ▸ hx

/-- A lexeme that ends in front of a text is its first lexeme. -/
theorem Lexeme.EndsBefore.lex_append {l : Lexeme} {s : Text} (h : l.EndsBefore s) :
    lex (l.text ++ s) = l :: lex s := by
  obtain ⟨c, tail, htext, hshape⟩ := h
  rw [htext, List.cons_append, lex_cons, nextLexeme_of_shape hshape, ← htext]
  simp

/-- No lexeme is empty. -/
theorem Lexeme.EndsBefore.text_ne_nil {l : Lexeme} {s : Text} (h : l.EndsBefore s) :
    l.text ≠ [] := by
  obtain ⟨c, tail, htext, -⟩ := h
  simp [htext]

/-! ## Lists of lexemes -/

@[simp] theorem textOf_nil : textOf [] = [] := rfl

@[simp] theorem textOf_cons (l : Lexeme) (ls : List Lexeme) :
    textOf (l :: ls) = l.text ++ textOf ls := rfl

@[simp] theorem textOf_append (ls ms : List Lexeme) :
    textOf (ls ++ ms) = textOf ls ++ textOf ms := by
  simp [textOf]

/-- A lexeme is part of the text. -/
theorem infix_textOf {l : Lexeme} {ls : List Lexeme} (h : l ∈ ls) : l.text <:+: textOf ls :=
  List.infix_of_mem_flatten (List.mem_map_of_mem h)

/-- The lexemes are read, one after the other, off the text that they make up, with `s` behind. -/
def Reads : List Lexeme → Text → Prop
  | [], _ => True
  | l :: ls, s => l.EndsBefore (textOf ls ++ s) ∧ Reads ls s

@[simp] theorem reads_nil (s : Text) : Reads [] s := trivial

@[simp] theorem reads_cons {l : Lexeme} {ls : List Lexeme} {s : Text} :
    Reads (l :: ls) s ↔ l.EndsBefore (textOf ls ++ s) ∧ Reads ls s := Iff.rfl

/-- Two lists are read one after the other. -/
theorem reads_append {ls ms : List Lexeme} {s : Text} :
    Reads (ls ++ ms) s ↔ Reads ls (textOf ms ++ s) ∧ Reads ms s := by
  induction ls with
  | nil => simp
  | cons l ls ih => simp [ih, and_assoc]

/-- Each lexeme is read where it stands. -/
theorem Reads.exists_endsBefore {ls : List Lexeme} {s : Text} (h : Reads ls s) :
    ∀ l ∈ ls, ∃ s', l.EndsBefore s' := by
  intro l hl
  obtain ⟨front, behind, rfl⟩ := List.append_of_mem hl
  exact ⟨_, (reads_append.1 h).2.1⟩

/-- The lexemes of a composed text are composed from those of its parts. -/
theorem lex_textOf_append {ls : List Lexeme} {s : Text} (h : Reads ls s) :
    lex (textOf ls ++ s) = ls ++ lex s := by
  induction ls with
  | nil => rfl
  | cons l ls ih =>
    rw [textOf_cons, List.append_assoc, h.1.lex_append, ih h.2, List.cons_append]

/-- What is read is lexed as it is. -/
theorem lex_textOf {ls : List Lexeme} (h : Reads ls []) : lex (textOf ls) = ls := by
  simpa [lex_nil] using lex_textOf_append h

/-- The lexemes of a source are read off it. -/
theorem reads_lex : (s : Text) → Reads (lex s) []
  | [] => trivial
  | c :: s => by
    have hs := List.prefix_iff_eq_append.1 (nextLexeme_isPrefix c s)
    rw [lex_cons]
    refine ⟨⟨c, (nextLexeme c s).2, rfl, shape_of_nextLexeme ?_⟩,
      reads_lex (s.drop (nextLexeme c s).2.length)⟩
    rw [List.append_nil, textOf_lex, hs]
termination_by s => s.length
decreasing_by
  simp only [List.length_drop, List.length_cons]
  omega

/-- What is read in front of a text is read in front of any text with the same first character, and at
the end of a text. -/
theorem Reads.of_head? {ls : List Lexeme} {s s' : Text} (h : Reads ls s)
    (hhead : ∀ x ∈ s'.head?, x ∈ s.head?) : Reads ls s' := by
  induction ls with
  | nil => trivial
  | cons l ls ih =>
    refine ⟨h.1.of_head? ?_, ih h.2⟩
    cases textOf ls with
    | nil => exact hhead
    | cons c t => exact fun _ hx => hx

/-- Whether lexemes are read depends on the first character behind them. -/
theorem Reads.congr {ls : List Lexeme} {s s' : Text} (h : Reads ls s)
    (hhead : s.head? = s'.head?) : Reads ls s' :=
  h.of_head? fun _ hx => hhead ▸ hx

/-- What was read in front of a text is read at the end of a text. -/
theorem Reads.cut {ls : List Lexeme} {s : Text} (h : Reads ls s) : Reads ls [] :=
  h.of_head? nofun

end Scaffold.Go
