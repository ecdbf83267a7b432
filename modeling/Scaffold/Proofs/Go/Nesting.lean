import Scaffold.Go.File
import Scaffold.Proofs.Go.Closed

/-!
# Brackets

Where the reader of Go files cuts a list of lexemes at a bracket, in terms of the brackets in front of
the cut: `splitClose_eq_some_iff` and `splitBody_eq_some_iff`. Properly nested brackets (`nest`) are
balanced for each of these cuts.
-/

namespace Scaffold.Go

/-! ## Nested brackets -/

/-- The mark that closes a bracket. -/
def closing? : LexemeKind → Option Char
  | .mark '(' => some ')'
  | .mark '[' => some ']'
  | .mark '{' => some '}'
  | _ => none

/-- Whether a lexeme closes a bracket. -/
def isClosing : LexemeKind → Bool
  | .mark ')' | .mark ']' | .mark '}' => true
  | _ => false

/-- The marks that close the brackets open behind a lexeme, if `pending` close those open before it. A
bracket must be closed by its own mark. -/
def nestStep (pending : List Char) (l : Lexeme) : Option (List Char) :=
  match closing? l.kind, pending with
  | some c, pending => some (c :: pending)
  | none, [] => if isClosing l.kind then none else some []
  | none, c :: pending =>
    if isClosing l.kind then if l.kind = .mark c then some pending else none
    else some (c :: pending)

/-- The marks that close the brackets open behind a list of lexemes. -/
def nest : (pending : List Char) → List Lexeme → Option (List Char)
  | pending, [] => some pending
  | pending, l :: ls => (nestStep pending l).bind fun pending => nest pending ls

/-- Whether all brackets of a list of lexemes are properly nested. -/
def Nested (ls : List Lexeme) : Prop := nest [] ls = some []

/-- The number of open brackets behind a lexeme, if `depth` are open before it. -/
def deeper (depth : Nat) (l : Lexeme) : Nat :=
  if (closing? l.kind).isSome then depth + 1 else if isClosing l.kind then depth - 1 else depth

/-- The lexemes outside all brackets, with the brackets that open there; `depth` brackets are open in
front. -/
def surfaceFrom : (depth : Nat) → List Lexeme → List Lexeme
  | _, [] => []
  | 0, l :: ls => l :: surfaceFrom (deeper 0 l) ls
  | depth + 1, l :: ls => surfaceFrom (deeper (depth + 1) l) ls

/-- The lexemes outside all brackets, with the brackets that open there. -/
def surface (ls : List Lexeme) : List Lexeme := surfaceFrom 0 ls

instance (ls : List Lexeme) : Decidable (Nested ls) := inferInstanceAs (Decidable (_ = _))

/-- Brackets of two lists: the second starts with those that the first one leaves open. -/
theorem nest_append (pending : List Char) (ls ms : List Lexeme) :
    nest pending (ls ++ ms) = (nest pending ls).bind fun pending => nest pending ms := by
  induction ls generalizing pending with
  | nil => rfl
  | cons l ls ih =>
    simp only [List.cons_append, nest]
    cases nestStep pending l with
    | none => rfl
    | some pending' => exact ih pending'

theorem nested_nil : Nested [] := rfl

/-- Nested brackets one after the other are nested. -/
theorem Nested.append {ls ms : List Lexeme} (hls : Nested ls) (hms : Nested ms) :
    Nested (ls ++ ms) := by
  rw [Nested, nest_append, hls]
  exact hms

/-- What a lexeme does to the open brackets: it opens one, closes the innermost one, or leaves them. -/
theorem nestStep_eq_some_iff {pending pending' : List Char} {l : Lexeme} :
    nestStep pending l = some pending' ↔
      (∃ c, closing? l.kind = some c ∧ pending' = c :: pending) ∨
      (∃ c, closing? l.kind = none ∧ isClosing l.kind ∧ l.kind = .mark c ∧ pending = c :: pending') ∨
      (closing? l.kind = none ∧ isClosing l.kind = false ∧ pending' = pending) := by
  constructor
  · intro h
    cases hopen : closing? l.kind with
    | some c => exact .inl ⟨c, rfl, by simpa [nestStep, hopen, eq_comm] using h⟩
    | none =>
      cases pending with
      | nil =>
        simp only [nestStep, hopen] at h
        split_ifs at h with hclose
        exact .inr (.inr ⟨rfl, by simpa using hclose, (Option.some.inj h).symm⟩)
      | cons c pending =>
        simp only [nestStep, hopen] at h
        split_ifs at h with hclose hc
        · obtain rfl := Option.some.inj h
          exact .inr (.inl ⟨c, rfl, hclose, hc, rfl⟩)
        · exact .inr (.inr ⟨rfl, by simpa using hclose, (Option.some.inj h).symm⟩)
  · rintro (⟨c, hopen, rfl⟩ | ⟨c, hopen, hclose, hc, rfl⟩ | ⟨hopen, hclose, rfl⟩)
    · simp [nestStep, hopen]
    · simp only [nestStep, hopen, if_pos hclose, if_pos hc]
    · cases pending' <;> simp [nestStep, hopen, hclose]

/-- A step does not touch brackets around it. -/
theorem nestStep_frame {inner inner' : List Char} {l : Lexeme}
    (h : nestStep inner l = some inner') (base : List Char) :
    nestStep (inner ++ base) l = some (inner' ++ base) := by
  rw [nestStep_eq_some_iff] at h ⊢
  rcases h with ⟨c, hopen, rfl⟩ | ⟨c, hopen, hclose, hc, rfl⟩ | ⟨hopen, hclose, rfl⟩
  · exact .inl ⟨c, hopen, rfl⟩
  · exact .inr (.inl ⟨c, hopen, hclose, hc, rfl⟩)
  · exact .inr (.inr ⟨hopen, hclose, rfl⟩)

/-- Brackets that are pending outside stay so. -/
theorem nest_frame {inner inner' : List Char} {ls : List Lexeme} (h : nest inner ls = some inner')
    (base : List Char) : nest (inner ++ base) ls = some (inner' ++ base) := by
  induction ls generalizing inner with
  | nil =>
    obtain rfl : inner = inner' := by simpa [nest] using h
    rfl
  | cons l ls ih =>
    obtain ⟨next, hstep, hnest⟩ := Option.bind_eq_some_iff.1 h
    rw [nest, nestStep_frame hstep]
    exact ih hnest

/-- The three brackets that open, and those that close them. -/
theorem closing?_eq_some {kind : LexemeKind} {c : Char} (h : closing? kind = some c) :
    kind = .mark '(' ∧ c = ')' ∨ kind = .mark '[' ∧ c = ']' ∨ kind = .mark '{' ∧ c = '}' := by
  unfold closing? at h
  split at h <;> simp_all [eq_comm]

/-- The three brackets that close. -/
theorem isClosing_iff {kind : LexemeKind} :
    isClosing kind ↔ kind = .mark ')' ∨ kind = .mark ']' ∨ kind = .mark '}' := by
  unfold isClosing
  split <;> simp_all

/-! ## The end of a group -/

/-- The number of open groups behind a list of lexemes, if `depth` are open in front and no more than
that are closed. -/
def rise (opening closing : Char) : (depth : Nat) → List Lexeme → Option Nat
  | depth, [] => some depth
  | depth, l :: ls =>
    if l.kind = .mark closing then
      match depth with
      | 0 => none
      | depth + 1 => rise opening closing depth ls
    else rise opening closing (if l.kind = .mark opening then depth + 1 else depth) ls

/-- The count of open groups over two lists. -/
theorem rise_append {opening closing : Char} (depth : Nat) (ls ms : List Lexeme) :
    rise opening closing depth (ls ++ ms) =
      (rise opening closing depth ls).bind fun depth => rise opening closing depth ms := by
  induction ls generalizing depth with
  | nil => rfl
  | cons l ls ih =>
    simp only [List.cons_append, rise]
    split
    · cases depth with
      | zero => rfl
      | succ depth => exact ih depth
    · exact ih _

/-- A group ends at its closing mark. -/
theorem splitClose_cons_zero {opening closing : Char} {l : Lexeme} (h : l.kind = .mark closing)
    (ls : List Lexeme) : splitClose opening closing 0 (l :: ls) = some ([], ls) := by
  simp [splitClose, h]

/-- A closing mark ends an inner group. -/
theorem splitClose_cons_succ {opening closing : Char} {l : Lexeme} (h : l.kind = .mark closing) (depth : Nat)
    (ls : List Lexeme) :
    splitClose opening closing (depth + 1) (l :: ls) =
      (splitClose opening closing depth ls).map fun (front, rest) => (l :: front, rest) := by
  simp [splitClose, h]

/-- Anything else is inside the group. -/
theorem splitClose_cons_of_ne {opening closing : Char} {l : Lexeme} (h : l.kind ≠ .mark closing) (depth : Nat)
    (ls : List Lexeme) :
    splitClose opening closing depth (l :: ls) =
      (splitClose opening closing (if l.kind = .mark opening then depth + 1 else depth) ls).map
        fun (front, rest) => (l :: front, rest) := by
  cases depth <;> simp [splitClose, h]

/-- A lexeme that does not end the group is in front of its end. -/
private theorem map_cons_splitClose_iff {opening closing : Char} {depth depth' : Nat} {l : Lexeme}
    {ls front rest : List Lexeme} (hl : l.kind = .mark closing → depth ≠ 0)
    (hrise : ∀ front, rise opening closing depth (l :: front) = rise opening closing depth' front)
    (ih : ∀ front, splitClose opening closing depth' ls = some (front, rest) ↔
      ∃ m, ls = front ++ m :: rest ∧ m.kind = .mark closing ∧
        rise opening closing depth' front = some 0) :
    (splitClose opening closing depth' ls).map (fun (front, rest) => (l :: front, rest)) =
        some (front, rest) ↔
      ∃ m, l :: ls = front ++ m :: rest ∧ m.kind = .mark closing ∧
        rise opening closing depth front = some 0 := by
  simp only [Option.map_eq_some_iff, Prod.exists, Prod.mk.injEq]
  constructor
  · rintro ⟨front, rest, hsplit, rfl, rfl⟩
    obtain ⟨m, rfl, hm, hclosed⟩ := (ih front).1 hsplit
    exact ⟨m, rfl, hm, (hrise front).trans hclosed⟩
  · rintro ⟨m, heq, hm, hclosed⟩
    -- the end is not this lexeme, so the front is not empty
    cases front with
    | nil =>
      obtain ⟨rfl, -⟩ := List.cons.inj heq
      exact absurd (Option.some.inj hclosed) (hl hm)
    | cons n front =>
      obtain ⟨rfl, rfl⟩ := List.cons.inj heq
      exact ⟨front, rest, (ih front).2 ⟨m, rfl, hm, (hrise front).symm.trans hclosed⟩, rfl, rfl⟩

/-- A group ends at the first mark in front of which the groups inside are closed. -/
theorem splitClose_eq_some_iff {opening closing : Char} {depth : Nat} {ls front rest : List Lexeme} :
    splitClose opening closing depth ls = some (front, rest) ↔
      ∃ l, ls = front ++ l :: rest ∧ l.kind = .mark closing ∧
        rise opening closing depth front = some 0 := by
  -- a closing bracket at depth 0 ends the search; anywhere else the search goes on at the depth behind it
  induction ls generalizing depth front with
  | nil => simp [splitClose]
  | cons l ls ih =>
    by_cases hl : l.kind = .mark closing
    · cases depth with
      | zero =>
        simp only [splitClose, hl, if_true, Option.some.injEq, Prod.mk.injEq]
        constructor
        · rintro ⟨rfl, rfl⟩
          exact ⟨l, rfl, hl, rfl⟩
        · rintro ⟨m, heq, -, hrise⟩
          cases front with
          | nil => exact ⟨rfl, (List.cons.inj heq).2⟩
          | cons n front =>
            obtain ⟨rfl, -⟩ := List.cons.inj heq
            simp [rise, hl] at hrise
      | succ depth =>
        rw [splitClose_cons_succ hl]
        exact map_cons_splitClose_iff (fun _ => Nat.succ_ne_zero depth) (by simp [rise, hl]) fun _ => ih
    · rw [splitClose_cons_of_ne hl]
      exact map_cons_splitClose_iff (fun hclose => absurd hclose hl) (by simp [rise, hl]) fun _ => ih

/-- A bracket and the mark that closes it. -/
def IsPair (opening closing : Char) : Prop := closing? (.mark opening) = some closing

/-- The three pairs. -/
theorem IsPair.cases {opening closing : Char} (h : IsPair opening closing) :
    opening = '(' ∧ closing = ')' ∨ opening = '[' ∧ closing = ']' ∨
      opening = '{' ∧ closing = '}' := by
  simpa using closing?_eq_some h

theorem IsPair.isClosing {opening closing : Char} (h : IsPair opening closing) :
    isClosing (.mark closing) := by
  rcases h.cases with ⟨-, rfl⟩ | ⟨-, rfl⟩ | ⟨-, rfl⟩ <;> rfl

theorem rise_singleton_of_ne {opening closing : Char} {l : Lexeme}
    (hopening : l.kind ≠ .mark opening) (hclosing : l.kind ≠ .mark closing) (depth : Nat) :
    rise opening closing depth [l] = some depth := by
  simp [rise, hopening, hclosing]

/-- Two bracket pairs with one mark in common are the same. -/
theorem IsPair.closing_eq_iff {opening closing opening' closing' : Char}
    (h : IsPair opening closing) (h' : IsPair opening' closing') :
    closing = closing' ↔ opening = opening' := by
  rcases h.cases with ⟨rfl, rfl⟩ | ⟨rfl, rfl⟩ | ⟨rfl, rfl⟩ <;>
    rcases h'.cases with ⟨rfl, rfl⟩ | ⟨rfl, rfl⟩ | ⟨rfl, rfl⟩ <;> decide

/-- Properly nested brackets are balanced, each kind for itself. -/
theorem rise_of_nestStep {opening closing : Char} (hpair : IsPair opening closing)
    {pending pending' : List Char} {l : Lexeme} (h : nestStep pending l = some pending') :
    rise opening closing (pending.count closing) [l] = some (pending'.count closing) := by
  -- the pair has no mark in common with another, so that other brackets leave the count
  have hopening (hnone : closing? l.kind = none) : l.kind ≠ .mark opening := fun hkind => by
    simp [hkind, show closing? (.mark opening) = some closing from hpair] at hnone
  rcases nestStep_eq_some_iff.1 h with
    ⟨c, hopen, rfl⟩ | ⟨c, hopen, -, hc, rfl⟩ | ⟨hopen, hclose, rfl⟩
  · obtain ⟨o, hkind⟩ : ∃ o, l.kind = .mark o := by
      rcases closing?_eq_some hopen with ⟨hkind, -⟩ | ⟨hkind, -⟩ | ⟨hkind, -⟩ <;> exact ⟨_, hkind⟩
    have hpair' : IsPair o c := by simpa [IsPair, ← hkind] using hopen
    have hne : o ≠ closing := by
      rintro rfl
      rcases hpair.cases with ⟨-, rfl⟩ | ⟨-, rfl⟩ | ⟨-, rfl⟩ <;> simp [IsPair, closing?] at hpair'
    by_cases ho : o = opening
    · obtain rfl := (hpair'.closing_eq_iff hpair).2 ho
      subst ho
      simp [rise, hkind, hne]
    · have hc : c ≠ closing := fun hc => ho ((hpair'.closing_eq_iff hpair).1 hc)
      simp [rise, hkind, hne, ho, hc]
  · by_cases heq : c = closing
    · simp [rise, hc, heq]
    · rw [rise_singleton_of_ne (hopening hopen) (by simpa [hc] using heq), List.count_cons_of_ne heq]
  · refine rise_singleton_of_ne (hopening hopen) (fun hkind => ?_) _
    rw [hkind, hpair.isClosing] at hclose
    cases hclose

/-- Nested brackets are balanced for each pair. -/
theorem rise_of_nest {opening closing : Char} (hpair : IsPair opening closing)
    {pending pending' : List Char} {ls : List Lexeme} (h : nest pending ls = some pending') :
    rise opening closing (pending.count closing) ls = some (pending'.count closing) := by
  induction ls generalizing pending with
  | nil =>
    obtain rfl : pending = pending' := by simpa [nest] using h
    rfl
  | cons l ls ih =>
    obtain ⟨next, hstep, hnest⟩ := Option.bind_eq_some_iff.1 h
    rw [← List.singleton_append, rise_append, rise_of_nestStep hpair hstep]
    exact ih hnest

/-! ## The start of a body -/

/-- The number of open parentheses and brackets behind a list of lexemes, if no brace opens outside
them. -/
def sink : (depth : Nat) → List Lexeme → Option Nat
  | depth, [] => some depth
  | depth, l :: ls =>
    if l.kind = .mark '{' ∧ depth = 0 then none
    else
      sink (if l.kind = .mark '(' ∨ l.kind = .mark '[' then depth + 1
        else if l.kind = .mark ')' ∨ l.kind = .mark ']' then depth - 1 else depth) ls

/-- The body starts at a brace outside brackets. -/
theorem splitBody_cons_of_open {l : Lexeme} (h : l.kind = .mark '{') (ls : List Lexeme) :
    splitBody 0 (l :: ls) = some ([], ls) := by
  simp [splitBody, h]

/-- Anything else is in front of the body. -/
theorem splitBody_cons_of_not {l : Lexeme} {depth : Nat} (h : ¬(l.kind = .mark '{' ∧ depth = 0))
    (ls : List Lexeme) :
    splitBody depth (l :: ls) =
      (splitBody (if l.kind = .mark '(' ∨ l.kind = .mark '[' then depth + 1
        else if l.kind = .mark ')' ∨ l.kind = .mark ']' then depth - 1 else depth) ls).map
        fun (front, rest) => (l :: front, rest) := by
  rw [splitBody]
  · simp
  · exact fun hkind hdepth => h ⟨hkind, hdepth⟩

/-- The body of a function starts at the first brace outside parentheses and brackets. -/
theorem splitBody_eq_some_iff {depth : Nat} {ls front rest : List Lexeme} :
    splitBody depth ls = some (front, rest) ↔
      ∃ l, ls = front ++ l :: rest ∧ l.kind = .mark '{' ∧ sink depth front = some 0 := by
  -- a brace at depth 0 ends the search; anything else is gone over
  induction ls generalizing depth front with
  | nil => simp [splitBody]
  | cons l ls ih =>
    by_cases hl : l.kind = .mark '{' ∧ depth = 0
    · obtain ⟨hkind, rfl⟩ := hl
      rw [splitBody_cons_of_open hkind]
      constructor
      · intro h
        obtain ⟨rfl, rfl⟩ := Prod.mk.inj (Option.some.inj h)
        exact ⟨l, rfl, hkind, rfl⟩
      · rintro ⟨m, heq, -, hsink⟩
        cases front with
        | nil => simp [(List.cons.inj heq).2]
        | cons n front =>
          obtain ⟨rfl, -⟩ := List.cons.inj heq
          simp [sink, hkind] at hsink
    · rw [splitBody_cons_of_not hl]
      simp only [Option.map_eq_some_iff, Prod.exists, Prod.mk.injEq]
      constructor
      · rintro ⟨front, rest, hsplit, rfl, rfl⟩
        obtain ⟨m, rfl, hm, hsink⟩ := ih.1 hsplit
        exact ⟨m, rfl, hm, by simpa only [sink, if_neg hl] using hsink⟩
      · rintro ⟨m, heq, hm, hsink⟩
        cases front with
        | nil =>
          obtain ⟨rfl, -⟩ := List.cons.inj heq
          have hdepth : depth = 0 := by simpa [sink] using hsink
          exact absurd ⟨hm, hdepth⟩ hl
        | cons n front =>
          obtain ⟨rfl, rfl⟩ := List.cons.inj heq
          exact ⟨front, rest, ih.2 ⟨m, rfl, hm, by simpa only [sink, if_neg hl] using hsink⟩,
            rfl, rfl⟩

/-! ## Lexemes that do not count -/

/-- White space and comments open and close nothing. -/
theorem isTrivia_kind {l : Lexeme} (h : l.isTrivia) (c : Char) : l.kind ≠ .mark c := by
  intro hkind
  simp [Lexeme.isTrivia, hkind] at h

/-- Trivia do not count. -/
theorem rise_code (opening closing : Char) (depth : Nat) (ls : List Lexeme) :
    rise opening closing depth (code ls) = rise opening closing depth ls := by
  induction ls generalizing depth with
  | nil => rfl
  | cons l ls ih =>
    rw [code_cons]
    split
    · next h => simp [rise, isTrivia_kind h, ih]
    · cases depth <;> simp [rise, ih]

/-- Trivia open and close nothing. -/
theorem nestStep_of_isTrivia {l : Lexeme} (h : l.isTrivia) (pending : List Char) :
    nestStep pending l = some pending := by
  have hkind : l.kind = .blank ∨ l.kind = .comment := by simpa [Lexeme.isTrivia] using h
  rcases hkind with hkind | hkind <;> cases pending <;> simp [nestStep, hkind, closing?, isClosing]

theorem nest_code (pending : List Char) (ls : List Lexeme) :
    nest pending (code ls) = nest pending ls := by
  induction ls generalizing pending with
  | nil => rfl
  | cons l ls ih =>
    rw [code_cons]
    split
    · next h => simp [nest, nestStep_of_isTrivia h, ih]
    · simp [nest, ih]

/-- Lists with the same code are nested together. -/
theorem nested_congr {ls ms : List Lexeme} (h : code ls = code ms) : Nested ls ↔ Nested ms := by
  rw [Nested, Nested, ← nest_code, h, nest_code]

theorem nested_of_isTrivia {ls : List Lexeme} (h : ∀ l ∈ ls, l.isTrivia) : Nested ls := by
  rw [Nested, ← nest_code, code_eq_nil_iff.2 h]
  rfl

theorem deeper_of_isTrivia {l : Lexeme} (h : l.isTrivia) (depth : Nat) : deeper depth l = depth := by
  have hkind : l.kind = .blank ∨ l.kind = .comment := by simpa [Lexeme.isTrivia] using h
  rcases hkind with hkind | hkind <;> simp [deeper, hkind, closing?, isClosing]

/-- The code of the surface is the surface of the code. -/
theorem code_surfaceFrom (depth : Nat) (ls : List Lexeme) :
    code (surfaceFrom depth ls) = surfaceFrom depth (code ls) := by
  induction ls generalizing depth with
  | nil => cases depth <;> rfl
  | cons l ls ih =>
    rw [code_cons]
    cases depth with
    | zero =>
      rw [surfaceFrom, code_cons, ih]
      split
      · next h => rw [deeper_of_isTrivia h]
      · rw [surfaceFrom]
    | succ depth =>
      rw [surfaceFrom, ih]
      split
      · next h => rw [deeper_of_isTrivia h]
      · rw [surfaceFrom]

/-- How many brackets are open behind a list of lexemes, as `deeper` counts them. -/
theorem nestStep_length {pending pending' : List Char} {l : Lexeme}
    (h : nestStep pending l = some pending') : deeper pending.length l = pending'.length := by
  rcases nestStep_eq_some_iff.1 h with
    ⟨c, hopen, rfl⟩ | ⟨c, hopen, hclose, -, rfl⟩ | ⟨hopen, hclose, rfl⟩
  · simp [deeper, hopen]
  · simp [deeper, hopen, hclose]
  · simp [deeper, hopen, hclose]

/-! ## Brackets in front of a body -/

/-- The outermost pending bracket is no brace. -/
private def IsRooted (pending : List Char) : Prop := ∀ c ∈ pending.getLast?, c ≠ '}'

/-- The number of pending parentheses and brackets. -/
private def parens (pending : List Char) : Nat := pending.countP (· ≠ '}')

/-- The lowest open bracket stays where it is. -/
private theorem IsRooted.cons {pending : List Char} (h : IsRooted pending) {c : Char}
    (hc : pending = [] → c ≠ '}') : IsRooted (c :: pending) := by
  cases pending with
  | nil => simpa [IsRooted] using hc rfl
  | cons d pending => simpa [IsRooted] using h

private theorem IsRooted.of_cons {pending : List Char} {c : Char} (h : IsRooted (c :: pending)) :
    IsRooted pending := by
  cases pending with
  | nil => simp [IsRooted]
  | cons d pending => simpa [IsRooted] using h

/-- Where something is open, a parenthesis or a bracket is. -/
private theorem parens_pos {pending : List Char} (h : IsRooted pending) (hne : pending ≠ []) :
    0 < parens pending := by
  rw [parens, List.countP_pos_iff]
  have hlast := h _ (List.getLast?_eq_some_getLast hne)
  exact ⟨_, List.getLast_mem hne, by simpa using hlast⟩

/-- The count of open parentheses and brackets behind a lexeme that does not open a body. -/
private theorem parens_of_nestStep {pending next : List Char} {l : Lexeme} (hroot : IsRooted pending)
    (hl : pending = [] → l.kind ≠ .mark '{') (h : nestStep pending l = some next) :
    IsRooted next ∧ (if l.kind = .mark '(' ∨ l.kind = .mark '[' then parens pending + 1
      else if l.kind = .mark ')' ∨ l.kind = .mark ']' then parens pending - 1
      else parens pending) = parens next := by
  have hnotOpen (hnone : closing? l.kind = none) : ¬(l.kind = .mark '(' ∨ l.kind = .mark '[') := by
    rintro (hkind | hkind) <;> simp [hkind, closing?] at hnone
  -- by what the step does to the pending brackets: push, pop or leave
  rcases nestStep_eq_some_iff.1 h with
    ⟨c, hopen, rfl⟩ | ⟨c, hopen, hclose, hc, rfl⟩ | ⟨hopen, hclose, rfl⟩
  · rcases closing?_eq_some hopen with ⟨hkind, rfl⟩ | ⟨hkind, rfl⟩ | ⟨hkind, rfl⟩
    · exact ⟨hroot.cons fun _ => by decide, by simp [hkind, parens]⟩
    · exact ⟨hroot.cons fun _ => by decide, by simp [hkind, parens]⟩
    · exact ⟨hroot.cons fun hnil => absurd hkind (hl hnil), by simp [hkind, parens]⟩
  · rw [if_neg (hnotOpen hopen)]
    refine ⟨hroot.of_cons, ?_⟩
    rw [hc] at hclose ⊢
    rcases isClosing_iff.1 hclose with hkind | hkind | hkind <;>
      obtain rfl := LexemeKind.mark.inj hkind <;> simp [parens]
  · rw [if_neg (hnotOpen hopen)]
    have hnotClose : ¬(l.kind = .mark ')' ∨ l.kind = .mark ']') := by
      intro hkind
      rw [isClosing_iff.2 (hkind.imp_right .inl)] at hclose
      cases hclose
    exact ⟨hroot, by rw [if_neg hnotClose]⟩

/-- The depth at which a body is looked for is the number of open parentheses and brackets. -/
private theorem sink_of_nest {pending pending' : List Char} {ls : List Lexeme}
    (hroot : IsRooted pending) (hsurface : ∀ l ∈ surfaceFrom pending.length ls, l.kind ≠ .mark '{')
    (h : nest pending ls = some pending') : sink (parens pending) ls = some (parens pending') := by
  induction ls generalizing pending with
  | nil =>
    obtain rfl : pending = pending' := by simpa [nest] using h
    rfl
  | cons l ls ih =>
    obtain ⟨next, hstep, hnest⟩ := Option.bind_eq_some_iff.1 h
    have hl : pending = [] → l.kind ≠ .mark '{' := by
      rintro rfl
      exact hsurface l (by simp [surfaceFrom])
    have hrest : ∀ m ∈ surfaceFrom next.length ls, m.kind ≠ .mark '{' := by
      intro m hm
      refine hsurface m ?_
      rw [← nestStep_length hstep] at hm
      cases pending with
      | nil => exact List.mem_cons_of_mem l hm
      | cons c pending => exact hm
    obtain ⟨hroot', hdepth⟩ := parens_of_nestStep hroot hl hstep
    have hopen : ¬(l.kind = .mark '{' ∧ parens pending = 0) := by
      rintro ⟨hkind, hzero⟩
      have hpos := parens_pos hroot fun hnil => hl hnil hkind
      omega
    rw [sink, if_neg hopen, hdepth]
    exact ih hroot' hrest hnest

/-- Nested lexemes without a brace outside brackets can stand in front of a body. -/
theorem sink_of_nested {ls : List Lexeme} (h : Nested ls)
    (hsurface : ∀ l ∈ surface ls, l.kind ≠ .mark '{') : sink 0 ls = some 0 := by
  have hroot : IsRooted [] := by simp [IsRooted]
  exact sink_of_nest hroot hsurface h

/-- What stands outside brackets is part of the whole. -/
theorem mem_of_mem_surfaceFrom {depth : Nat} {ls : List Lexeme} {l : Lexeme}
    (h : l ∈ surfaceFrom depth ls) : l ∈ ls := by
  induction ls generalizing depth with
  | nil => cases depth <;> exact h
  | cons m ls ih =>
    cases depth with
    | zero =>
      rcases List.mem_cons.1 h with rfl | h
      · exact List.mem_cons_self
      · exact List.mem_cons_of_mem m (ih h)
    | succ depth => exact List.mem_cons_of_mem m (ih h)

end Scaffold.Go
