import Scaffold.Proofs.Go.Nesting

/-!
# Declarations of functions

The grammar that the reader of Go files follows for functions. A `Declaration` holds the lexemes of one,
and `function?_eq_some_iff` says that a function is read exactly where a valid declaration stands; what
follows it does not matter. A *whole* function is one whose text, wherever it stands, is read as its
declaration again.
-/

namespace Scaffold.Go

open Text

/-! ## Lexemes by their text -/

/-- The lexeme of a single mark. -/
def markOf (c : Char) : Lexeme := ⟨.mark c, [c]⟩

/-- The keyword that starts a function. -/
def funcWord : Lexeme := ⟨.word, "func".toList⟩

/-- A single mark reads as itself. -/
def Lexeme.IsShaped (l : Lexeme) : Prop := ∀ c, l.kind = .mark c → l.text = [c]

/-- A mark with its own text is the lexeme of its character. -/
theorem Lexeme.IsShaped.eq_markOf {l : Lexeme} (h : l.IsShaped) {c : Char}
    (hkind : l.kind = .mark c) : l = markOf c := by
  obtain ⟨kind, text⟩ := l
  obtain rfl : kind = .mark c := hkind
  rw [markOf, ← h c rfl]

/-- What is read as a mark has the text of the mark. -/
theorem Lexeme.EndsBefore.isShaped {l : Lexeme} {s : Text} (h : l.EndsBefore s) : l.IsShaped := by
  obtain ⟨kind, text⟩ := l
  obtain ⟨c, tail, rfl, hshape⟩ := h
  intro d hkind
  obtain rfl : kind = .mark d := hkind
  cases hshape
  rfl

theorem Reads.isShaped {ls : List Lexeme} {s : Text} (h : Reads ls s) :
    ∀ l ∈ ls, l.IsShaped := by
  intro l hl
  obtain ⟨s', hl'⟩ := h.exists_endsBefore l hl
  exact hl'.isShaped

/-! ## The grammar -/

/-- What may stand between `func` and the name: white space, comments, and a receiver. -/
inductive IsReceiver : List Lexeme → Prop
  | none {space : List Lexeme} (hspace : ∀ l ∈ space, l.isTrivia) : IsReceiver space
  | group {space inside after : List Lexeme} (hspace : ∀ l ∈ space, l.isTrivia)
      (hinside : rise '(' ')' 0 inside = some 0) (hafter : ∀ l ∈ after, l.isTrivia) :
      IsReceiver (space ++ markOf '(' :: inside ++ markOf ')' :: after)

/-- To be a word is to have its kind and its text. -/
theorem Lexeme.isWord_iff {l : Lexeme} {w : Text} : l.isWord w ↔ l.kind = .word ∧ l.text = w := by
  simp only [Lexeme.isWord, Bool.and_eq_true, decide_eq_true_eq]

theorem word_not_isTrivia {l : Lexeme} (h : l.kind = .word) : l.isTrivia = false := by
  simp [Lexeme.isTrivia, h]

/-- A receiver in front of a name is split off. -/
theorem splitReceiver?_append {receiver rest : List Lexeme} {name : Lexeme}
    (h : IsReceiver receiver) (hname : name.kind = .word) :
    splitReceiver? (receiver ++ name :: rest) = some (receiver, name :: rest) := by
  have htrivia := word_not_isTrivia hname
  cases h with
  | none hspace =>
    unfold splitReceiver?
    rw [List.takeWhile_append_of_pos hspace, List.dropWhile_append_of_pos hspace]
    simp [htrivia, hname]
  | @group space inside after hspace hinside hafter =>
    have hsplit : splitClose '(' ')' 0 (inside ++ markOf ')' :: (after ++ name :: rest)) =
        some (inside, after ++ name :: rest) :=
      splitClose_eq_some_iff.2 ⟨markOf ')', rfl, rfl, hinside⟩
    unfold splitReceiver?
    simp only [List.append_assoc, List.cons_append]
    rw [List.takeWhile_append_of_pos hspace, List.dropWhile_append_of_pos hspace]
    have hopen : (markOf '(').isTrivia = false := rfl
    simp only [List.takeWhile_cons, List.dropWhile_cons, hopen, Bool.false_eq_true, if_false]
    rw [if_pos (show (markOf '(').kind = .mark '(' from rfl), hsplit]
    simp only [Option.bind_eq_bind, Option.bind_some, Option.pure_def]
    rw [List.takeWhile_append_of_pos hafter, List.dropWhile_append_of_pos hafter]
    simp [htrivia, markOf]

/-- What is split off is a receiver. -/
theorem of_splitReceiver? {ls receiver rest : List Lexeme} (hls : ∀ l ∈ ls, l.IsShaped)
    (h : splitReceiver? ls = some (receiver, rest)) : IsReceiver receiver ∧ ls = receiver ++ rest := by
  have hspace : ∀ l ∈ ls.takeWhile Lexeme.isTrivia, l.isTrivia :=
    fun l hl => List.mem_takeWhile_imp hl
  have hcut := List.takeWhile_append_dropWhile (p := Lexeme.isTrivia) (l := ls)
  unfold splitReceiver? at h
  cases hdrop : ls.dropWhile Lexeme.isTrivia with
  | nil => simp [hdrop] at h
  | cons l tail =>
    simp only [hdrop] at h
    rw [hdrop] at hcut
    have hmem : ∀ m ∈ l :: tail, m.IsShaped := fun m hm => hls m (by rw [← hcut]; simp [hm])
    -- behind the white space stands a group, or the name
    split_ifs at h with hopen
    · cases hsplit : splitClose '(' ')' 0 tail with
      | none => simp [hsplit] at h
      | some found =>
        obtain ⟨inside, behind⟩ := found
        obtain ⟨close, rfl, hclose, hrise⟩ := splitClose_eq_some_iff.1 hsplit
        simp only [hsplit, Option.bind_eq_bind, Option.bind_some, Option.pure_def,
          Option.some.injEq, Prod.mk.injEq] at h
        obtain ⟨rfl, rfl⟩ := h
        have hafter : ∀ m ∈ behind.takeWhile Lexeme.isTrivia, m.isTrivia :=
          fun m hm => List.mem_takeWhile_imp hm
        obtain rfl := (hmem l (by simp)).eq_markOf hopen
        obtain rfl := (hmem close (by simp)).eq_markOf hclose
        refine ⟨.group hspace hrise hafter, ?_⟩
        conv_lhs => rw [← hcut]
        simp [markOf, List.takeWhile_append_dropWhile]
    · obtain ⟨rfl, rfl⟩ := Prod.mk.inj (Option.some.inj h)
      exact ⟨.none hspace, hcut.symm⟩

/-- The lexemes of a function, from the keyword to the brace that closes its body. -/
structure Declaration where
  /-- Between the keyword and the name. -/
  receiver : List Lexeme
  name : Lexeme
  /-- Between the name and the brace that opens the body. -/
  parameters : List Lexeme
  /-- Between the braces. -/
  body : List Lexeme

namespace Declaration

/-- The lexemes of a function behind its keyword. -/
def tail (d : Declaration) : List Lexeme :=
  d.receiver ++ d.name :: (d.parameters ++ markOf '{' :: (d.body ++ [markOf '}']))

/-- The lexemes of a function. -/
def lexemes (d : Declaration) : List Lexeme := funcWord :: d.tail

/-- The lexemes of a function up to its body. -/
def opening (d : Declaration) : List Lexeme := funcWord :: (d.receiver ++ d.name :: d.parameters)

/-- The lexemes of a declaration: what opens it, and its body in braces. -/
theorem lexemes_eq (d : Declaration) :
    d.lexemes = d.opening ++ markOf '{' :: (d.body ++ [markOf '}']) := by
  simp [lexemes, tail, opening]

/-- What the reader of files makes of a function. -/
def function (d : Declaration) (comment : Option Text) : Function where
  leadingComment := comment
  opening := textOf (funcWord :: d.receiver)
  name := d.name.text
  parameters := textOf d.parameters ++ ['{']
  body := textOf d.body

/-- The grammar of functions: the body starts at the first brace outside parentheses and brackets, and
ends where its braces are balanced. -/
structure Valid (d : Declaration) : Prop where
  receiver : IsReceiver d.receiver
  name : d.name.kind = .word
  parameters : sink 0 d.parameters = some 0
  body : rise '{' '}' 0 d.body = some 0

/-- The lexemes of a declaration spell the text of its function. -/
theorem textOf_lexemes (d : Declaration) (comment : Option Text) :
    textOf d.lexemes = (d.function comment).text := by
  simp [lexemes, tail, function, Function.text, Function.signature, markOf]

end Declaration

/-- A valid declaration is read as its function, whatever follows. -/
theorem function?_append {d : Declaration} (h : d.Valid) (lead rest : List Lexeme) :
    function? lead funcWord (d.tail ++ rest) = some (d.function (commentText? lead), rest) := by
  have hbody : splitBody 0 (d.parameters ++ markOf '{' :: (d.body ++ markOf '}' :: rest)) =
      some (d.parameters, d.body ++ markOf '}' :: rest) :=
    splitBody_eq_some_iff.2 ⟨markOf '{', rfl, rfl, h.parameters⟩
  have hclose : splitClose '{' '}' 0 (d.body ++ markOf '}' :: rest) = some (d.body, rest) :=
    splitClose_eq_some_iff.2 ⟨markOf '}', rfl, rfl, h.body⟩
  have htail : d.tail ++ rest =
      d.receiver ++ d.name :: (d.parameters ++ markOf '{' :: (d.body ++ markOf '}' :: rest)) := by
    simp [Declaration.tail]
  rw [function?, htail, splitReceiver?_append h.receiver h.name]
  simp [h.name, hbody, hclose, Declaration.function, guard]

/-- A function is read exactly where a valid declaration stands. -/
theorem function?_eq_some_iff {lead ls rest : List Lexeme} {f : Function}
    (hls : ∀ l ∈ ls, l.IsShaped) :
    function? lead funcWord ls = some (f, rest) ↔
      ∃ d : Declaration, d.Valid ∧ ls = d.tail ++ rest ∧ f = d.function (commentText? lead) := by
  constructor
  · intro h
    simp only [function?, Option.bind_eq_bind, Option.bind_eq_some_iff, Prod.exists, guard] at h
    obtain ⟨receiver, behind, hreceiver, name, hhead, u, hname, parameters, inside, hbody,
      body, rest', hclose, heq⟩ := h
    -- a receiver, a name, parameters up to a brace, and a body up to the brace that closes it
    obtain ⟨hgrammar, rfl⟩ := of_splitReceiver? hls hreceiver
    obtain ⟨behind, rfl⟩ : ∃ tail, behind = name :: tail := by
      cases behind with
      | nil => simp at hhead
      | cons l behind => exact ⟨behind, by simpa using hhead⟩
    have hkind : name.kind = .word := by
      by_contra hne
      simp [hne] at hname
    obtain ⟨opening, rfl, hopening, hsink⟩ := splitBody_eq_some_iff.1 hbody
    obtain ⟨closing, rfl, hclosing, hrise⟩ := splitClose_eq_some_iff.1 hclose
    obtain ⟨rfl, rfl⟩ := Prod.mk.inj (Option.some.inj heq)
    obtain rfl := (hls opening (by simp)).eq_markOf hopening
    obtain rfl := (hls closing (by simp)).eq_markOf hclosing
    exact ⟨⟨receiver, name, parameters, body⟩, ⟨hgrammar, hkind, hsink, hrise⟩,
      by simp [Declaration.tail], rfl⟩
  · rintro ⟨d, hd, rfl, rfl⟩
    exact function?_append hd lead rest

end Scaffold.Go
