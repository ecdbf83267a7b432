import Scaffold.Proofs.Go.Opening

/-!
# Go sources by their declarations

A Go source is a package clause with imports, and declarations with white space in front of each: functions,
and constants, variables and types. `Source.Spells` says that a text is written in this way. The clauses
are a header for the reader of files (`IsClauses.isHeader`); `Clear` is the condition under which the
declarations behind them are what the reader finds.
-/

namespace Scaffold.Go

open Text

/-! ## Clauses -/

/-- A name that is not the keyword of functions. -/
def Lexeme.IsIdentifier (l : Lexeme) : Prop := l.kind = .word ∧ l ≠ funcWord

instance (l : Lexeme) : Decidable l.IsIdentifier := inferInstanceAs (Decidable (_ ∧ _))

/-- The keyword of a package clause. -/
def packageWord : Lexeme := ⟨.word, "package".toList⟩

/-- The keyword of imports. -/
def importWord : Lexeme := ⟨.word, "import".toList⟩

/-- An import of one package, perhaps under a name of its own or with all its names, or a list of
imports. -/
inductive IsImport : List Lexeme → Prop
  | path {space : List Lexeme} {path : Lexeme} (hspace : ∀ l ∈ space, l.isTrivia)
      (hpath : path.kind = .literal) : IsImport (importWord :: (space ++ [path]))
  | named {space between : List Lexeme} {name path : Lexeme} (hspace : ∀ l ∈ space, l.isTrivia)
      (hname : name.IsIdentifier ∨ name = markOf '.') (hbetween : ∀ l ∈ between, l.isTrivia)
      (hpath : path.kind = .literal) :
      IsImport (importWord :: (space ++ name :: (between ++ [path])))
  | list {space inside : List Lexeme} (hspace : ∀ l ∈ space, l.isTrivia)
      (hinside : Nested inside) :
      IsImport (importWord :: (space ++ (markOf '(' :: inside ++ [markOf ')'])))

/-- A package clause with imports behind it. -/
inductive IsClauses : List Lexeme → Text → Prop
  | package {space between : List Lexeme} {name : Lexeme} (hspace : ∀ l ∈ space, l.isTrivia)
      (hbetween : ∀ l ∈ between, l.isTrivia) (hname : name.IsIdentifier) :
      IsClauses (space ++ packageWord :: (between ++ [name])) name.text
  | import {clauses space ls : List Lexeme} {package : Text} (hclauses : IsClauses clauses package)
      (hspace : ∀ l ∈ space, l.isTrivia) (himport : IsImport ls) :
      IsClauses (clauses ++ (space ++ ls)) package

/-- A list of imports ends where its own parenthesis is closed. -/
private theorem headerLength?_list {depth depth' : Nat} {inside : List Lexeme}
    (h : rise '(' ')' depth inside = some depth') (seen done : Nat) (rest : List Lexeme) :
    headerLength? (.list depth) seen done (inside ++ rest) =
      headerLength? (.list depth') (seen + inside.length) done rest := by
  -- `rise` counts the brackets as the states of the header do
  induction inside generalizing depth seen with
  | nil =>
    obtain rfl : depth = depth' := Option.some.inj h
    rfl
  | cons l inside ih =>
    have hlen : seen + (l :: inside).length = seen + 1 + inside.length := by
      rw [List.length_cons]
      omega
    rw [List.cons_append, hlen]
    by_cases hl : l.isTrivia
    · have hrise : rise '(' ')' depth inside = some depth' := by
        simpa [rise, isTrivia_kind hl] using h
      rw [headerLength?_cons_trivia hl]
      exact ih hrise (seen + 1)
    · rw [headerLength?_cons (by simpa using hl)]
      simp only [rise] at h
      by_cases hclose : l.kind = .mark ')'
      · cases depth with
        | zero => simp [hclose] at h
        | succ depth =>
          rw [if_pos hclose] at h
          simpa [headerStep, hclose] using ih h (seen + 1)
      · rw [if_neg hclose] at h
        by_cases hopen : l.kind = .mark '('
        · rw [if_pos hopen] at h
          simpa [headerStep, hopen] using ih h (seen + 1)
        · rw [if_neg hopen] at h
          simpa [headerStep, hopen, hclose] using ih h (seen + 1)

/-- An import goes on with a header that stands behind a clause. -/
theorem IsImport.headerLength? {ls : List Lexeme} (h : IsImport ls) (seen done : Nat)
    (rest : List Lexeme) :
    Go.headerLength? .clause seen done (ls ++ rest) =
      Go.headerLength? .clause (seen + ls.length) (seen + ls.length) rest := by
  have hkeyword (tail : List Lexeme) :
      Go.headerLength? .clause seen done (importWord :: tail) =
        Go.headerLength? .keyword (seen + 1) done tail := by
    rw [headerLength?_cons rfl]
    rfl
  -- the three forms of an import; `hlen` is how far each has been read
  cases h with
  | @path space path hspace hpath =>
    rw [List.cons_append, hkeyword, List.append_assoc, headerLength?_trivia_append hspace,
      List.singleton_append, headerLength?_cons (by simp [Lexeme.isTrivia, hpath])]
    have hlen : seen + 1 + space.length + 1 = seen + (importWord :: (space ++ [path])).length := by
      simp only [List.length_cons, List.length_append, List.length_nil]
      omega
    simp [headerStep, hpath, hlen]
  | @named space between name path hspace hname hbetween hpath =>
    have hkind : name.isTrivia = false ∧ name.kind ≠ .mark '(' ∧ name.kind ≠ .literal := by
      rcases hname with ⟨hword, -⟩ | rfl
      · simp [Lexeme.isTrivia, hword]
      · decide
    rw [List.cons_append, hkeyword, List.append_assoc, headerLength?_trivia_append hspace,
      List.cons_append, headerLength?_cons hkind.1]
    have hlen : seen + 1 + space.length + 1 + between.length + 1 =
        seen + (importWord :: (space ++ name :: (between ++ [path]))).length := by
      simp only [List.length_cons, List.length_append, List.length_nil]
      omega
    simp only [headerStep, hkind, if_false]
    rw [if_neg (by simp), List.append_assoc, headerLength?_trivia_append hbetween,
      List.singleton_append, headerLength?_cons (by simp [Lexeme.isTrivia, hpath])]
    simp [headerStep, hpath, hlen]
  | @list space inside hspace hinside =>
    have hrise : rise '(' ')' 0 inside = some 0 :=
      rise_of_nest (show IsPair '(' ')' from rfl) hinside
    rw [List.cons_append, hkeyword, List.append_assoc, headerLength?_trivia_append hspace,
      List.append_assoc, List.cons_append, headerLength?_cons rfl]
    have hlen : seen + 1 + space.length + 1 + inside.length + 1 =
        seen + (importWord :: (space ++ (markOf '(' :: inside ++ [markOf ')']))).length := by
      simp only [List.length_cons, List.length_append, List.length_nil]
      omega
    show Go.headerLength? (.list 0) _ done (inside ++ ([markOf ')'] ++ rest)) = _
    rw [headerLength?_list hrise, List.singleton_append, headerLength?_cons rfl]
    show Go.headerLength? .clause _ (seen + 1 + space.length + 1 + inside.length + 1) rest = _
    rw [hlen]

/-- An import ends with code. -/
theorem IsImport.ends {ls : List Lexeme} (h : IsImport ls) :
    ∃ front l, ls = front ++ [l] ∧ l.isTrivia = false := by
  cases h with
  | @path space path hspace hpath =>
    exact ⟨importWord :: space, path, rfl, by simp [Lexeme.isTrivia, hpath]⟩
  | @named space between name path hspace hname hbetween hpath =>
    refine ⟨importWord :: (space ++ name :: between), path, by simp, ?_⟩
    simp [Lexeme.isTrivia, hpath]
  | @list space inside hspace hinside =>
    exact ⟨importWord :: (space ++ markOf '(' :: inside), markOf ')', by simp, rfl⟩

/-- Clauses are a header for the reader of files. -/
theorem IsClauses.isHeader {ls : List Lexeme} {package : Text} (h : IsClauses ls package) :
    IsHeader ls package := by
  -- the clause of the package starts the header, and each import makes it longer
  induction h with
  | @package space between name hspace hbetween hname =>
    have hcode : code (space ++ packageWord :: (between ++ [name])) = [packageWord, name] := by
      rw [code_append, code_eq_nil_iff.2 hspace, code_cons, code_append, code_eq_nil_iff.2 hbetween,
        code_cons, word_not_isTrivia hname.1]
      rfl
    refine ⟨fun rest => ?_, ⟨packageWord, name, [], hcode, rfl, hname.1, rfl⟩, ?_⟩
    · have hlen : 0 + space.length + 1 + between.length + 1 =
          (space ++ packageWord :: (between ++ [name])).length := by
        simp only [List.length_append, List.length_cons, List.length_nil]
        omega
      rw [List.append_assoc, headerLength?_trivia_append hspace, List.cons_append,
        headerLength?_cons rfl]
      show headerLength? .package (0 + space.length + 1) 0 (between ++ [name] ++ rest) = _
      rw [List.append_assoc, headerLength?_trivia_append hbetween, List.singleton_append,
        headerLength?_cons (word_not_isTrivia hname.1)]
      simp only [headerStep, hname.1, if_true]
      rw [hlen]
    · exact ⟨space ++ packageWord :: between, name, by simp, word_not_isTrivia hname.1⟩
  | @«import» clauses space ls package hclauses hspace himport ih =>
    obtain ⟨keyword, name, more, hcode, hkeyword, hname, hpackage⟩ := ih.names
    refine ⟨fun rest => ?_, ⟨keyword, name, more ++ code (space ++ ls), ?_, hkeyword, hname,
      hpackage⟩, ?_⟩
    · have hlen : clauses.length + space.length + ls.length =
          (clauses ++ (space ++ ls)).length := by
        simp only [List.length_append]
        omega
      rw [List.append_assoc, ih.reads, List.append_assoc, headerLength?_trivia_append hspace,
        himport.headerLength?, hlen]
    · rw [code_append, hcode]
      rfl
    · obtain ⟨front, l, rfl, hl⟩ := himport.ends
      exact ⟨clauses ++ (space ++ front), l, by simp, hl⟩

/-! ## Loose clauses -/

private theorem loose_nil : Loose [] := ⟨nested_nil, by simp [surface, surfaceFrom]⟩

/-- Trivia are loose. -/
private theorem loose_of_isTrivia {ls : List Lexeme} (h : ∀ l ∈ ls, l.isTrivia) : Loose ls := by
  refine ⟨nested_of_isTrivia h, fun l hl => ?_⟩
  by_contra hword
  have hkind : l.kind = .word := (Lexeme.isWord_iff.1 (by simpa using hword)).1
  have htrivia := h l (mem_of_mem_surfaceFrom hl)
  simp [word_not_isTrivia hkind] at htrivia

/-- A lexeme that is no bracket and no keyword of functions is loose in front of loose lexemes. -/
private theorem loose_cons {l : Lexeme} {ls : List Lexeme} (hopen : closing? l.kind = none)
    (hclose : isClosing l.kind = false) (hl : l.isWord "func".toList = false) (h : Loose ls) :
    Loose (l :: ls) := by
  have hnested : Nested [l] := by simp [Nested, nest, nestStep, hopen, hclose]
  rw [← List.singleton_append, loose_append hnested]
  refine ⟨⟨hnested, ?_⟩, h⟩
  simpa [surface, surfaceFrom] using hl

/-- No identifier is the keyword of functions. -/
private theorem Lexeme.IsIdentifier.isWord {l : Lexeme} (h : l.IsIdentifier) :
    l.isWord "func".toList = false := by
  obtain ⟨kind, text⟩ := l
  obtain ⟨rfl, hne⟩ : kind = .word ∧ _ := h
  simpa [Lexeme.isWord, funcWord] using hne

/-- An identifier can stand in front of loose lexemes. -/
private theorem loose_identifier {l : Lexeme} {ls : List Lexeme} (hl : l.IsIdentifier)
    (h : Loose ls) : Loose (l :: ls) := by
  apply loose_cons _ _ hl.isWord h <;> rw [hl.1] <;> rfl

private theorem loose_literal {l : Lexeme} (hl : l.kind = .literal) : Loose [l] := by
  apply loose_cons _ _ _ loose_nil
  · rw [hl]; rfl
  · rw [hl]; rfl
  · simp [Lexeme.isWord, hl]

/-- Imports are loose. -/
theorem IsImport.loose {ls : List Lexeme} (h : IsImport ls) : Loose ls := by
  have hkeyword {tail : List Lexeme} (htail : Loose tail) : Loose (importWord :: tail) :=
    loose_identifier (by decide) htail
  cases h with
  | path hspace hpath =>
    apply hkeyword
    exact (loose_append (nested_of_isTrivia hspace)).2
      ⟨loose_of_isTrivia hspace, loose_literal hpath⟩
  | @named space between name path hspace hname hbetween hpath =>
    have hrest : Loose (between ++ [path]) := (loose_append (nested_of_isTrivia hbetween)).2
      ⟨loose_of_isTrivia hbetween, loose_literal hpath⟩
    apply hkeyword
    apply (loose_append (nested_of_isTrivia hspace)).2 ⟨loose_of_isTrivia hspace, _⟩
    rcases hname with hname | rfl
    · exact loose_identifier hname hrest
    · exact loose_cons rfl rfl rfl hrest
  | @list space inside hspace hinside =>
    obtain ⟨hnested, hsurface⟩ := nested_group hinside
    apply hkeyword
    apply (loose_append (nested_of_isTrivia hspace)).2 ⟨loose_of_isTrivia hspace, hnested, _⟩
    rw [hsurface]
    decide

/-- No function is read among clauses. -/
theorem IsClauses.loose {ls : List Lexeme} {package : Text} (h : IsClauses ls package) :
    Loose ls := by
  induction h with
  | @package space between name hspace hbetween hname =>
    apply (loose_append (nested_of_isTrivia hspace)).2 ⟨loose_of_isTrivia hspace, _⟩
    apply loose_identifier (by decide)
    exact (loose_append (nested_of_isTrivia hbetween)).2
      ⟨loose_of_isTrivia hbetween, loose_identifier hname loose_nil⟩
  | «import» hclauses hspace himport ih =>
    apply (loose_append ih.nested).2 ⟨ih, _⟩
    exact (loose_append (nested_of_isTrivia hspace)).2
      ⟨loose_of_isTrivia hspace, himport.loose⟩

/-! ## Declarations -/

/-- A declaration at the top level of a file. -/
inductive Item where
  | function (d : Declaration)
  /-- Constants, variables or types. -/
  | other (ls : List Lexeme)

/-- The keywords of constants, variables and types. -/
def otherWords : List Text := ["const".toList, "var".toList, "type".toList]

/-- The lexemes of constants, variables or types. Their brackets are nested; nothing is said about what
stands between, so that functions can occur in their types and values. -/
structure IsOther (ls : List Lexeme) : Prop where
  nested : Nested ls
  keyword : ∃ word rest, ls = word :: rest ∧ word.kind = .word ∧ word.text ∈ otherWords
  ends : ∃ front l, ls = front ++ [l] ∧ l.isTrivia = false

namespace Item

/-- The lexemes of a declaration. -/
def lexemes : Item → List Lexeme
  | function d => d.lexemes
  | other ls => ls

/-- The declaration of a function, if it is one. -/
def function? : Item → Option Declaration
  | function d => some d
  | other _ => none

/-- Whether a declaration is put together as it should be. -/
def IsProper : Item → Prop
  | function d => d.Nests
  | other ls => IsOther ls

end Item

/-- The lexemes of declarations with white space in front of each, and of what follows them. -/
def listed (items : List (Lexeme × Item)) (last : List Lexeme) : List Lexeme :=
  items.flatMap (fun i => i.1 :: i.2.lexemes) ++ last

@[simp] theorem listed_nil (last : List Lexeme) : listed [] last = last := rfl

@[simp] theorem listed_cons (space : Lexeme) (item : Item) (items : List (Lexeme × Item))
    (last : List Lexeme) :
    listed ((space, item) :: items) last = space :: (item.lexemes ++ listed items last) := by
  simp [listed]

/-- The runs of neighbouring declarations that are no functions, with the white space between them; `run`
is the first of them so far. A run is empty where two functions follow each other. -/
def runs : (run : List Lexeme) → List (Lexeme × Item) → List (List Lexeme)
  | run, [] => [run]
  | run, (_, .function _) :: items => run :: runs [] items
  | run, (space, .other ls) :: items => runs (if run = [] then ls else run ++ space :: ls) items

/-- A Go source by its declarations. -/
structure Source where
  /-- The package clause and the imports. -/
  header : List Lexeme
  package : Text
  /-- The declarations, each with the white space in front of it. -/
  items : List (Lexeme × Item)
  /-- The white space at the end. -/
  last : List Lexeme

namespace Source

/-- The functions of a source, from top to bottom. -/
def functions (src : Source) : List Declaration := src.items.filterMap (Item.function? ·.2)

/-- The texts of all that a source declares between functions. -/
def texts (src : Source) : List Text := ((runs [] src.items).map textOf).filter (· ≠ [])

/-- A text is a Go source with these declarations: white space stands in front of each, brackets are
nested in each, and literals and comments are closed. -/
structure Spells (src : Source) (s : Text) : Prop where
  lex : lex s = src.header ++ listed src.items src.last
  header : IsClauses src.header src.package
  space : ∀ i ∈ src.items, i.1.kind = .blank
  proper : ∀ i ∈ src.items, i.2.IsProper
  last : ∀ l ∈ src.last, l.kind = .blank
  sturdy : Sturdy (Go.lex s)

end Source

/-! ## What can be mistaken -/

/-- A function is read in `ls` at a keyword outside brackets, if `behind` follows. -/
def StartsFunction (ls behind : List Lexeme) : Prop :=
  ∃ front back d rest, ls = front ++ funcWord :: back ∧ Nested front ∧ d.Valid ∧
    back ++ behind = Declaration.tail d ++ rest

/-- Nothing in declarations is mistaken: no brace opens outside brackets in front of the body of a
function, and no function is read in another declaration with all that follows it. -/
def Clear (last : List Lexeme) : List (Lexeme × Item) → Prop
  | [] => True
  | (_, .function d) :: items => Braceless d.parameters ∧ Clear last items
  | (_, .other ls) :: items => ¬StartsFunction ls (listed items last) ∧ Clear last items

end Scaffold.Go
