import Scaffold.Proofs.Go.Source

/-!
# Where a header is read

A header is read off a text exactly if its code starts with a package clause and every import behind the clause
is finished (`header_isSome_iff`). Code is what is neither white space nor a comment, and the code of a text in
two parts is that of the parts, as long as no literal and no comment of the first part is left open and a line
ends where they meet (`code_lex_append`).
-/

namespace Scaffold.Go

open Text

variable {l : Lexeme} {ls : List Lexeme}

/-! ## Clauses in code -/

/-- Code behind a package clause whose imports, up to the first other code, are all finished. A keyword of
imports with nothing at all behind it is finished as well. -/
inductive FinishedImports : List Lexeme → Prop
  | other {ls : List Lexeme} (h : ∀ l ∈ ls.head?, l ≠ importWord) : FinishedImports ls
  | keyword : FinishedImports [importWord]
  | path {path : Lexeme} {ls : List Lexeme} (hpath : path.kind = .literal) (h : FinishedImports ls) :
      FinishedImports (importWord :: path :: ls)
  | named {name path : Lexeme} {ls : List Lexeme} (hopen : name.kind ≠ .mark '(') (hname : name.kind ≠ .literal)
      (hpath : path.kind = .literal) (h : FinishedImports ls) :
      FinishedImports (importWord :: name :: path :: ls)
  | list {opening close : Lexeme} {inside ls : List Lexeme} (hopen : opening.kind = .mark '(')
      (hinside : rise '(' ')' 0 inside = some 0) (hclose : close.kind = .mark ')') (h : FinishedImports ls) :
      FinishedImports (importWord :: opening :: (inside ++ close :: ls))

/-- Code that starts with a package clause and finished imports. -/
def HasClause (ls : List Lexeme) : Prop :=
  ∃ name rest, ls = packageWord :: name :: rest ∧ name.kind = .word ∧ FinishedImports rest

/-- A lexeme is a word exactly if it is the lexeme of the word. -/
theorem isWord_iff_eq {w : Text} : l.isWord w ↔ l = ⟨.word, w⟩ := by
  obtain ⟨kind, text⟩ := l
  simp [Lexeme.isWord]

/-- Code without imports in front of a function has no import that is not finished. -/
theorem finishedImports_append (hls : importWord ∉ ls) (rest : List Lexeme) :
    FinishedImports (ls ++ funcWord :: rest) := by
  apply FinishedImports.other
  intro l hl
  cases ls with
  | nil =>
    obtain rfl : funcWord = l := Option.some.inj hl
    decide
  | cons m ls =>
    obtain rfl : m = l := Option.some.inj hl
    rintro rfl
    exact hls List.mem_cons_self

/-- Code without imports in front of a function starts with a package clause if it names a package, or if it ends
behind the keyword: then the keyword of functions is taken for the name. -/
theorem hasClause_append_iff {next : Lexeme} {rest : List Lexeme} (hls : importWord ∉ ls)
    (hnext : next ≠ importWord) :
    HasClause (ls ++ funcWord :: next :: rest) ↔
      ∃ names, ls = packageWord :: names ∧ ∀ l ∈ names.head?, l.kind = .word := by
  constructor
  · rintro ⟨name, behind, hlist, hname, -⟩
    rcases ls with _ | ⟨keyword, names⟩
    · cases (List.cons.inj hlist).1
    obtain ⟨rfl, hnames⟩ := List.cons.inj hlist
    refine ⟨names, rfl, fun l hl => ?_⟩
    cases names with
    | nil => cases hl
    | cons m names =>
      obtain rfl : m = l := Option.some.inj hl
      rw [(List.cons.inj hnames).1]
      exact hname
  · rintro ⟨names, rfl, hnames⟩
    cases names with
    | nil => exact ⟨funcWord, next :: rest, rfl, rfl, .other fun l hl => Option.some.inj hl ▸ hnext⟩
    | cons name names =>
      have hmem : importWord ∉ names := fun hmem => hls (by simp [hmem])
      exact ⟨name, _, rfl, hnames name rfl, finishedImports_append hmem _⟩

/-! ## Headers that are read to their end -/

/-- Whether the reader of a header that stands in a state gets through. -/
def getsThrough (state : HeaderState) (ls : List Lexeme) : Bool := (headerLength? state 0 0 ls).isSome

/-- What the reader has counted has no influence on whether it gets through. -/
theorem isSome_headerLength? (state : HeaderState) (seen done : Nat) (ls : List Lexeme) :
    (headerLength? state seen done ls).isSome = getsThrough state ls := by
  have hcounts (seen done seen' done' : Nat) :
      (headerLength? state seen done ls).isSome = (headerLength? state seen' done' ls).isSome := by
    induction ls generalizing state seen done seen' done' with
    | nil => cases state <;> rfl
    | cons l ls ih =>
      by_cases hl : l.isTrivia
      · rw [headerLength?_cons_trivia hl, headerLength?_cons_trivia hl]
        exact ih _ _ _ _ _
      · rw [headerLength?_cons (by simpa using hl), headerLength?_cons (by simpa using hl)]
        cases headerStep state l with
        | none => split_ifs <;> rfl
        | some next => exact ih _ _ _ _ _
  exact hcounts seen done 0 0

/-- White space and comments are passed. -/
theorem getsThrough_cons_trivia (hl : l.isTrivia) (state : HeaderState) (ls : List Lexeme) :
    getsThrough state (l :: ls) = getsThrough state ls := by
  rw [getsThrough, headerLength?_cons_trivia hl]
  exact isSome_headerLength? _ _ _ _

/-- A lexeme of code takes the header one step on, or ends it. -/
theorem getsThrough_cons (hl : l.isTrivia = false) (state : HeaderState) (ls : List Lexeme) :
    getsThrough state (l :: ls) = (headerStep state l).elim (decide (state = .clause)) (getsThrough · ls) := by
  rw [getsThrough, headerLength?_cons hl]
  cases headerStep state l with
  | none => by_cases hclause : state = .clause <;> simp [hclause]
  | some next => exact isSome_headerLength? _ _ _ _

/-- White space and comments have no influence on whether the reader gets through. -/
theorem getsThrough_code (state : HeaderState) (ls : List Lexeme) :
    getsThrough state (code ls) = getsThrough state ls := by
  induction ls generalizing state with
  | nil => rfl
  | cons l ls ih =>
    rw [code_cons]
    split_ifs with hl
    · rw [ih, getsThrough_cons_trivia hl]
    · rw [getsThrough_cons (by simpa using hl), getsThrough_cons (by simpa using hl)]
      simp only [ih]

/-! ### State by state -/

/-- Behind a clause the header goes on with an import only. -/
theorem getsThrough_clause_cons (hl : l.isTrivia = false) :
    getsThrough .clause (l :: ls) ↔ (l = importWord → getsThrough .keyword ls) := by
  rw [getsThrough_cons hl, headerStep, ← show l.isWord "import".toList ↔ l = importWord from isWord_iff_eq]
  by_cases himport : l.isWord "import".toList
  · rw [if_pos himport]
    exact ⟨fun h _ => h, fun h => h himport⟩
  · rw [if_neg himport]
    exact ⟨fun _ h => absurd h himport, fun _ => rfl⟩

/-- Behind `import` come a list, a path or a name. -/
theorem getsThrough_keyword_cons (hl : l.isTrivia = false) :
    getsThrough .keyword (l :: ls) = if l.kind = .mark '(' then getsThrough (.list 0) ls
      else if l.kind = .literal then getsThrough .clause ls else getsThrough .name ls := by
  rw [getsThrough_cons hl, headerStep]
  split_ifs <;> rfl

theorem getsThrough_name_cons (hl : l.isTrivia = false) :
    getsThrough .name (l :: ls) ↔ l.kind = .literal ∧ getsThrough .clause ls := by
  rw [getsThrough_cons hl, headerStep]
  by_cases hliteral : l.kind = .literal <;> simp [hliteral]

/-- A list of imports is finished by the parenthesis that closes it. -/
theorem getsThrough_list_iff :
    getsThrough (.list 0) ls ↔ ∃ inside close rest, ls = inside ++ close :: rest ∧ close.kind = .mark ')' ∧
      rise '(' ')' 0 inside = some 0 ∧ getsThrough .clause rest := by
  rw [getsThrough, headerLength?_list_eq]
  constructor
  · intro h
    -- the list ends where its parenthesis is closed, if it is
    cases hsplit : splitClose '(' ')' 0 ls with
    | none =>
      rw [hsplit] at h
      cases h
    | some split =>
      obtain ⟨inside, rest⟩ := split
      obtain ⟨close, hls, hclose, hrise⟩ := splitClose_eq_some_iff.1 hsplit
      rw [hsplit, Option.bind_some, isSome_headerLength?] at h
      exact ⟨inside, close, rest, hls, hclose, hrise, h⟩
  · rintro ⟨inside, close, rest, hls, hclose, hrise, hrest⟩
    have hsplit := splitClose_eq_some_iff.2 ⟨close, hls, hclose, hrise⟩
    rw [hsplit, Option.bind_some, isSome_headerLength?]
    exact hrest

/-- A header that ends with a clause has finished its imports. -/
theorem finishedImports_of_getsThrough (hls : ∀ l ∈ ls, l.isTrivia = false) (h : getsThrough .clause ls) :
    FinishedImports ls := by
  -- on the length, since an import takes more than one lexeme
  induction hlength : ls.length using Nat.strongRecOn generalizing ls with
  | ind n ih =>
  subst hlength
  rcases ls with _ | ⟨l, ls⟩
  · exact .other (by simp)
  rw [List.forall_mem_cons] at hls
  obtain ⟨hl, hls⟩ := hls
  by_cases himport : l = importWord
  swap
  · exact .other (by simpa using himport)
  subst himport
  have hkeyword := (getsThrough_clause_cons hl).1 h rfl
  rcases ls with _ | ⟨next, ls⟩
  · exact .keyword
  rw [List.forall_mem_cons] at hls
  obtain ⟨hnext, hls⟩ := hls
  rw [getsThrough_keyword_cons hnext] at hkeyword
  split_ifs at hkeyword with hopen hliteral
  · obtain ⟨inside, close, rest, rfl, hclose, hinside, hrest⟩ := getsThrough_list_iff.1 hkeyword
    have hcode : ∀ l ∈ rest, l.isTrivia = false := fun l hl => hls l (by simp [hl])
    have hshorter : rest.length < (importWord :: next :: (inside ++ close :: rest)).length := by
      simp only [List.length_cons, List.length_append]
      omega
    exact .list hopen hinside hclose (ih _ hshorter hcode hrest rfl)
  · have hshorter : ls.length < (importWord :: next :: ls).length := by
      simp only [List.length_cons]
      omega
    exact .path hliteral (ih _ hshorter hls hkeyword rfl)
  · rcases ls with _ | ⟨path, ls⟩
    · cases hkeyword
    rw [List.forall_mem_cons] at hls
    obtain ⟨hpath, hbehind⟩ := (getsThrough_name_cons hls.1).1 hkeyword
    have hshorter : ls.length < (importWord :: next :: path :: ls).length := by
      simp only [List.length_cons]
      omega
    exact .named hopen hliteral hpath (ih _ hshorter hls.2 hbehind rfl)

/-- Behind a package clause the reader gets through exactly if the imports are finished. -/
theorem getsThrough_clause_iff (hls : ∀ l ∈ ls, l.isTrivia = false) :
    getsThrough .clause ls ↔ FinishedImports ls := by
  refine ⟨finishedImports_of_getsThrough hls, fun h => ?_⟩
  have hkeyword {rest : List Lexeme} (hrest : getsThrough .keyword rest) :
      getsThrough .clause (importWord :: rest) := (getsThrough_clause_cons rfl).2 fun _ => hrest
  induction h with
  | @other ls h =>
    cases ls with
    | nil => rfl
    | cons l ls =>
      exact (getsThrough_clause_cons (hls l List.mem_cons_self)).2 fun himport => absurd himport (h l rfl)
  | keyword => rfl
  | @path path ls hpath h ih =>
    simp only [List.forall_mem_cons] at hls
    apply hkeyword
    rw [getsThrough_keyword_cons hls.2.1, if_neg (by simp [hpath]), if_pos hpath]
    exact ih hls.2.2
  | @named name path ls hopen hname hpath h ih =>
    simp only [List.forall_mem_cons] at hls
    apply hkeyword
    rw [getsThrough_keyword_cons hls.2.1, if_neg hopen, if_neg hname]
    exact (getsThrough_name_cons hls.2.2.1).2 ⟨hpath, ih hls.2.2.2⟩
  | @list opening close inside ls hopen hinside hclose h ih =>
    simp only [List.forall_mem_cons, List.forall_mem_append] at hls
    apply hkeyword
    rw [getsThrough_keyword_cons hls.2.1, if_pos hopen]
    exact getsThrough_list_iff.2 ⟨inside, close, ls, rfl, hclose, hinside, ih hls.2.2.2.2⟩

/-- The reader gets through from the start on exactly if a package clause and finished imports stand there. -/
theorem getsThrough_start_iff (hls : ∀ l ∈ ls, l.isTrivia = false) : getsThrough .start ls ↔ HasClause ls := by
  constructor
  · intro h
    rcases ls with _ | ⟨keyword, ls⟩
    · cases h
    rw [List.forall_mem_cons] at hls
    rw [getsThrough_cons hls.1, headerStep] at h
    split_ifs at h with hkeyword
    · rcases ls with _ | ⟨name, rest⟩
      · cases h
      replace hls := List.forall_mem_cons.1 hls.2
      rw [Option.elim_some, getsThrough_cons hls.1, headerStep] at h
      split_ifs at h with hname
      · rw [isWord_iff_eq.1 hkeyword]
        exact ⟨name, rest, rfl, hname, (getsThrough_clause_iff hls.2).1 h⟩
      · cases h
    · cases h
  · rintro ⟨name, rest, rfl, hname, hrest⟩
    simp only [List.forall_mem_cons] at hls
    rw [getsThrough_cons rfl]
    show getsThrough .package (name :: rest)
    rw [getsThrough_cons hls.2.1, headerStep, if_pos hname]
    exact (getsThrough_clause_iff hls.2.2).2 hrest

/-- A header is read exactly where the code starts with a package clause and finished imports. -/
theorem header_isSome_iff (s : Text) : (File.parse s).header.isSome ↔ HasClause (code (lex s)) := by
  have hcode : ∀ l ∈ code (lex s), l.isTrivia = false := by simp [code]
  rw [← getsThrough_start_iff hcode, getsThrough_code, getsThrough, File.parse, File.ofLexemes,
    Option.isSome_map]

/-- Behind a header, only the imports that follow decide whether the reader gets through. -/
theorem header_append_isSome_iff {header : List Lexeme} {package s t : Text} (h : IsHeader header package)
    (hlex : lex s = header ++ lex t) : (File.parse s).header.isSome ↔ FinishedImports (code (lex t)) := by
  have hcode : ∀ l ∈ code (lex t), l.isTrivia = false := by simp [code]
  rw [← getsThrough_clause_iff hcode, getsThrough_code, File.parse, File.ofLexemes, Option.isSome_map, hlex,
    h.reads, isSome_headerLength?]

/-! ## The code of a text in two parts -/

/-- White space at the start of a text is no code. -/
theorem code_lex_dropWhile (s : Text) : code (lex (s.dropWhile isGap)) = code (lex s) := by
  cases s with
  | nil => rfl
  | cons c s =>
    by_cases hc : isGap c
    · have hnext : nextLexeme c s = (.blank, s.takeWhile isGap) := by
        unfold nextLexeme
        rw [if_pos hc]
      have hdrop := @List.drop_left _ (s.takeWhile isGap) (s.dropWhile isGap)
      rw [List.takeWhile_append_dropWhile] at hdrop
      have htrivia : (Lexeme.mk .blank (c :: s.takeWhile isGap)).isTrivia := rfl
      rw [lex_cons, hnext, List.dropWhile_cons_of_pos hc, code_cons, if_pos htrivia, hdrop]
    · rw [List.dropWhile_cons_of_neg hc]

theorem code_lex_gap_append {gap : Text} (hgap : ∀ c ∈ gap, isGap c) (s : Text) :
    code (lex (gap ++ s)) = code (lex s) := by
  rw [← code_lex_dropWhile, List.dropWhile_append_of_pos hgap, code_lex_dropWhile]

/-- A closed lexeme that ends with a newline is white space. -/
theorem Lexeme.EndsBefore.getLast?_ne_newline {l : Lexeme} {s : Text} (h : l.EndsBefore s)
    (hclosed : l.isClosed) (hkind : l.kind ≠ .blank) : l.text.getLast? ≠ some '\n' := by
  obtain ⟨kind, text⟩ := l
  obtain ⟨c, tail, rfl, hshape⟩ := h
  -- the last character of a literal or a general comment is its closing mark
  cases hshape with
  | blank => exact absurd rfl hkind
  | word hc htail hs =>
    intro hlast
    have hword : ∀ d ∈ c :: tail, isWordChar d := List.forall_mem_cons.2 ⟨hc, htail⟩
    exact absurd (hword _ (List.mem_of_getLast? hlast)) (by decide)
  | quoted hq htail =>
    have hclosed' : closesQuote c tail := by
      rcases hq with rfl | rfl <;> simpa [Lexeme.isClosed] using hclosed
    have hlast := getLast?_of_closesQuote hclosed'
    rw [List.getLast?_cons, hlast]
    rcases hq with rfl | rfl <;> decide
  | raw htail =>
    have hlast : tail.getLast? = some '`' := by simpa [Lexeme.isClosed] using hclosed
    rw [List.getLast?_cons, hlast]
    decide
  | line htail hs =>
    intro hlast
    have hmem := List.mem_of_getLast? hlast
    simp only [List.mem_cons] at hmem
    rcases hmem with hslash | hslash | hmem
    · exact absurd hslash (by decide)
    · exact absurd hslash (by decide)
    · exact htail _ hmem rfl
  | general htail =>
    obtain ⟨front, rfl⟩ := endsWith_iff.1 (by simpa [Lexeme.isClosed] using hclosed)
    have hcut : '/' :: '*' :: (front ++ ['*', '/']) = ('/' :: '*' :: front ++ ['*']) ++ ['/'] := by simp
    show List.getLast? ('/' :: '*' :: (front ++ ['*', '/'])) ≠ _
    rw [hcut, List.getLast?_concat]
    decide
  | mark hgap hword hquote hs =>
    intro hlast
    obtain rfl : c = '\n' := by simpa using hlast
    exact absurd hgap (by decide)

/-- The code of a text in two parts is that of the parts, if every literal and every comment of the first part is
closed, and the first part is empty or ends with a newline, or the second one starts with a newline. -/
theorem code_lex_append {s t : Text} (hclosed : ∀ l ∈ lex s, l.isClosed)
    (hline : (∀ c ∈ s.getLast?, c = '\n') ∨ t.head? = some '\n') :
    code (lex (s ++ t)) = code (lex s) ++ code (lex t) := by
  have htext := textOf_lex s
  have hreads := reads_lex s
  rcases List.eq_nil_or_concat (lex s) with hnil | ⟨front, l, hlex⟩
  · rw [hnil] at htext
    rw [← htext]
    rfl
  rw [List.concat_eq_append] at hlex
  rw [hlex] at htext hreads hclosed
  have hl : l.EndsBefore [] := (reads_append.1 hreads).2.1
  rw [textOf_append, textOf_cons, textOf_nil, List.append_nil] at htext
  by_cases hkind : l.kind = .blank
  · -- the white space at the end of the first part goes on with that of the second
    have hgap := hl.blank_chars hkind
    have hfront : Reads front (l.text ++ t) := by
      apply (reads_append.1 hreads).1.congr
      obtain ⟨c, tail, hc, -⟩ := hl
      simp [hc]
    rw [← htext, List.append_assoc, lex_textOf_append hfront, code_append, code_lex_gap_append hgap, htext, hlex,
      code_append, code_cons]
    simp [Lexeme.isTrivia, hkind]
  · have hlast : ¬∀ c ∈ s.getLast?, c = '\n' := by
      intro hlast
      rw [← htext, List.getLast?_append_of_ne_nil _ hl.text_ne_nil] at hlast
      have hend := List.getLast?_eq_getLast_of_ne_nil hl.text_ne_nil
      apply hl.getLast?_ne_newline (hclosed l (by simp)) hkind
      rw [hend, hlast _ hend]
    have hread : Reads (front ++ [l]) t :=
      hreads.before_newline (hclosed l (by simp)) hkind (hline.resolve_left hlast)
    rw [← hlex] at hread
    have happend := lex_textOf_append hread
    rw [textOf_lex] at happend
    rw [happend, code_append]

end Scaffold.Go
