import Scaffold.Proofs.Go.Header
import Scaffold.Proofs.Go.TokenGroups

/-!
# Headers by tokens

The byte scanner reads a header off the tokens that are no comments, each with its number, and jumps over a list
of imports to the token that closes it. The reader of files goes through the lexemes with a state. Both take the
same clauses: behind a clause, an import is a path, a name and a path, or a list up to the parenthesis that
closes it, and anything else spoils the header (`takesImports`). So the scanner finds the header that the
reader finds, and the name of the package (`headerEnd_eq`).
-/

namespace Scaffold.Go

open Text

variable {front ls : List Lexeme} {l : Lexeme} {kind : TokenKind} {s : Text}

/-! ## Tokens that are no comments -/

/-- The tokens of lexemes that are no comments, with their numbers, where `front` stands in front. -/
def codeTokens (front ls : List Lexeme) : List (Token × Nat) :=
  ((tokensOf (extent front) ls).zipIdx (tokenCount front)).filter (·.1.kind ≠ .comment)

/-- The tokens of code in two lists, with their numbers. -/
theorem codeTokens_append (front ls ms : List Lexeme) :
    codeTokens front (ls ++ ms) = codeTokens front ls ++ codeTokens (front ++ ls) ms := by
  rw [codeTokens, tokensOf_append, List.zipIdx_append, List.filter_append, length_tokensOf, codeTokens,
    codeTokens, extent_append, tokenCount_append]
  rfl

theorem codeTokens_singleton_of_trivia (h : l.isTrivia) (front : List Lexeme) : codeTokens front [l] = [] := by
  rw [codeTokens, tokensOf, Lexeme.token?]
  have hkind : l.kind = .blank ∨ l.kind = .comment := by simpa [Lexeme.isTrivia] using h
  rcases hkind with hkind | hkind <;> rw [hkind] <;> rfl

/-- Trivia make no tokens of code. -/
theorem codeTokens_trivia (h : ∀ l ∈ ls, l.isTrivia) (front : List Lexeme) : codeTokens front ls = [] := by
  induction ls generalizing front with
  | nil => rfl
  | cons l ls ih =>
    obtain ⟨hl, hls⟩ := List.forall_mem_cons.1 h
    rw [← List.singleton_append, codeTokens_append, codeTokens_singleton_of_trivia hl, ih hls]
    rfl

/-- Code makes a token, with its number. -/
theorem codeTokens_cons (hl : l.isTrivia = false) (hkind : tokenKind? l.kind = some kind)
    (front ls : List Lexeme) :
    codeTokens front (l :: ls) =
      (⟨kind, extent front, extent front + byteSize l.text⟩, tokenCount front) ::
        codeTokens (front ++ [l]) ls := by
  have hcode : kind ≠ .comment := by
    rintro rfl
    cases h : l.kind <;> rw [h] at hkind <;> cases hkind
    simp [Lexeme.isTrivia, h] at hl
  rw [← List.singleton_append, codeTokens_append, codeTokens, tokensOf_cons hkind, tokensOf,
    List.zipIdx_singleton, List.filter_singleton]
  simp [hcode]

/-- White space and comments make no code. -/
theorem codeTokens_trivia_append {space : List Lexeme} (hspace : ∀ l ∈ space, l.isTrivia)
    (front ls : List Lexeme) : codeTokens front (space ++ ls) = codeTokens (front ++ space) ls := by
  rw [codeTokens_append, codeTokens_trivia hspace, List.nil_append]

/-- The numbers of tokens lie between those in front and those behind. -/
theorem number_of_mem_codeTokens {t : Token × Nat} (h : t ∈ codeTokens front ls) :
    tokenCount front ≤ t.2 ∧ t.2 < tokenCount (front ++ ls) := by
  obtain ⟨hmem, -⟩ := List.mem_filter.1 h
  have hle := List.le_snd_of_mem_zipIdx hmem
  have hlt := List.snd_lt_add_of_mem_zipIdx hmem
  rw [length_tokensOf, ← tokenCount_append] at hlt
  exact ⟨hle, hlt⟩

/-- Behind the token that closes a list of imports come those with larger numbers. -/
theorem dropWhile_codeTokens {inside behind : List Lexeme} {close : Lexeme} (hclose : close.kind ≠ .blank)
    (front : List Lexeme) :
    (codeTokens front (inside ++ close :: behind)).dropWhile (·.2 ≤ tokenCount (front ++ inside)) =
      codeTokens (front ++ inside ++ [close]) behind := by
  have hlist : inside ++ close :: behind = inside ++ [close] ++ behind := by simp
  have hcount : tokenCount (front ++ (inside ++ [close])) = tokenCount (front ++ inside) + 1 := by
    rw [← List.append_assoc, tokenCount_append_cons hclose]
    rfl
  rw [hlist, codeTokens_append, List.dropWhile_append_of_pos, List.append_assoc]
  -- the tokens behind the closing one have larger numbers, those in front have not
  · cases hbehind : codeTokens (front ++ (inside ++ [close])) behind with
    | nil => rfl
    | cons t ts =>
      have hmem : t ∈ codeTokens (front ++ (inside ++ [close])) behind := hbehind ▸ List.mem_cons_self
      have hnumber := (number_of_mem_codeTokens hmem).1
      rw [List.dropWhile_cons_of_neg]
      simp only [decide_eq_true_eq]
      omega
  · intro t ht
    have hnumber := (number_of_mem_codeTokens ht).2
    simp only [decide_eq_true_eq]
    omega

/-- Either all lexemes are white space and comments, or there is a first one that is code. -/
theorem trivia_or_code (ls : List Lexeme) :
    (∀ l ∈ ls, l.isTrivia) ∨
      ∃ space l rest, ls = space ++ l :: rest ∧ (∀ m ∈ space, m.isTrivia) ∧ l.isTrivia = false := by
  cases hdrop : ls.dropWhile Lexeme.isTrivia with
  | nil => exact .inl (List.dropWhile_eq_nil_iff.1 hdrop)
  | cons l rest =>
    obtain ⟨hcut, hcode⟩ := eq_cons_of_dropWhile hdrop
    exact .inr ⟨_, l, rest, hcut, fun m hm => List.mem_takeWhile_imp hm, hcode⟩

/-! ## Imports -/

theorem tokenKind_eq_word_iff (h : tokenKind? l.kind = some kind) : kind = .word ↔ l.kind = .word := by
  cases hl : l.kind <;> rw [hl] at h <;> cases h <;> simp

theorem tokenKind_eq_literal_iff (h : tokenKind? l.kind = some kind) : kind = .literal ↔ l.kind = .literal := by
  cases hl : l.kind <;> rw [hl] at h <;> cases h <;> simp

/-- Behind a clause that ends with `front`, the scanner takes the imports that the reader takes. -/
def TakesImports (s : Text) (front ls : List Lexeme) : Prop :=
  importsEnd s (tokensOf 0 (lex s)) (extent front) (codeTokens front ls) =
    .ok ((headerLength? .clause front.length front.length ls).map fun n => extent ((lex s).take n))

/-- Both stop where they stand. -/
theorem takesImports_of_stop (hall : lex s = front ++ ls)
    (hscan : importsEnd s (tokensOf 0 (lex s)) (extent front) (codeTokens front ls) = .ok (some (extent front)))
    (hread : headerLength? .clause front.length front.length ls = some front.length) :
    TakesImports s front ls := by
  have htake : (lex s).take front.length = front := by rw [hall, List.take_left]
  rw [TakesImports, hscan, hread, Option.map_some, htake]

/-- Behind trivia only there are no imports. -/
theorem takesImports_of_trivia (hall : lex s = front ++ ls) (hls : ∀ l ∈ ls, l.isTrivia) :
    TakesImports s front ls := by
  apply takesImports_of_stop hall
  · rw [codeTokens_trivia hls, importsEnd]
  · rw [headerLength?_trivia hls]
    rfl

section

variable {space after more : List Lexeme} {keyword next : Lexeme}

/-- Other code is no import. -/
theorem takesImports_of_other (hall : lex s = front ++ (space ++ l :: more)) (hspace : ∀ m ∈ space, m.isTrivia)
    (hl : l.isTrivia = false) (hother : ¬l.isWord "import".toList) :
    TakesImports s front (space ++ l :: more) := by
  obtain ⟨kind, hkind⟩ := exists_tokenKind? hl
  have hlist : lex s = (front ++ space) ++ l :: more := by simp [hall]
  apply takesImports_of_stop hall
  · rw [codeTokens_trivia_append hspace, codeTokens_cons hl hkind, importsEnd.eq_def]
    simp only [ne_eq, tokenText_lexeme hlist kind, tokenKind_eq_word_iff hkind, bind, Except.bind, pure,
      Except.pure]
    by_cases hword : l.kind = .word
    · have himport : l.text ≠ "import".toList := fun himport => hother (Lexeme.isWord_iff.2 ⟨hword, himport⟩)
      rw [if_neg (not_not_intro hword), if_pos himport]
    · rw [if_pos hword]
  · have hstep : headerStep .clause l = none := by rw [headerStep, if_neg hother]
    rw [headerLength?_trivia_append hspace, headerLength?_cons hl, hstep]
    rfl

/-- A keyword of imports with nothing behind it is no import either. -/
theorem takesImports_of_keyword (hall : lex s = front ++ (space ++ keyword :: after))
    (hspace : ∀ m ∈ space, m.isTrivia) (hkeyword : keyword.isWord "import".toList)
    (hafter : ∀ m ∈ after, m.isTrivia) :
    TakesImports s front (space ++ keyword :: after) := by
  obtain ⟨hword, himport⟩ := Lexeme.isWord_iff.1 hkeyword
  have hkind : tokenKind? keyword.kind = some .word := by rw [hword]; rfl
  have hlist : lex s = (front ++ space) ++ keyword :: after := by simp [hall]
  apply takesImports_of_stop hall
  · rw [codeTokens_trivia_append hspace, codeTokens_cons (word_not_isTrivia hword) hkind,
      codeTokens_trivia hafter, importsEnd.eq_def]
    have htext := tokenText_lexeme hlist .word
    rw [himport] at htext ⊢
    simp only [ne_eq, htext, not_true_eq_false, if_false, bind, Except.bind, pure, Except.pure]
  · have hstep : headerStep .clause keyword = some .keyword := by rw [headerStep, if_pos hkeyword]
    rw [headerLength?_trivia_append hspace, headerLength?_cons (word_not_isTrivia hword), hstep]
    simp only [if_neg (show HeaderState.keyword ≠ .clause by decide)]
    rw [headerLength?_trivia hafter]
    rfl

/-- What the scanner does behind a keyword of imports. -/
theorem importsEnd_next (hall : lex s = front ++ (space ++ keyword :: (after ++ next :: more)))
    (hspace : ∀ m ∈ space, m.isTrivia) (hkeyword : keyword.isWord "import".toList)
    (hafter : ∀ m ∈ after, m.isTrivia)
    (hnext : next.isTrivia = false) (stop : Nat) :
    importsEnd s (tokensOf 0 (lex s)) stop (codeTokens front (space ++ keyword :: (after ++ next :: more))) =
      if next.kind = .mark '(' then
        (matching? (tokensOf 0 (lex s)) '(' ')' (tokenCount (front ++ space ++ [keyword] ++ after))).elim
          (.ok none) fun close => (itemAt (tokensOf 0 (lex s)) close).bind fun last =>
            importsEnd s (tokensOf 0 (lex s)) last.stop
              ((codeTokens (front ++ space ++ [keyword] ++ after ++ [next]) more).dropWhile (·.2 ≤ close))
      else
        (((codeTokens (front ++ space ++ [keyword] ++ after) (next :: more)).take 2).findIdx?
          (·.1.kind = .literal)).elim (.ok none) fun k =>
            (itemAt (codeTokens (front ++ space ++ [keyword] ++ after) (next :: more)) k).bind fun path =>
              importsEnd s (tokensOf 0 (lex s)) path.1.stop
                ((codeTokens (front ++ space ++ [keyword] ++ after) (next :: more)).drop (k + 1)) := by
  obtain ⟨hword, himport⟩ := Lexeme.isWord_iff.1 hkeyword
  obtain ⟨kind, hkind⟩ := exists_tokenKind? hnext
  have hkind' : tokenKind? keyword.kind = some .word := by rw [hword]; rfl
  have hlist : lex s = (front ++ space) ++ keyword :: (after ++ next :: more) := by simp [hall]
  have hplain : PlainMarks (next :: more) := by
    have hplain := (reads_lex s).plainMarks
    have hcut : lex s = (front ++ space ++ [keyword] ++ after) ++ next :: more := by simp [hall]
    rw [hcut] at hplain
    exact hplain.of_append
  rw [codeTokens_trivia_append hspace, codeTokens_cons (word_not_isTrivia hword) hkind',
    codeTokens_trivia_append hafter, codeTokens_cons hnext hkind, importsEnd.eq_def]
  have htext := tokenText_lexeme hlist .word
  rw [himport] at htext ⊢
  simp only [ne_eq, htext, not_true_eq_false, if_false, bind, Except.bind, pure, Except.pure,
    tokenKind_eq_mark_iff hplain hkind (show isAscii '(' by decide)]
  split_ifs
  · cases matching? (tokensOf 0 (lex s)) '(' ')' (tokenCount (front ++ space ++ [keyword] ++ after)) <;> rfl
  · split
    · next hnone =>
      rw [hnone]
      rfl
    · next k hsome =>
      rw [hsome]
      rfl

/-- What the reader does behind a keyword of imports. -/
theorem headerLength?_next (hspace : ∀ m ∈ space, m.isTrivia) (hkeyword : keyword.isWord "import".toList)
    (hafter : ∀ m ∈ after, m.isTrivia) (front more : List Lexeme) (done : Nat) :
    headerLength? .clause front.length done (space ++ keyword :: (after ++ next :: more)) =
      headerLength? .keyword (front ++ space ++ [keyword] ++ after).length done (next :: more) := by
  have hlen : (front ++ space ++ [keyword] ++ after).length =
      front.length + space.length + 1 + after.length := by
    simp only [List.length_append, List.length_singleton]
  have hstep : headerStep .clause keyword = some .keyword := by rw [headerStep, if_pos hkeyword]
  have hcode := word_not_isTrivia (Lexeme.isWord_iff.1 hkeyword).1
  rw [headerLength?_trivia_append hspace, headerLength?_cons hcode, hstep]
  simp only [if_neg (show HeaderState.keyword ≠ .clause by decide)]
  rw [headerLength?_trivia_append hafter, hlen]

/-- The position behind the last lexeme of an import. -/
theorem TakesImports.behind {path : Lexeme} {rest : List Lexeme} (h : TakesImports s (front ++ [path]) rest) :
    importsEnd s (tokensOf 0 (lex s)) (extent front + byteSize path.text) (codeTokens (front ++ [path]) rest) =
      .ok ((headerLength? .clause (front.length + 1) (front.length + 1) rest).map
        fun n => extent ((lex s).take n)) := by
  rw [TakesImports, extent_append, extent_cons, extent_nil, Nat.add_zero, List.length_append] at h
  exact h

/-- A path. -/
theorem takesImports_path (hall : lex s = front ++ (space ++ keyword :: (after ++ next :: more)))
    (hspace : ∀ m ∈ space, m.isTrivia) (hkeyword : keyword.isWord "import".toList)
    (hafter : ∀ m ∈ after, m.isTrivia)
    (hnext : next.kind = .literal) (h : TakesImports s (front ++ space ++ [keyword] ++ after ++ [next]) more) :
    TakesImports s front (space ++ keyword :: (after ++ next :: more)) := by
  have hcode : next.isTrivia = false := by simp [Lexeme.isTrivia, hnext]
  have hopen : next.kind ≠ .mark '(' := by simp [hnext]
  have hstep : headerStep .keyword next = some .clause := by rw [headerStep, if_neg hopen, if_pos hnext]
  have hkind : tokenKind? next.kind = some .literal := by rw [hnext]; rfl
  rw [TakesImports, importsEnd_next hall hspace hkeyword hafter hcode,
    headerLength?_next hspace hkeyword hafter, headerLength?_cons hcode, hstep, if_neg hopen,
    codeTokens_cons hcode hkind]
  exact h.behind

/-- A name, and a path behind it. -/
theorem takesImports_named (hall : lex s = front ++ (space ++ keyword :: (after ++ next :: more)))
    (hspace : ∀ m ∈ space, m.isTrivia) (hkeyword : keyword.isWord "import".toList)
    (hafter : ∀ m ∈ after, m.isTrivia)
    (hcode : next.isTrivia = false) (hopen : next.kind ≠ .mark '(') (hnext : next.kind ≠ .literal)
    (h : ∀ between path rest, more = between ++ path :: rest →
      TakesImports s (front ++ space ++ [keyword] ++ after ++ [next] ++ between ++ [path]) rest) :
    TakesImports s front (space ++ keyword :: (after ++ next :: more)) := by
  obtain ⟨kind, hkind⟩ := exists_tokenKind? hcode
  have hname : kind ≠ .literal := mt (tokenKind_eq_literal_iff hkind).1 hnext
  have hstep : headerStep .keyword next = some .name := by rw [headerStep, if_neg hopen, if_neg hnext]
  rw [TakesImports, importsEnd_next hall hspace hkeyword hafter hcode,
    headerLength?_next hspace hkeyword hafter, headerLength?_cons hcode, hstep, if_neg hopen,
    codeTokens_cons hcode hkind]
  simp only [if_neg (show HeaderState.name ≠ .clause by decide), List.take_succ_cons, List.findIdx?_cons, hname,
    decide_false, Bool.false_eq_true, if_false]
  rcases trivia_or_code more with hbetween | ⟨between, path, rest, rfl, hbetween, hpath⟩
  · rw [codeTokens_trivia hbetween, headerLength?_trivia hbetween]
    rfl
  obtain ⟨kind', hkind'⟩ := exists_tokenKind? hpath
  rw [codeTokens_trivia_append hbetween, codeTokens_cons hpath hkind', headerLength?_trivia_append hbetween,
    headerLength?_cons hpath]
  -- behind the name comes a path, or neither finds an import
  by_cases hliteral : path.kind = .literal
  · have hstep' : headerStep .name path = some .clause := by rw [headerStep, if_pos hliteral]
    have hlen : (front ++ space ++ [keyword] ++ after).length + 1 + between.length =
        (front ++ space ++ [keyword] ++ after ++ [next] ++ between).length := by
      simp only [List.length_append, List.length_singleton]
    rw [hstep', hlen]
    simp only [List.take_succ_cons, List.findIdx?_cons, (tokenKind_eq_literal_iff hkind').2 hliteral,
      decide_true, if_true]
    exact (h between path rest rfl).behind
  · have hstep' : headerStep .name path = none := by rw [headerStep, if_neg hliteral]
    have hother : kind' ≠ .literal := mt (tokenKind_eq_literal_iff hkind').1 hliteral
    rw [hstep']
    simp only [List.take_succ_cons, List.take_zero, List.findIdx?_cons, List.findIdx?_nil, hother, decide_false,
      Bool.false_eq_true, if_false]
    rfl

/-- A list of imports, up to the parenthesis that closes it. -/
theorem takesImports_list (hall : lex s = front ++ (space ++ keyword :: (after ++ next :: more)))
    (hspace : ∀ m ∈ space, m.isTrivia) (hkeyword : keyword.isWord "import".toList)
    (hafter : ∀ m ∈ after, m.isTrivia)
    (hopen : next.kind = .mark '(')
    (h : ∀ inside close rest, more = inside ++ close :: rest →
      TakesImports s (front ++ space ++ [keyword] ++ after ++ [next] ++ inside ++ [close]) rest) :
    TakesImports s front (space ++ keyword :: (after ++ next :: more)) := by
  have hcode : next.isTrivia = false := by simp [Lexeme.isTrivia, hopen]
  have hlist : lex s = (front ++ space ++ [keyword] ++ after) ++ next :: more := by simp [hall]
  have hplain : PlainMarks more := by
    have hplain := (reads_lex s).plainMarks
    rw [hlist] at hplain
    exact hplain.of_append.tail
  have hstep : headerStep .keyword next = some (.list 0) := by rw [headerStep, if_pos hopen]
  rw [TakesImports, importsEnd_next hall hspace hkeyword hafter hcode,
    headerLength?_next hspace hkeyword hafter, headerLength?_cons hcode, hstep, if_pos hopen,
    matching?_tokens (by decide) (by decide) (by decide) hlist hopen hplain]
  simp only [if_neg (show HeaderState.list 0 ≠ .clause by decide)]
  rw [headerLength?_list_eq]
  -- both look for the parenthesis that closes the list
  cases hsplit : splitClose '(' ')' 0 more with
  | none => rfl
  | some split =>
    obtain ⟨inside, rest⟩ := split
    obtain ⟨close, rfl, hclose, -⟩ := splitClose_eq_some_iff.1 hsplit
    have hinside : front ++ space ++ [keyword] ++ after ++ next :: inside =
        front ++ space ++ [keyword] ++ after ++ [next] ++ inside := by simp
    have hcloses : lex s = (front ++ space ++ [keyword] ++ after ++ [next] ++ inside) ++ close :: rest := by
      simp [hlist]
    have hkind : tokenKind? close.kind = some (.mark ')'.toUInt8) := by rw [hclose]; rfl
    have hjump := @dropWhile_codeTokens inside rest close (by simp [hclose])
      (front ++ space ++ [keyword] ++ after ++ [next])
    have hlen : (front ++ space ++ [keyword] ++ after).length + 1 + inside.length + 1 =
        (front ++ space ++ [keyword] ++ after ++ [next] ++ inside).length + 1 := by
      simp only [List.length_append, List.length_singleton]
    simp only [Option.map_some, Option.bind_some, Option.elim_some, hinside, itemAt_tokens hcloses hkind,
      Except.bind]
    rw [hjump, hlen]
    exact (h inside close rest rfl).behind

end

/-- The scanner takes the imports that the reader takes. -/
theorem takesImports (hall : lex s = front ++ ls) : TakesImports s front ls := by
  -- on the length, since an import takes more than one lexeme
  induction hlength : ls.length using Nat.strongRecOn generalizing front ls with
  | ind n ih =>
  subst hlength
  rcases trivia_or_code ls with hspace | ⟨space, keyword, rest, rfl, hspace, hl⟩
  · exact takesImports_of_trivia hall hspace
  by_cases hkeyword : keyword.isWord "import".toList
  swap
  · exact takesImports_of_other hall hspace hl hkeyword
  rcases trivia_or_code rest with hafter | ⟨after, next, more, rfl, hafter, hnext⟩
  · exact takesImports_of_keyword hall hspace hkeyword hafter
  by_cases hopen : next.kind = .mark '('
  · apply takesImports_list hall hspace hkeyword hafter hopen
    rintro inside close behind rfl
    have hshorter : behind.length <
        (space ++ keyword :: (after ++ next :: (inside ++ close :: behind))).length := by
      simp only [List.length_append, List.length_cons]
      omega
    exact ih behind.length hshorter (by simp [hall]) rfl
  by_cases hliteral : next.kind = .literal
  · apply takesImports_path hall hspace hkeyword hafter hliteral
    have hshorter : more.length < (space ++ keyword :: (after ++ next :: more)).length := by
      simp only [List.length_append, List.length_cons]
      omega
    exact ih more.length hshorter (by simp [hall]) rfl
  · apply takesImports_named hall hspace hkeyword hafter hnext hopen hliteral
    rintro between path behind rfl
    have hshorter : behind.length <
        (space ++ keyword :: (after ++ next :: (between ++ path :: behind))).length := by
      simp only [List.length_append, List.length_cons]
      omega
    exact ih behind.length hshorter (by simp [hall]) rfl

/-! ## The header -/

/-- The first code behind trivia. -/
theorem code_of_trivia_append {space : List Lexeme} (hspace : ∀ m ∈ space, m.isTrivia) (hl : l.isTrivia = false)
    (ls : List Lexeme) : code (space ++ l :: ls) = l :: code ls := by
  rw [code_append, code_eq_nil_iff.2 hspace, code_cons, hl]
  rfl

section

variable {space after more : List Lexeme} {keyword name : Lexeme}

/-- What the scanner does with the first two codes of a file. -/
theorem headerEnd_cons (hall : lex s = space ++ keyword :: (after ++ name :: more))
    (hspace : ∀ m ∈ space, m.isTrivia) (hkeyword : keyword.isTrivia = false) (hafter : ∀ m ∈ after, m.isTrivia)
    (hname : name.isTrivia = false) :
    headerEnd s (tokensOf 0 (lex s)) =
      if keyword.isWord "package".toList ∧ name.kind = .word then
        .ok ((headerLength? .clause (space ++ [keyword] ++ after ++ [name]).length
          (space ++ [keyword] ++ after ++ [name]).length more).map fun n => (extent ((lex s).take n), name.text))
      else .ok none := by
  obtain ⟨kind, hkind⟩ := exists_tokenKind? hkeyword
  obtain ⟨kind', hkind'⟩ := exists_tokenKind? hname
  have hlist : lex s = (space ++ [keyword] ++ after) ++ name :: more := by simp [hall]
  have hbehind : lex s = (space ++ [keyword] ++ after ++ [name]) ++ more := by simp [hall]
  have htokens : (tokensOf 0 (lex s)).zipIdx.filter (·.1.kind ≠ .comment) =
      codeTokens [] (space ++ keyword :: (after ++ name :: more)) := by
    rw [← hall]
    rfl
  have hlen : (space ++ [keyword] ++ after ++ [name]).length = (space ++ [keyword] ++ after).length + 1 := by
    rw [List.length_append, List.length_singleton]
  have himports := (takesImports hbehind).behind
  rw [← hlen] at himports
  rw [headerEnd, htokens, codeTokens_trivia_append hspace, List.nil_append, codeTokens_cons hkeyword hkind,
    codeTokens_trivia_append hafter, codeTokens_cons hname hkind']
  simp only [tokenText_lexeme hall, tokenText_lexeme hlist, tokenKind_eq_word_iff hkind,
    tokenKind_eq_word_iff hkind', himports, Lexeme.isWord_iff, ne_eq, bind, Except.bind, pure, Except.pure,
    Option.map_map]
  by_cases hword : keyword.kind = .word
  · by_cases hpackage : keyword.text = "package".toList
    · by_cases hname : name.kind = .word
      · rw [if_neg (not_not_intro hword), if_neg (by simp [hpackage, hname]), if_pos ⟨⟨hword, hpackage⟩, hname⟩]
        rfl
      · rw [if_neg (not_not_intro hword), if_pos (by simp [hname]), if_neg fun h => hname h.2]
    · have hother : (decide ¬keyword.text = "package".toList) = true := decide_eq_true hpackage
      rw [if_neg (not_not_intro hword), if_pos (by rw [hother, Bool.true_or]), if_neg fun h => hpackage h.1.2]
  · rw [if_pos hword, if_neg fun h => hword h.1.1]

/-- What the reader does with the first two codes of a file. -/
theorem headerLength?_start (hspace : ∀ m ∈ space, m.isTrivia) (hkeyword : keyword.isTrivia = false)
    (hafter : ∀ m ∈ after, m.isTrivia) (hname : name.isTrivia = false) (more : List Lexeme) :
    headerLength? .start 0 0 (space ++ keyword :: (after ++ name :: more)) =
      if keyword.isWord "package".toList ∧ name.kind = .word then
        headerLength? .clause (space ++ [keyword] ++ after ++ [name]).length
          (space ++ [keyword] ++ after ++ [name]).length more
      else none := by
  have hlen : (space ++ [keyword] ++ after ++ [name]).length = 0 + space.length + 1 + after.length + 1 := by
    simp only [List.length_append, List.length_singleton]
    omega
  rw [headerLength?_trivia_append hspace, headerLength?_cons hkeyword, headerStep, hlen]
  by_cases hpackage : keyword.isWord "package".toList
  · rw [if_pos hpackage]
    simp only [if_neg (show HeaderState.package ≠ .clause by decide)]
    rw [headerLength?_trivia_append hafter, headerLength?_cons hname, headerStep]
    by_cases hclause : name.kind = .word
    · rw [if_pos hclause, if_pos (And.intro hpackage hclause)]
      rfl
    · have hnot : ¬(keyword.isWord "package".toList ∧ name.kind = .word) := fun h => hclause h.2
      rw [if_neg hclause, if_neg hnot]
      rfl
  · have hnot : ¬(keyword.isWord "package".toList ∧ name.kind = .word) := fun h => hpackage h.1
    rw [if_neg hpackage, if_neg hnot]
    rfl

end

/-- The scanner finds the header that the reader finds, and the name of the package. -/
theorem headerEnd_eq (s : Text) :
    headerEnd s (tokensOf 0 (lex s)) =
      .ok ((headerLength? .start 0 0 (lex s)).bind fun n =>
        ((code (lex s)).map Lexeme.text)[1]?.map fun package => (extent ((lex s).take n), package)) := by
  have htokens : (tokensOf 0 (lex s)).zipIdx.filter (·.1.kind ≠ .comment) = codeTokens [] (lex s) := rfl
  -- the file has no code, one, or at least two: a package clause needs two
  rcases trivia_or_code (lex s) with hspace | ⟨space, keyword, rest, hkeyword, hspace, hcode⟩
  · rw [headerEnd, htokens, codeTokens_trivia hspace, headerLength?_trivia hspace]
    rfl
  rcases trivia_or_code rest with hafter | ⟨after, name, more, rfl, hafter, hname⟩
  · -- nothing follows the first code
    obtain ⟨kind, hkind⟩ := exists_tokenKind? hcode
    have hsecond : ((code (lex s)).map Lexeme.text)[1]? = none := by
      rw [hkeyword, code_of_trivia_append hspace hcode, code_eq_nil_iff.2 hafter]
      rfl
    have hnone : (headerLength? .start 0 0 (lex s)).bind (fun n =>
        ((code (lex s)).map Lexeme.text)[1]?.map fun package => (extent ((lex s).take n), package)) = none := by
      rw [hsecond]
      cases headerLength? .start 0 0 (lex s) <;> rfl
    rw [hnone, headerEnd, htokens, hkeyword, codeTokens_trivia_append hspace, codeTokens_cons hcode hkind,
      codeTokens_trivia hafter]
  · have hsecond : ((code (lex s)).map Lexeme.text)[1]? = some name.text := by
      rw [hkeyword, code_of_trivia_append hspace hcode, code_of_trivia_append hafter hname]
      rfl
    have hread := headerLength?_start hspace hcode hafter hname more
    rw [← hkeyword] at hread
    rw [headerEnd_cons hkeyword hspace hcode hafter hname, hsecond, hread]
    split_ifs
    · rw [Option.map_eq_bind]
      rfl
    · rfl

end Scaffold.Go
