import Scaffold.Proofs.Go.Reading

/-!
# Closed and solid lexemes

A literal or a general comment is *closed* if it ends with the mark that closes it, and a word or a
mark is *solid* if none of its characters is white space. Sources of such lexemes can be trimmed: what
is left of the text is again a text of lexemes, with the same code (`exists_trimEnd`, `exists_trim`).
-/

namespace Scaffold.Go

open Text

/-! ## Closed lexemes -/

/-- Whether a text that follows an opening quote ends with the quote that closes it. A backslash takes
the next character with it. -/
def closesQuote (quote : Char) : Text → Bool
  | [] => false
  | ['\\'] => false
  | '\\' :: _ :: s => closesQuote quote s
  | c :: s => if c = quote then s = [] else closesQuote quote s

/-- Whether a literal or a general comment ends with the mark that closes it. -/
def Lexeme.isClosed (l : Lexeme) : Bool :=
  match l.kind, l.text with
  | .literal, '`' :: s => s.getLast? = some '`'
  | .literal, quote :: s => closesQuote quote s
  | .comment, '/' :: '*' :: s => endsWith "*/".toList s
  | _, _ => true

/-- Whether a word or a mark is free of white space. -/
def Lexeme.isSolid (l : Lexeme) : Bool :=
  match l.kind with
  | .word | .mark _ => l.text.all fun c => !isBlank c
  | _ => true

theorem endsWith_iff {p s : Text} : endsWith p s ↔ p <:+ s := by
  rw [endsWith, after?_isSome, List.reverse_prefix]

/-- A literal or comment that ends with its mark ends there whatever follows. -/
theorem through_of_suffix {mark tail s : Text} (h : through mark (tail ++ s) = tail)
    (hmark : mark <:+ tail) (s' : Text) : through mark (tail ++ s') = tail := by
  have hoccurs : occursIn mark (tail ++ s) :=
    occursIn_iff.2 (hmark.isInfix.trans (List.prefix_append tail s).isInfix)
  obtain ⟨⟨front, rest⟩, hcut⟩ := Option.isSome_iff_exists.1 hoccurs
  have htail : front ++ mark = tail := by simpa [through, hcut] using h
  subst htail
  obtain rfl : rest = s := List.append_cancel_left (cutAt?_eq_some hcut).symm
  rw [through, cutAt?_congr hcut s']
  rfl

/-- A literal or comment that something follows ends with its mark. -/
theorem suffix_of_through {mark tail s : Text} (h : through mark (tail ++ s) = tail) (hs : s ≠ []) :
    mark <:+ tail := by
  unfold through at h
  cases hcut : cutAt? mark (tail ++ s) with
  | none =>
    rw [hcut] at h
    simp [hs] at h
  | some found =>
    rw [hcut] at h
    exact ⟨found.1, h⟩

/-- A closed string ends with its quote whatever follows. -/
theorem quotedTail_of_closesQuote {quote : Char} {tail s : Text}
    (h : quotedTail quote (tail ++ s) = tail) (hclosed : closesQuote quote tail) (s' : Text) :
    quotedTail quote (tail ++ s') = tail := by
  -- the cases of `closesQuote`: an escape, the last character, and any other
  induction tail using closesQuote.induct quote with
  | case1 => simp [closesQuote] at hclosed
  | case2 => simp [closesQuote] at hclosed
  | case3 c tail ih =>
    simp only [List.cons_append, quotedTail, List.cons.injEq, true_and] at h ⊢
    exact ih h (by simpa [closesQuote] using hclosed)
  | case4 tail hone htwo =>
    have hne := ne_backslash hone htwo
    have htail : tail = [] := by
      rw [closesQuote] at hclosed
      · simpa using hclosed
      · exact hone
      · exact htwo
    subst htail
    rw [List.cons_append, quotedTail_of_ne hne, if_pos rfl] at h ⊢
    split_ifs at h ⊢ with hnl
    rfl
  | case5 c tail hone htwo hc ih =>
    have hne := ne_backslash hone htwo
    rw [List.cons_append, quotedTail_of_ne hne] at h ⊢
    have hclosed' : closesQuote quote tail := by
      rw [closesQuote] at hclosed
      · simpa [hc] using hclosed
      · exact hone
      · exact htwo
    split_ifs at h ⊢ with hnl
    simp only [List.cons.injEq, true_and] at h ⊢
    exact ih h hclosed'

/-- A closed lexeme other than white space can stand in front of a newline. -/
theorem Lexeme.EndsBefore.before_newline {l : Lexeme} {s s' : Text} (h : l.EndsBefore s)
    (hclosed : l.isClosed) (hkind : l.kind ≠ .blank) (hs' : s'.head? = some '\n') :
    l.EndsBefore s' := by
  obtain ⟨kind, text⟩ := l
  obtain ⟨c, tail, rfl, hshape⟩ := h
  refine ⟨c, tail, rfl, ?_⟩
  cases hshape with
  | blank => exact absurd rfl hkind
  | word hc htail hs => exact .word hc htail (by simp [hs']; decide)
  | quoted hq htail =>
    have hclosed' : closesQuote c tail := by
      rcases hq with rfl | rfl <;> simpa [Lexeme.isClosed] using hclosed
    exact .quoted hq (quotedTail_of_closesQuote htail hclosed' s')
  | raw htail =>
    have hsuffix : ['`'] <:+ tail := by
      have hlast : tail.getLast? = some '`' := by simpa [Lexeme.isClosed] using hclosed
      exact (List.singleton_suffix_iff_getLast?_eq_some).2 hlast
    exact .raw (through_of_suffix htail hsuffix s')
  | line htail hs => exact .line htail (by simp [hs'])
  | general htail =>
    have hsuffix := endsWith_iff.1 (by simpa [Lexeme.isClosed] using hclosed)
    exact .general (through_of_suffix htail hsuffix s')
  | mark hgap hword hquote hs => exact .mark hgap hword hquote fun _ => by simp [hs']

/-- Lexemes of which the last is closed can stand in front of a newline. -/
theorem Reads.before_newline {front : List Lexeme} {l : Lexeme} {s s' : Text}
    (h : Reads (front ++ [l]) s) (hclosed : l.isClosed) (hkind : l.kind ≠ .blank)
    (hs' : s'.head? = some '\n') : Reads (front ++ [l]) s' := by
  obtain ⟨hfront, hl, -⟩ := reads_append.1 h
  have hl' : l.EndsBefore s' := hl.before_newline hclosed hkind hs'
  obtain ⟨c, tail, htext, -⟩ := hl
  exact reads_append.2 ⟨hfront.congr (by simp [htext]), by simpa using hl', trivial⟩

/-! ## Code -/

/-- The lexemes that are neither white space nor comments. -/
def code (ls : List Lexeme) : List Lexeme := ls.filter (!·.isTrivia)

@[simp] theorem code_nil : code [] = [] := rfl

@[simp] theorem code_append (ls ms : List Lexeme) : code (ls ++ ms) = code ls ++ code ms := by
  simp [code]

/-- The code of a list of lexemes, one lexeme at a time. -/
theorem code_cons (l : Lexeme) (ls : List Lexeme) :
    code (l :: ls) = if l.isTrivia then code ls else l :: code ls := by
  by_cases h : l.isTrivia <;> simp [code, h]

/-- Only trivia have no code. -/
theorem code_eq_nil_iff {ls : List Lexeme} : code ls = [] ↔ ∀ l ∈ ls, l.isTrivia := by
  simp [code]

/-! ## Trimming a text of lexemes -/

/-- What separates lexemes is white space. -/
theorem isBlank_of_isGap {c : Char} (h : isGap c) : isBlank c := by
  simp only [isGap, Bool.or_eq_true, decide_eq_true_eq] at h
  rcases h with ((rfl | rfl) | rfl) | rfl <;> decide

/-- Lexemes that can be trimmed and moved: each is closed and solid. -/
def Sturdy (ls : List Lexeme) : Prop := ∀ l ∈ ls, l.isClosed ∧ l.isSolid

instance (ls : List Lexeme) : Decidable (Sturdy ls) :=
  inferInstanceAs (Decidable (∀ l ∈ ls, l.isClosed ∧ l.isSolid))

/-- A closed string ends with its quote. -/
theorem getLast?_of_closesQuote {quote : Char} {s : Text} (h : closesQuote quote s) :
    s.getLast? = some quote := by
  induction s using closesQuote.induct quote with
  | case1 => simp [closesQuote] at h
  | case2 => simp [closesQuote] at h
  | case3 c s ih =>
    have hs : closesQuote quote s := by simpa [closesQuote] using h
    have hne : s ≠ [] := by
      rintro rfl
      simp [closesQuote] at hs
    simpa [List.getLast?_cons_of_ne_nil hne] using ih hs
  | case4 s hone htwo =>
    rw [closesQuote] at h
    · have hs : s = [] := by simpa using h
      simp [hs]
    · exact hone
    · exact htwo
  | case5 c s hone htwo hc ih =>
    have hs : closesQuote quote s := by
      rw [closesQuote] at h
      · simpa [hc] using h
      · exact hone
      · exact htwo
    have hne : s ≠ [] := by
      rintro rfl
      simp [closesQuote] at hs
    simpa [List.getLast?_cons_of_ne_nil hne] using ih hs

/-- Only a line comment can end with white space. -/
theorem Lexeme.EndsBefore.trimEnd_text {l : Lexeme} {s : Text} (h : l.EndsBefore s)
    (hclosed : l.isClosed) (hsolid : l.isSolid) (hkind : l.kind ≠ .blank) :
    (∃ tail, l = ⟨.comment, '/' :: '/' :: tail⟩ ∧ ∀ d ∈ tail, d ≠ '\n') ∨
      trimEnd l.text = l.text := by
  obtain ⟨kind, text⟩ := l
  obtain ⟨c, tail, rfl, hshape⟩ := h
  -- by what the lexeme ends with: a closed one that is no line comment ends with its own mark
  cases hshape with
  | blank => exact absurd rfl hkind
  | word hc htail hs =>
    right
    have hall : ∀ d ∈ c :: tail, isBlank d = false := by simpa [Lexeme.isSolid] using hsolid
    exact trimEnd_eq_self (List.getLast?_eq_getLast_of_ne_nil (List.cons_ne_nil c tail))
      (hall _ (List.getLast_mem _))
  | quoted hq htail =>
    right
    have hlast : tail.getLast? = some c := by
      refine getLast?_of_closesQuote ?_
      rcases hq with rfl | rfl <;> simpa [Lexeme.isClosed] using hclosed
    have hne : tail ≠ [] := by
      rintro rfl
      simp at hlast
    refine trimEnd_eq_self (c := c) (by simpa [List.getLast?_cons_of_ne_nil hne] using hlast) ?_
    rcases hq with rfl | rfl <;> decide
  | raw htail =>
    right
    have hlast : tail.getLast? = some '`' := by simpa [Lexeme.isClosed] using hclosed
    have hne : tail ≠ [] := by
      rintro rfl
      simp at hlast
    exact trimEnd_eq_self (c := '`')
      (by simpa [List.getLast?_cons_of_ne_nil hne] using hlast) (by decide)
  | line htail hs => exact .inl ⟨_, rfl, htail⟩
  | general htail =>
    right
    obtain ⟨front, rfl⟩ := endsWith_iff.1 (by simpa [Lexeme.isClosed] using hclosed)
    have hlast : ('/' :: '*' :: (front ++ ['*', '/'])).getLast? = some '/' := by
      rw [show '/' :: '*' :: (front ++ ['*', '/']) = ('/' :: '*' :: front ++ ['*']) ++ ['/'] by simp,
        List.getLast?_concat]
    exact trimEnd_eq_self hlast (by decide)
  | mark hgap hword hquote hs =>
    right
    exact trimEnd_eq_self (c := c) rfl (by simpa [Lexeme.isSolid] using hsolid)

/-- White space consists of gaps. -/
theorem Lexeme.EndsBefore.blank_chars {l : Lexeme} {s : Text} (h : l.EndsBefore s)
    (hkind : l.kind = .blank) : ∀ c ∈ l.text, isGap c := by
  obtain ⟨kind, text⟩ := l
  obtain ⟨c, tail, rfl, hshape⟩ := h
  obtain rfl : kind = .blank := hkind
  cases hshape with
  | blank hc htail hs => simpa [hc] using htail

/-- Trimming leaves a line comment its two slashes. -/
theorem trimEnd_slashes (tail : Text) : trimEnd ('/' :: '/' :: tail) = '/' :: '/' :: trimEnd tail :=
  trimEnd_append_of_trimmed (a := ['/', '/']) (by decide) tail

/-- A line comment that is trimmed ends where its line does. -/
theorem endsBefore_trimmed_comment {tail s : Text} (htail : ∀ c ∈ tail, c ≠ '\n')
    (hs : s.head? = some '\n') : (Lexeme.mk .comment ('/' :: '/' :: trimEnd tail)).EndsBefore s :=
  ⟨'/', '/' :: trimEnd tail, rfl,
    .line (fun c hc => htail c ((trimEnd_isPrefix tail).subset hc)) (by simp [hs])⟩

/-- The text of sturdy lexemes, trimmed at its end, is a text of sturdy lexemes with the same code, and
a newline can follow it. -/
theorem exists_trimEnd {ls : List Lexeme} {s : Text} (hreads : Reads ls s) (hsturdy : Sturdy ls) :
    ∃ ms, textOf ms = trimEnd (textOf ls) ∧ code ms = code ls ∧ Sturdy ms ∧
      ∀ s' : Text, s'.head? = some '\n' → Reads ms s' := by
  -- from the end: white space is dropped, and the first lexeme that is none ends the trimmed text
  induction ls using List.reverseRecOn generalizing s with
  | nil => exact ⟨[], rfl, rfl, hsturdy, fun _ _ => trivial⟩
  | append_singleton ls l ih =>
    obtain ⟨hls, hl, -⟩ := reads_append.1 hreads
    have hsturdy' : Sturdy ls := fun m hm => hsturdy m (by simp [hm])
    obtain ⟨hclosed, hsolid⟩ := hsturdy l (by simp)
    simp only [textOf_nil, List.nil_append] at hl
    by_cases hkind : l.kind = .blank
    · obtain ⟨ms, htext, hcode, hms, hread⟩ := ih hls hsturdy'
      have hblank : ∀ c ∈ l.text, isBlank c :=
        fun c hc => isBlank_of_isGap (hl.blank_chars hkind c hc)
      refine ⟨ms, ?_, ?_, hms, hread⟩
      · rw [htext, textOf_append, textOf_cons, textOf_nil, List.append_nil,
          trimEnd_append_of_blank hblank]
      · simp [hcode, code_cons, Lexeme.isTrivia, hkind]
    · rcases hl.trimEnd_text hclosed hsolid hkind with ⟨tail, rfl, htail⟩ | htrim
      · -- only the text of the comment changes: it keeps its two slashes
        refine ⟨ls ++ [⟨.comment, '/' :: '/' :: trimEnd tail⟩], ?_, ?_, ?_, ?_⟩
        · rw [textOf_append, textOf_append, textOf_cons, textOf_cons, textOf_nil, List.append_nil,
            List.append_nil, ← trimEnd_slashes, trimEnd_append_of_ne_nil (by simp [trimEnd_slashes])]
        · simp [code_cons, Lexeme.isTrivia]
        · intro m hm
          rcases List.mem_append.1 hm with hm | hm
          · exact hsturdy' m hm
          · obtain rfl := List.mem_singleton.1 hm
            exact ⟨rfl, rfl⟩
        · intro s' hs'
          exact reads_append.2 ⟨hls.congr (by simp), endsBefore_trimmed_comment htail hs', trivial⟩
      · refine ⟨ls ++ [l], ?_, rfl, hsturdy, ?_⟩
        · rw [textOf_append, textOf_cons, textOf_nil, List.append_nil,
            trimEnd_append_of_ne_nil (by simpa [htrim] using hl.text_ne_nil), htrim]
        · exact fun s' hs' => hreads.before_newline hclosed hkind hs'

/-- A solid lexeme other than white space does not start with a blank. -/
theorem Lexeme.EndsBefore.head_not_blank {l : Lexeme} {s : Text} (h : l.EndsBefore s)
    (hsolid : l.isSolid) (hkind : l.kind ≠ .blank) : ∀ c ∈ l.text.head?, isBlank c = false := by
  obtain ⟨kind, text⟩ := l
  obtain ⟨c, tail, rfl, hshape⟩ := h
  simp only [List.head?_cons, Option.mem_def, Option.some.injEq, forall_eq']
  cases hshape with
  | blank => exact absurd rfl hkind
  | word hc htail hs => exact (by simpa [Lexeme.isSolid] using hsolid : _ ∧ _).1
  | quoted hq htail => rcases hq with rfl | rfl <;> decide
  | raw htail => decide
  | line htail hs => decide
  | general htail => decide
  | mark hgap hword hquote hs => simpa [Lexeme.isSolid] using hsolid

/-- The text of sturdy lexemes, trimmed at its start, is the text of the lexemes from the first one on
that is no white space. -/
theorem trimStart_textOf {ls : List Lexeme} {s : Text} (hreads : Reads ls s) (hsturdy : Sturdy ls) :
    trimStart (textOf ls) = textOf (ls.dropWhile (·.kind = .blank)) := by
  induction ls with
  | nil => rfl
  | cons l ls ih =>
    by_cases hkind : l.kind = .blank
    · have hblank : ∀ c ∈ l.text, isBlank c :=
        fun c hc => isBlank_of_isGap (hreads.1.blank_chars hkind c hc)
      rw [textOf_cons, trimStart_append_of_blank hblank, List.dropWhile_cons_of_pos (by simpa),
        ih hreads.2 fun m hm => hsturdy m (by simp [hm])]
    · rw [List.dropWhile_cons_of_neg (by simpa)]
      have hhead := hreads.1.head_not_blank (hsturdy l (by simp)).2 hkind
      obtain ⟨c, tail, htext, -⟩ := hreads.1
      rw [textOf_cons, htext, List.cons_append]
      exact trimStart_cons_of_not_blank (hhead c (by simp [htext])) _

/-- Dropping white space in front leaves the code. -/
theorem code_dropWhile_blank (ls : List Lexeme) :
    code (ls.dropWhile (·.kind = .blank)) = code ls := by
  induction ls with
  | nil => rfl
  | cons l ls ih =>
    by_cases hkind : l.kind = .blank
    · simp [hkind, ih, code_cons, Lexeme.isTrivia]
    · simp [hkind]

/-- What is read at the end of a list is read. -/
theorem Reads.of_suffix {ls ms : List Lexeme} {s : Text} (h : Reads ls s) (hsuffix : ms <:+ ls) :
    Reads ms s := by
  obtain ⟨front, rfl⟩ := hsuffix
  exact (reads_append.1 h).2

/-- The text of sturdy lexemes, trimmed on both sides, is a text of sturdy lexemes with the same code,
and a newline can follow it. -/
theorem exists_trim {ls : List Lexeme} {s : Text} (hreads : Reads ls s) (hsturdy : Sturdy ls) :
    ∃ ms, textOf ms = trim (textOf ls) ∧ code ms = code ls ∧ Sturdy ms ∧
      ∀ s' : Text, s'.head? = some '\n' → Reads ms s' := by
  have hsuffix : ls.dropWhile (·.kind = .blank) <:+ ls := List.dropWhile_suffix _
  have hsturdy' : Sturdy (ls.dropWhile (·.kind = .blank)) :=
    fun l hl => hsturdy l (hsuffix.subset hl)
  obtain ⟨ms, htext, hcode, hms, hread⟩ := exists_trimEnd (hreads.of_suffix hsuffix) hsturdy'
  refine ⟨ms, ?_, ?_, hms, hread⟩
  · rw [htext, trim, trimStart_textOf hreads hsturdy]
  · rw [hcode, code_dropWhile_blank]

end Scaffold.Go
