import Scaffold.Proofs.Go.Whole

/-!
# Trimming closed lexemes

In a source, a raw string or a general comment that something follows is closed, so that the strings and
runes of a source are all that can be open in a function (`isClosed_of_mem_functions`). Closed lexemes can
be trimmed wherever they stand: a word may lose characters at its end and a line comment its spaces, but
what is left is read as before, with the same brackets (`exists_trimEnd_of_isClosed`). Unlike
`exists_trimEnd`, this allows words that hold white space from outside ASCII.
-/

namespace Scaffold.Go

open Text

/-! ## Closed lexemes -/

/-- Whether a lexeme is a string or a rune that is closed, or anything else. -/
def Lexeme.isQuoteClosed (l : Lexeme) : Bool :=
  l.kind ≠ .literal || l.text.head? = some '`' || l.isClosed

/-- A raw string or a general comment that something follows is closed. -/
theorem Lexeme.EndsBefore.isClosed {l : Lexeme} {s : Text} (h : l.EndsBefore s) (hs : s ≠ [])
    (hquote : l.isQuoteClosed) : l.isClosed := by
  obtain ⟨kind, text⟩ := l
  obtain ⟨c, tail, rfl, hshape⟩ := h
  cases hshape with
  | blank | word | line | mark => rfl
  | quoted hq htail => rcases hq with rfl | rfl <;> simpa [Lexeme.isQuoteClosed] using hquote
  | raw htail =>
    have hlast := (List.singleton_suffix_iff_getLast?_eq_some).1 (suffix_of_through htail hs)
    simpa [Lexeme.isClosed] using hlast
  | general htail => exact endsWith_iff.2 (suffix_of_through htail hs)

/-- Of lexemes that something follows, only strings and runes can be open. -/
theorem Reads.isClosed {ls : List Lexeme} {s : Text} (h : Reads ls s) (hs : s ≠ [])
    (hquotes : ∀ l ∈ ls, l.isQuoteClosed) : ∀ l ∈ ls, l.isClosed := by
  induction ls with
  | nil => simp
  | cons l ls ih =>
    obtain ⟨hl, hls⟩ := List.forall_mem_cons.1 hquotes
    exact List.forall_mem_cons.2 ⟨h.1.isClosed (by simp [hs]) hl, ih h.2 hls⟩

/-- The lexemes of a declaration are closed if its strings and runes are. -/
theorem Declaration.isClosed {d : Declaration} {s : Text} (h : Reads d.lexemes s)
    (hquotes : ∀ l ∈ d.lexemes, l.isQuoteClosed) : ∀ l ∈ d.lexemes, l.isClosed :=
  (Declaration.reads h "\n".toList).isClosed (by decide) hquotes

/-- The functions of a source with closed strings and runes are made of closed lexemes. -/
theorem isClosed_of_mem_functions {s : Text} (hs : ∀ l ∈ lex s, l.isQuoteClosed) {f : Function}
    (h : f ∈ (File.parse s).functions) : ∀ l ∈ lex f.text, l.isClosed := by
  obtain ⟨t, front, behind, hcut, rfl⟩ := exists_tile_of_mem_functions h
  have hreads := reads_lex s
  rw [hcut] at hreads hs
  obtain ⟨-, hdecl, -⟩ := (reads_append.1 hreads).imp_right reads_append.1
  rw [Tile.function, Declaration.lex_text hdecl]
  exact Declaration.isClosed hdecl fun l hl => hs l (by simp [hl])

/-! ## Trimming -/

/-- A closed lexeme that is cut at its last character other than white space can stand in front of a
newline. -/
theorem Lexeme.EndsBefore.trimmed {l : Lexeme} {s : Text} (h : l.EndsBefore s) (hclosed : l.isClosed)
    (hne : trimEnd l.text ≠ []) :
    (Lexeme.mk l.kind (trimEnd l.text)).isClosed ∧
      ∀ s' : Text, s'.head? = some '\n' → (Lexeme.mk l.kind (trimEnd l.text)).EndsBefore s' := by
  have hkind : l.kind ≠ .blank := by
    intro hkind
    exact hne (trimEnd_eq_nil_iff.2 fun c hc => isBlank_of_isGap (h.blank_chars hkind c hc))
  by_cases hsolid : l.isSolid
  · rcases h.trimEnd_text hclosed hsolid hkind with ⟨tail, rfl, htail⟩ | htrim
    · rw [trimEnd_slashes]
      exact ⟨rfl, fun s' hs' => endsBefore_trimmed_comment htail hs'⟩
    · rw [htrim]
      exact ⟨hclosed, fun s' hs' => h.before_newline hclosed hkind hs'⟩
  · -- white space is left in words and marks only
    obtain ⟨kind, text⟩ := l
    obtain ⟨c, tail, rfl, hshape⟩ := h
    cases hshape with
    | word hc htail hs =>
      obtain ⟨d, front, hfront⟩ := List.exists_cons_of_ne_nil hne
      have hprefix := trimEnd_isPrefix (c :: tail)
      dsimp only at hfront
      rw [hfront] at hprefix
      obtain ⟨rfl, hfrontPrefix⟩ := List.cons_prefix_cons.1 hprefix
      rw [hfront]
      refine ⟨rfl, fun s' hs' => ⟨d, front, rfl, .word hc ?_ (by simp [hs']; decide)⟩⟩
      exact fun e he => htail e (hfrontPrefix.subset he)
    | mark =>
      have hblank : isBlank c := by simpa [Lexeme.isSolid] using hsolid
      exact absurd (trimEnd_eq_nil_iff.2 (by simpa using hblank)) hne
    | blank | quoted | raw | line | general => exact absurd rfl hsolid

/-- The text of closed lexemes, trimmed at its end, is a text of closed lexemes with the same braces, and
a newline can follow it. -/
theorem exists_trimEnd_of_isClosed {ls : List Lexeme} {s : Text} (hreads : Reads ls s)
    (hclosed : ∀ l ∈ ls, l.isClosed) :
    ∃ ms, textOf ms = trimEnd (textOf ls) ∧ (∀ m ∈ ms, m.isClosed) ∧
      rise '{' '}' 0 ms = rise '{' '}' 0 ls ∧ ∀ s' : Text, s'.head? = some '\n' → Reads ms s' := by
  induction ls using List.reverseRecOn generalizing s with
  | nil => exact ⟨[], rfl, hclosed, rfl, fun _ _ => trivial⟩
  | append_singleton ls l ih =>
    obtain ⟨hls, hl, -⟩ := reads_append.1 hreads
    have hclosed' : ∀ m ∈ ls, m.isClosed := fun m hm => hclosed m (by simp [hm])
    have hlast : l.isClosed := hclosed l (by simp)
    simp only [textOf_nil, List.nil_append] at hl
    by_cases hblank : trimEnd l.text = []
    · -- white space is dropped, and it holds no braces
      obtain ⟨ms, htext, hms, hrise, hread⟩ := ih hls hclosed'
      have hbrace (c : Char) (hc : isBlank c = false) : l.kind ≠ .mark c := by
        intro hkind
        have hmark := trimEnd_eq_nil_iff.1 hblank c (by simp [hl.isShaped c hkind])
        simp [hc] at hmark
      have hrise' : rise '{' '}' 0 (ls ++ [l]) = rise '{' '}' 0 ls := by
        rw [rise_append]
        simp [rise_singleton_of_ne (hbrace '{' (by decide)) (hbrace '}' (by decide))]
      refine ⟨ms, ?_, hms, hrise.trans hrise'.symm, hread⟩
      rw [htext, textOf_append, textOf_cons, textOf_nil, List.append_nil,
        trimEnd_append_of_blank (trimEnd_eq_nil_iff.1 hblank)]
    · -- what is left of the last lexeme takes its place
      obtain ⟨hmclosed, hmreads⟩ := hl.trimmed hlast hblank
      let m : Lexeme := ⟨l.kind, trimEnd l.text⟩
      refine ⟨ls ++ [m], ?_, ?_, ?_, fun s' hs' => ?_⟩
      · simp [m, trimEnd_append_of_ne_nil hblank]
      · intro n hn
        rcases List.mem_append.1 hn with hn | hn
        · exact hclosed' n hn
        · obtain rfl := List.mem_singleton.1 hn
          exact hmclosed
      · rw [rise_append, rise_append]
        rfl
      · have hm := hmreads s' hs'
        refine reads_append.2 ⟨hls.congr ?_, by simpa using hm, trivial⟩
        rw [textOf_cons, textOf_cons, textOf_nil, List.append_nil, List.append_nil,
          List.head?_append_of_ne_nil _ hl.text_ne_nil, List.head?_append_of_ne_nil _ hblank,
          head?_trimEnd hblank]

end Scaffold.Go
