import Mathlib.Data.List.DropRight
import Scaffold.Proofs.Service.Written

/-!
# Implementations under a new signature

A drifted implementation keeps its body up to white space at the end, and its comment below the banner.
What is written for it is again the text of a whole function (`whole_driftedFunction`), which shows no
second banner if it drifts once more.
-/

namespace Scaffold.Service

open Text Go Naming

/-! ## The banner -/

/-- The banner as a comment, without the newline behind. -/
@[irreducible]
private def bannerText : Text := trimEnd driftBanner

/-- The inside of the banner, from its asterisk on. -/
@[irreducible]
private def bannerTail : Text := bannerText.drop 2

private def bannerLexeme : Lexeme := ⟨.comment, bannerText⟩

/-- The banner is a comment that ends at its first closing mark, and one newline. -/
private theorem banner_shape :
    trimEnd driftBanner = bannerText ∧ driftBanner = bannerText ++ ['\n'] ∧
      bannerText = '/' :: '*' :: bannerTail ∧
      through "*/".toList (bannerTail ++ []) = bannerTail ∧ endsWith "*/".toList bannerTail := by
  unfold bannerTail bannerText driftBanner
  -- the kernel is slow to decode strings, so lists of characters take their place
  simp only [String.toList_append]
  repeat rw [String.toList_ofList]
  decide +kernel

private theorem trimEnd_driftBanner : trimEnd driftBanner = bannerText := banner_shape.1

private theorem driftBanner_eq : driftBanner = bannerText ++ ['\n'] := banner_shape.2.1

/-- The banner ends where its first closing mark stands. -/
private theorem endsBefore_banner (s : Text) : bannerLexeme.EndsBefore s := by
  obtain ⟨-, -, htext, hmark, hends⟩ := banner_shape
  exact ⟨'/', '*' :: bannerTail, htext,
    .general (through_of_suffix hmark (endsWith_iff.1 hends) s)⟩

/-! ## The comment below the banner -/

/-- Comments behind comments are a block of comments themselves, without the white space in front. -/
private theorem isComment_trimStart {l : Lexeme} {ls : List Lexeme} {last : Lexeme}
    (hlead : IsLead (l :: ls)) (hlast : (l :: ls).getLast? = some last)
    (hkind : last.kind = .comment) (hreads : ∀ s : Text, s.head? = some '\n' → Reads (l :: ls) s) :
    trimStart (textOf ls) = [] ∨ IsComment (trimStart (textOf ls)) := by
  cases ls with
  | nil => exact .inl rfl
  | cons m ls =>
    right
    have hreadsTail : ∀ s : Text, s.head? = some '\n' → Reads (m :: ls) s :=
      fun s hs => (hreads s hs).2
    rw [List.getLast?_cons_cons] at hlast
    -- behind the first comment stands another one, or white space that goes
    rcases hlead.close m (by simp) with hcomment | ⟨hblank, htight⟩
    · have hisLead : IsLead (m :: ls) :=
        ⟨fun n hn => hlead.close n (List.mem_cons_of_mem l hn), by simpa using hcomment⟩
      rw [hisLead.trimStart_textOf (hreadsTail "\n".toList rfl)]
      exact ⟨m :: ls, rfl, hisLead, ⟨last, hlast, hkind⟩, hreadsTail⟩
    · -- the white space between the comments goes, and there is no more than one piece of it
      obtain ⟨n, ls, rfl⟩ : ∃ n rest, ls = n :: rest := by
        cases ls with
        | nil =>
          obtain rfl : m = last := by simpa using hlast
          simp [hblank] at hkind
        | cons n rest => exact ⟨n, rest, rfl⟩
      have hreadsRest : ∀ s : Text, s.head? = some '\n' → Reads (n :: ls) s :=
        fun s hs => (hreadsTail s hs).2
      obtain ⟨hm, hn, -⟩ := hreadsTail "\n".toList rfl
      rw [textOf_cons, List.append_assoc] at hm
      have hcomment : n.kind = .comment :=
        (hlead.close n (by simp)).resolve_right fun hclose => hm.next_ne_blank hblank hn hclose.1
      have hisLead : IsLead (n :: ls) :=
        ⟨fun o ho => hlead.close o (by simp_all), by simpa using hcomment⟩
      have hgap : ∀ c ∈ m.text, isBlank c :=
        fun c hc => isBlank_of_isGap (hm.blank_chars hblank c hc)
      rw [textOf_cons, trimStart_append_of_blank hgap,
        hisLead.trimStart_textOf (hreadsRest "\n".toList rfl)]
      rw [List.getLast?_cons_cons] at hlast
      exact ⟨n :: ls, rfl, hisLead, ⟨last, hlast, hkind⟩, hreadsRest⟩

/-- A comment that begins with the text of the banner begins with its lexeme, as it ends on its line. -/
private theorem exists_tail_of_banner {ls : List Lexeme} {rest : Text} (hreads : Reads ls "\n".toList)
    (hafter : after? bannerText (textOf ls) = some rest) :
    ∃ tail, ls = bannerLexeme :: tail ∧ textOf tail = rest := by
  have htext := after?_eq_some hafter
  have hlex : lex (textOf ls ++ "\n".toList) = ls ++ lex "\n".toList := lex_textOf_append hreads
  rw [htext, List.append_assoc] at hlex
  have hbanner : bannerLexeme :: lex (rest ++ "\n".toList) = ls ++ lex "\n".toList := by
    rw [← hlex]
    exact ((endsBefore_banner _).lex_append).symm
  cases ls with
  | nil => simp [textOf, banner_shape.2.2.1] at htext
  | cons l tail =>
    obtain rfl : bannerLexeme = l := (List.cons.inj hbanner).1
    exact ⟨tail, rfl, List.append_cancel_left htext⟩

/-- What is left of a comment without the banner is a comment, if anything is left. -/
theorem isComment_commentWithoutBanner {f : Function}
    (h : ∀ comment ∈ f.leadingComment, IsComment comment) :
    commentWithoutBanner f = [] ∨ IsComment (commentWithoutBanner f) := by
  unfold commentWithoutBanner
  rw [trimEnd_driftBanner]
  cases hcomment : f.leadingComment with
  | none => exact .inl rfl
  | some comment =>
    obtain ⟨ls, rfl, hlead, ⟨last, hlast, hkind⟩, hreads⟩ := h comment (by simp [hcomment])
    have hne : ls ≠ [] := by
      rintro rfl
      simp at hlast
    obtain ⟨l, ls, rfl⟩ := List.exists_cons_of_ne_nil hne
    simp only
    -- the comment has no banner, or the banner is its first lexeme
    cases hafter : after? bannerText (textOf (l :: ls)) with
    | none =>
      right
      rw [Option.getD_none, hlead.trimStart_textOf (hreads "\n".toList rfl)]
      exact ⟨l :: ls, rfl, hlead, ⟨last, hlast, hkind⟩, hreads⟩
    | some rest =>
      obtain ⟨tail, hcons, rfl⟩ := exists_tail_of_banner (hreads _ rfl) hafter
      obtain ⟨rfl, rfl⟩ := List.cons.inj hcons
      exact isComment_trimStart hlead hlast hkind hreads

/-- Every comment but the banner is kept below it. -/
theorem infix_commentWithoutBanner {f : Function} {ls : List Lexeme} {l : Lexeme}
    (hcomment : f.leadingComment = some (textOf ls))
    (hreads : ∀ s : Text, s.head? = some '\n' → Reads ls s) (hl : l ∈ ls) (hkind : l.kind = .comment)
    (hbanner : l.text ≠ trimEnd driftBanner) : l.text <:+: commentWithoutBanner f := by
  obtain ⟨s, hends⟩ := (hreads "\n".toList rfl).exists_endsBefore l hl
  have hhead := hends.comment_head hkind
  rw [trimEnd_driftBanner] at hbanner
  unfold commentWithoutBanner
  rw [trimEnd_driftBanner, hcomment]
  refine (infix_trimStart_iff hhead (by decide)).2 ?_
  cases hafter : after? bannerText (textOf ls) with
  | none => exact infix_textOf hl
  | some rest =>
    obtain ⟨tail, rfl, rfl⟩ := exists_tail_of_banner (hreads _ rfl) hafter
    rcases List.mem_cons.1 hl with rfl | hl
    · exact absurd rfl hbanner
    · exact infix_textOf hl

/-- The comment of a drifted implementation: the banner, and its own comment below. -/
def driftedComment (f : Function) : Text :=
  bannerText ++ if commentWithoutBanner f = [] then [] else '\n' :: commentWithoutBanner f

/-- The comment of a drifted implementation starts with the banner. -/
theorem driftBanner_isPrefix (f : Function) : driftBanner <+: driftedComment f ++ ['\n'] := by
  rw [driftBanner_eq, driftedComment]
  split_ifs
  · simp
  · exact ⟨commentWithoutBanner f ++ ['\n'], by simp⟩

/-- The comment of a drifted function holds the old one. -/
theorem commentWithoutBanner_isInfix (f : Function) : commentWithoutBanner f <:+: driftedComment f := by
  unfold driftedComment
  split_ifs with hnil
  · rw [hnil]
    exact List.nil_infix
  · exact (List.suffix_cons _ _).isInfix.trans (List.suffix_append _ _).isInfix

/-- The comment of a drifted function is a comment. -/
theorem isComment_driftedComment {f : Function}
    (h : ∀ comment ∈ f.leadingComment, IsComment comment) : IsComment (driftedComment f) := by
  unfold driftedComment
  rcases isComment_commentWithoutBanner h with hnil | ⟨ls, htext, hlead, ⟨last, hlast, hkind⟩, hreads⟩
  · rw [if_pos hnil]
    exact ⟨[bannerLexeme], by simp [bannerLexeme],
      ⟨by simp [Lexeme.IsClose, bannerLexeme], by simp [bannerLexeme]⟩, ⟨bannerLexeme, rfl, rfl⟩,
      fun s _ => ⟨endsBefore_banner _, trivial⟩⟩
  · have hne : ls ≠ [] := by
      rintro rfl
      simp at hlast
    have hhead := hlead.text_head (hreads "\n".toList rfl) hne
    have hsome : commentWithoutBanner f ≠ [] := by
      rw [← htext]
      intro hnil
      simp [hnil] at hhead
    rw [if_neg hsome, ← htext]
    let space : Lexeme := ⟨.blank, ['\n']⟩
    -- the banner and the comment below it stand on lines of their own
    have hspace (s : Text) : space.EndsBefore (textOf ls ++ s) := by
      refine endsBefore_gap (by decide) (by decide) fun c hc => ?_
      rw [List.head?_append, hhead] at hc
      obtain rfl : '/' = c := by simpa using hc
      decide
    refine ⟨bannerLexeme :: space :: ls, by simp [bannerLexeme, space], ⟨?_, by simp [bannerLexeme]⟩,
      ⟨last, ?_, hkind⟩, fun s hs => ⟨endsBefore_banner _, hspace s, hreads s hs⟩⟩
    · intro l hl
      rcases List.mem_cons.1 hl with rfl | hl
      · exact .inl rfl
      rcases List.mem_cons.1 hl with rfl | hl
      · exact .inr ⟨rfl, by decide⟩
      · exact hlead.close l hl
    · rw [List.getLast?_cons_cons, List.getLast?_cons_of_ne_nil hne, hlast]

/-! ## The drifted function -/

/-- The function that a drifted implementation is the text of. -/
def driftedFunction (f : Function) (a : Action) : Function where
  leadingComment := some (driftedComment f)
  opening := "func ".toList
  name := functionName a
  parameters := signatureTail a ++ ['{']
  body := trimEnd f.body ++ ['\n']

/-- Below the banner, a drifted implementation has the comment that it had before. -/
theorem commentWithoutBanner_driftedFunction (f : Function) (a : Action) :
    commentWithoutBanner (driftedFunction f a) = commentWithoutBanner f := by
  have htrim : trimStart (commentWithoutBanner f) = commentWithoutBanner f := by
    unfold commentWithoutBanner
    cases f.leadingComment with
    | none => rfl
    | some comment => exact List.dropWhile_idempotent _ _
  show trimStart ((after? (trimEnd driftBanner) (driftedComment f)).getD (driftedComment f)) = _
  rw [trimEnd_driftBanner, driftedComment, after?_append, Option.getD_some]
  split_ifs with hnil
  · rw [hnil]
    rfl
  · exact htrim

/-- A function with a comment above it, as it is written. -/
private theorem verbatim_of_comment {f : Function} {comment : Text}
    (h : f.leadingComment = some comment) :
    verbatim f = comment ++ ['\n'] ++ f.text ++ "\n\n".toList := by
  rw [verbatim, h, Option.elim_some]

/-- A drifted function is written as the drift is rendered. -/
theorem verbatim_driftedFunction (f : Function) (a : Action) :
    verbatim (driftedFunction f a) = drifted f (signature a) := by
  have hend : "\n\x7d\n\n".toList = ['\n'] ++ (['}'] ++ "\n\n".toList) := by decide
  have htext : (driftedFunction f a).text =
      "func ".toList ++ functionName a ++ (signatureTail a ++ ['{']) ++
        (trimEnd f.body ++ ['\n']) ++ ['}'] := rfl
  have hcomment : (driftedFunction f a).leadingComment = some (driftedComment f) := rfl
  rw [verbatim_of_comment hcomment, htext, driftedComment, drifted, signature_eq, hend,
    driftBanner_eq]
  by_cases hnil : commentWithoutBanner f = []
  · simp only [hnil, if_true, List.append_nil, List.append_assoc, List.nil_append]
  · simp only [hnil, if_false, List.append_assoc, List.cons_append, List.nil_append]

/-- The signature of a drifted implementation is the one that the action asks for. -/
theorem signature_driftedFunction (f : Function) (a : Action) :
    (driftedFunction f a).signature = signature a :=
  (signature_eq a).symm

/-- A drifted function has its old body. -/
theorem trimEnd_body_driftedFunction (f : Function) (a : Action) :
    trimEnd (driftedFunction f a).body = trimEnd f.body := by
  show trimEnd (trimEnd f.body ++ ['\n']) = trimEnd f.body
  rw [trimEnd_append_of_blank (by decide), trimEnd_trimEnd]

/-- An implementation that drifts twice is written as if it had drifted once. -/
theorem drifted_driftedFunction (f : Function) (a : Action) (signature : Text) :
    drifted (driftedFunction f a) signature = drifted f signature := by
  rw [drifted, drifted, commentWithoutBanner_driftedFunction, trimEnd_body_driftedFunction]

/-- The body of a whole function, without white space at its end, can be written on lines of its own. -/
theorem isBody_trimEnd {f : Function} (h : Whole f) (hsturdy : Sturdy (lex f.text)) :
    IsBody (trimEnd f.body ++ ['\n']) := by
  obtain ⟨d, hd, hlex, hf⟩ := h.declaration
  have hreads := reads_lex f.text
  rw [hlex] at hreads hsturdy
  have hsturdyBody : Sturdy d.body := fun l hl => hsturdy l (Declaration.mem_lexemes_of_mem_body hl)
  have hreadsBody := Declaration.reads_body hreads
  obtain ⟨ms, htext, hcode, hms, hreadsTrim⟩ := exists_trimEnd hreadsBody hsturdyBody
  have htrim : trimEnd f.body = textOf ms := by
    rw [htext, hf]
    rfl
  refine ⟨ms ++ [⟨.blank, ['\n']⟩], by simp [htrim], ?_, ?_, fun s hs => ?_⟩
  · intro l hl
    rcases List.mem_append.1 hl with hl | hl
    · exact hms l hl
    · obtain rfl := List.mem_singleton.1 hl
      exact ⟨rfl, rfl⟩
  · rw [rise_append, ← rise_code, hcode, rise_code, hd.body]
    rfl
  · exact reads_append_newline hreadsTrim (by simp [hs, isGap])

/-- A drifted function can be moved as a whole. -/
theorem whole_driftedFunction {f : Function} {a : Action} (h : Whole f)
    (hsturdy : Sturdy (lex f.text)) (ha : IsNamed a) :
    Whole (driftedFunction f a) ∧ Sturdy (lex (driftedFunction f a).text) := by
  refine whole_of_writes ?_ (isName_functionName ha.name) (isSignature_signatureTail ha)
    (isBody_trimEnd h hsturdy) rfl
  rintro comment ⟨⟩
  exact isComment_driftedComment h.comment

end Scaffold.Service
