import Scaffold.Proofs.Go.Trimming
import Scaffold.Proofs.Service.Clause
import Scaffold.Proofs.Service.Drift

/-!
# Drifting again and again

The signature of an action may change many times before someone reviews its implementation. Each time,
the function is read off the file that the last run wrote, and written under another signature. No
matter how often this happens, the file is as if only the last change had been made (`drifts_compose`):
there is one banner, the comment below it is the one that people wrote, and the body stays.

Here the functions come from files that people wrote. All that is asked of them is that strings and runes
are closed; words may hold white space from outside ASCII, which trimming a body can cut off.
-/

namespace Scaffold.Service

open Text Go Naming

/-- A function that can drift any number of times: it can be written anywhere, and its lexemes are
closed. -/
structure IsDriftable (f : Function) : Prop where
  whole : Whole f
  closed : ∀ l ∈ lex f.text, l.isClosed

/-- The functions of a source can drift if its strings and runes are closed. -/
theorem isDriftable_of_mem_functions {s : Text} (hs : ∀ l ∈ lex s, l.isQuoteClosed) {f : Function}
    (h : f ∈ (File.parse s).functions) : IsDriftable f :=
  ⟨whole_of_mem_functions h, isClosed_of_mem_functions hs h⟩

/-- The body of a function that can drift, on lines of its own. -/
theorem IsDriftable.exists_body {f : Function} (h : IsDriftable f) :
    ∃ bs, textOf bs = trimEnd f.body ++ ['\n'] ∧ (∀ l ∈ bs, l.isClosed) ∧
      rise '{' '}' 0 bs = some 0 ∧ ∀ s : Text, s.head? = some '}' → Reads bs s := by
  obtain ⟨d, hd, hlex, hf⟩ := h.whole.declaration
  have hreads := reads_lex f.text
  have hclosed := h.closed
  rw [hlex] at hreads hclosed
  have hclosedBody : ∀ l ∈ d.body, l.isClosed :=
    fun l hl => hclosed l (Declaration.mem_lexemes_of_mem_body hl)
  obtain ⟨ms, htext, hms, hrise, hreadsTrim⟩ :=
    exists_trimEnd_of_isClosed (Declaration.reads_body hreads) hclosedBody
  have hbody : textOf d.body = f.body := by rw [hf]; rfl
  refine ⟨ms ++ [⟨.blank, ['\n']⟩], by simp [htext, hbody], ?_, ?_, fun s hs => ?_⟩
  · intro l hl
    rcases List.mem_append.1 hl with hl | hl
    · exact hms l hl
    · rw [List.mem_singleton.1 hl]
      rfl
  · rw [rise_append, hrise, hd.body]
    rfl
  · exact reads_append_newline hreadsTrim (by simp [hs, isGap])

/-- An implementation that drifted can drift again. -/
theorem IsDriftable.driftedFunction {f : Function} (h : IsDriftable f) {a : Action} (ha : IsNamed a) :
    IsDriftable (driftedFunction f a) := by
  obtain ⟨bs, htext, hbs, hrise, hreads⟩ := h.exists_body
  have hcomment : ∀ comment ∈ some (driftedComment f), IsComment comment := by
    rintro comment ⟨⟩
    exact isComment_driftedComment h.whole.comment
  have hfunction : Service.driftedFunction f a =
      ⟨some (driftedComment f), "func ".toList, functionName a, signatureTail a ++ ['{'], textOf bs⟩ := by
    rw [htext]
    rfl
  obtain ⟨hwhole, ps, hps, hlex⟩ := whole_of_rise hcomment (isName_functionName ha.name)
    (isSignature_signatureTail ha) hrise hreads hfunction
  refine ⟨hwhole, fun l hl => ?_⟩
  rw [hlex] at hl
  rcases mem_ofParts hl with hl | hl | hl
  · simp only [List.mem_cons, List.not_mem_nil, or_false] at hl
    rcases hl with rfl | rfl | rfl | rfl | rfl <;> rfl
  · exact (hps l hl).1
  · exact hbs l hl

/-! ## Reading it back -/

/-- A file of a package clause and an implementation under a new signature. -/
def driftedFile (package : Text) (f : Function) (signature : Text) : Text :=
  "package ".toList ++ package ++ "\n\n".toList ++ drifted f signature

/-- What a run reads off such a file: the function, if there is one and no other. -/
def redrift? (package : Text) (f : Function) (a : Action) : Option Function :=
  match (File.parse (driftedFile package f (signature a))).functions with
  | [g] => some g
  | _ => none

section

variable {package : Text} (hname : IsName package) (hfunc : package ≠ "func".toList)
include hname hfunc

/-- A drifted function alone in a file is read back. -/
theorem parse_driftedFile {f : Function} (h : IsDriftable f) {a : Action} (ha : IsNamed a) :
    (File.parse (driftedFile package f (signature a))).functions = [driftedFunction f a] := by
  have hlayout : driftedFile package f (signature a) =
      layout (packageClause package) [] [driftedFunction f a] := by
    rw [layout, List.flatMap_nil, List.append_nil, List.flatMap_singleton, verbatim_driftedFunction]
    rfl
  rw [hlayout, parse_layout (isHeaderText_packageClause hname hfunc) (by simp)
    fun g hg => List.mem_singleton.1 hg ▸ (h.driftedFunction ha).whole]

/-- A chain of drifts ends with a function that is written like the first one. -/
theorem exists_foldlM_redrift? {f : Function} (h : IsDriftable f) {as : List Action}
    (has : ∀ a ∈ as, IsNamed a) :
    ∃ g, as.foldlM (redrift? package) f = some g ∧
      ∀ signature, drifted g signature = drifted f signature := by
  -- Each drift leaves a function that can drift, and that is rendered like the one before.
  induction as generalizing f with
  | nil => exact ⟨f, rfl, fun _ => rfl⟩
  | cons a as ih =>
    obtain ⟨ha, has⟩ := List.forall_mem_cons.1 has
    obtain ⟨g, hg, hdrifted⟩ := ih (h.driftedFunction ha) has
    have hstep : redrift? package f a = some (driftedFunction f a) := by
      rw [redrift?, parse_driftedFile hname hfunc h ha]
    refine ⟨g, ?_, fun signature => ?_⟩
    · rw [List.foldlM_cons, hstep]
      exact hg
    · rw [hdrifted, drifted_driftedFunction]

end

/-- Drifts compose. An implementation of a source with closed strings and runes that drifts is read back
as one function: it has the new signature, its body up to white space at the end, and a comment that
starts with the banner. Whatever signature it gets next, it is written as the first function would be, and
so it is behind any number of drifts. -/
theorem drifts_compose {s package : Text} (hs : ∀ l ∈ lex s, l.isQuoteClosed) {f : Function}
    (hf : f ∈ (File.parse s).functions) (hname : IsName package) (hfunc : package ≠ "func".toList) :
    (∀ a, IsNamed a → ∃ g comment,
      (File.parse (driftedFile package f (signature a))).functions = [g] ∧
        g.signature = signature a ∧ trimEnd g.body = trimEnd f.body ∧
        g.leadingComment = some comment ∧ driftBanner <+: comment ++ ['\n'] ∧
        ∀ signature, drifted g signature = drifted f signature) ∧
      ∀ as : List Action, (∀ a ∈ as, IsNamed a) →
        ∃ g, as.foldlM (redrift? package) f = some g ∧
          ∀ signature, drifted g signature = drifted f signature := by
  have hdriftable := isDriftable_of_mem_functions hs hf
  refine ⟨fun a ha => ?_, fun as has => exists_foldlM_redrift? hname hfunc hdriftable has⟩
  exact ⟨driftedFunction f a, driftedComment f, parse_driftedFile hname hfunc hdriftable ha,
    signature_driftedFunction f a, trimEnd_body_driftedFunction f a, rfl, driftBanner_isPrefix f,
    drifted_driftedFunction f a⟩

/-- A source with an implementation that drifted before. Its comment, a raw string and a comment at the
end of its body hold what could be taken for a brace. -/
private def reviewedSource : Text :=
  "package shop\n\n".toList ++ driftBanner ++
    ("// PayQuery pays \x7bonce\x7d.\nfunc PayQuery(ctx context.Context) (*model.Done, error) \x7b\n" ++
      "\tnote := `\x7d`\n\treturn &response, nil // \x7d\n\x7d\n").toList

private def reviewedFunction : Function where
  leadingComment := some (driftBanner ++ "// PayQuery pays \x7bonce\x7d.".toList)
  opening := "func ".toList
  name := "PayQuery".toList
  parameters := "(ctx context.Context) (*model.Done, error) \x7b".toList
  body := "\n\tnote := `\x7d`\n\treturn &response, nil // \x7d\n".toList

/-- The reviewed source has one function, and its quotes are closed. -/
private theorem parse_reviewedSource : (∀ l ∈ lex reviewedSource, l.isQuoteClosed) ∧
    (File.parse reviewedSource).functions = [reviewedFunction] := by
  unfold reviewedSource reviewedFunction driftBanner
  -- the kernel is slow to decode strings, so lists of characters take their place
  simp only [String.toList_append]
  repeat rw [String.toList_ofList]
  decide +kernel

private def payById : Action where
  name := "pay".toList
  args := [⟨⟨"ID".toList, true, false, false⟩, "id".toList⟩]
  responseType := "Done".toList
  kind := .query
  owner := ⟨"money".toList, "shop".toList⟩

/-- The function of this action has the signature of the source. -/
private def payAll : Action := { payById with args := [] }

/-- Twice the signature changes, and the second time it is the first one again. -/
theorem drifts_compose_reviewed :
    (∃ g comment,
      (File.parse (driftedFile "shop".toList reviewedFunction (signature payById))).functions = [g] ∧
        g.signature = signature payById ∧ trimEnd g.body = trimEnd reviewedFunction.body ∧
        g.leadingComment = some comment ∧ driftBanner <+: comment ++ ['\n'] ∧
        ∀ signature, drifted g signature = drifted reviewedFunction signature) ∧
      ∃ g, [payById, payAll].foldlM (redrift? "shop".toList) reviewedFunction = some g ∧
        ∀ signature, drifted g signature = drifted reviewedFunction signature := by
  have hmem : reviewedFunction ∈ (File.parse reviewedSource).functions := by
    rw [parse_reviewedSource.2]
    exact List.mem_singleton_self _
  have hnamed : ∀ a ∈ [payById, payAll], IsNamed a := by
    intro a ha
    rcases List.mem_pair.1 ha with rfl | rfl <;> exact ⟨by decide, by decide, by decide⟩
  have hname : IsName "shop".toList := by decide
  obtain ⟨hone, hchain⟩ := drifts_compose parse_reviewedSource.1 hmem hname (by decide)
  exact ⟨hone payById (hnamed payById List.mem_cons_self), hchain [payById, payAll] hnamed⟩

end Scaffold.Service
