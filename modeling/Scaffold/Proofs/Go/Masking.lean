import Scaffold.Proofs.Go.Header

/-!
# What the reader of files sees

Of a literal or a comment the reader of files sees no more than that it is one: where the header ends,
where functions are found and where groups are closed is the same once their texts are blotted out
(`Lexeme.mask`). There is one lemma for each reader, which says that it commutes with the mask; so what a
gap holds does not depend on the literals and comments behind it (`Quiet.of_mask_eq`).
-/

namespace Scaffold.Go

open Text

/-- A lexeme as the reader of files sees it: a literal or a comment has no text. -/
def Lexeme.mask (l : Lexeme) : Lexeme :=
  if l.kind = .literal ∨ l.kind = .comment then ⟨l.kind, []⟩ else l

@[simp] theorem Lexeme.kind_mask (l : Lexeme) : l.mask.kind = l.kind := by
  unfold mask
  split_ifs <;> rfl

@[simp] theorem Lexeme.isTrivia_mask (l : Lexeme) : l.mask.isTrivia = l.isTrivia := by
  simp [isTrivia]

/-- A word is its own mask. -/
theorem Lexeme.mask_of_word {l : Lexeme} (h : l.kind = .word) : l.mask = l :=
  if_neg (by simp [h])

/-- Two literals look the same, and so do two comments. -/
theorem Lexeme.mask_eq_of_kind_eq {l m : Lexeme} (hkind : l.kind = m.kind)
    (hl : l.kind = .literal ∨ l.kind = .comment) : l.mask = m.mask := by
  rw [mask, mask, if_pos hl, if_pos (hkind ▸ hl), hkind]

@[simp] theorem Lexeme.isWord_mask (l : Lexeme) (w : Text) : l.mask.isWord w = l.isWord w := by
  by_cases hl : l.kind = .literal ∨ l.kind = .comment
  · rcases hl with hl | hl <;> simp [isWord, hl]
  · rw [mask, if_neg hl]

/-! ## Groups -/

/-- A cut with both parts masked. -/
def maskCut (cut : List Lexeme × List Lexeme) : List Lexeme × List Lexeme :=
  (cut.1.map Lexeme.mask, cut.2.map Lexeme.mask)

/-- The mask keeps the count of open groups. -/
theorem rise_map_mask (opening closing : Char) (depth : Nat) (ls : List Lexeme) :
    rise opening closing depth (ls.map Lexeme.mask) = rise opening closing depth ls := by
  induction ls generalizing depth with
  | nil => rfl
  | cons l ls ih => cases depth <;> simp [rise, ih]

private theorem map_maskCut_cons (l : Lexeme) (cut? : Option (List Lexeme × List Lexeme)) :
    (cut?.map maskCut).map (fun (front, rest) => (l.mask :: front, rest)) =
      (cut?.map fun (front, rest) => (l :: front, rest)).map maskCut := by
  cases cut? <;> rfl

/-- A group ends where its mask does. -/
theorem splitClose_map_mask (opening closing : Char) (depth : Nat) (ls : List Lexeme) :
    splitClose opening closing depth (ls.map Lexeme.mask) =
      (splitClose opening closing depth ls).map maskCut := by
  induction ls generalizing depth with
  | nil => rfl
  | cons l ls ih =>
    by_cases hclose : l.kind = .mark closing
    · cases depth with
      | zero => simp [splitClose, hclose, maskCut]
      | succ depth =>
        simp only [List.map_cons, splitClose, Lexeme.kind_mask, hclose, if_true, ih]
        exact map_maskCut_cons l _
    · simp only [List.map_cons, splitClose, Lexeme.kind_mask, hclose, if_false, ih]
      exact map_maskCut_cons l _

/-- A body starts where its mask does. -/
theorem splitBody_map_mask (depth : Nat) (ls : List Lexeme) :
    splitBody depth (ls.map Lexeme.mask) = (splitBody depth ls).map maskCut := by
  induction ls generalizing depth with
  | nil => rfl
  | cons l ls ih =>
    by_cases hl : l.kind = .mark '{' ∧ depth = 0
    · obtain ⟨hkind, rfl⟩ := hl
      rw [List.map_cons, splitBody_cons_of_open (l.kind_mask.trans hkind), splitBody_cons_of_open hkind]
      rfl
    · rw [List.map_cons, splitBody_cons_of_not (by rwa [Lexeme.kind_mask]), splitBody_cons_of_not hl, ih]
      simp only [Lexeme.kind_mask]
      exact map_maskCut_cons l _

/-! ## Functions -/

/-- The mask of a receiver is split off where the receiver is. -/
theorem splitReceiver?_map_mask (ls : List Lexeme) :
    splitReceiver? (ls.map Lexeme.mask) = (splitReceiver? ls).map maskCut := by
  have htrivia : Lexeme.isTrivia ∘ Lexeme.mask = Lexeme.isTrivia := funext Lexeme.isTrivia_mask
  simp only [splitReceiver?, List.takeWhile_map, List.dropWhile_map, htrivia]
  cases ls.dropWhile Lexeme.isTrivia with
  | nil => rfl
  | cons l rest =>
    simp only [List.map_cons, Lexeme.kind_mask, splitClose_map_mask]
    split_ifs with hopen
    · cases splitClose '(' ')' 0 rest with
      | none => rfl
      | some cut =>
        have hclose : Lexeme.mask ⟨.mark ')', [')']⟩ = ⟨.mark ')', [')']⟩ := rfl
        simp [maskCut, List.takeWhile_map, List.dropWhile_map, htrivia, hclose]
    · rfl

/-- Whether a function stands behind a keyword can be seen. -/
theorem function?_map_mask (lead : List Lexeme) (func : Lexeme) (ls : List Lexeme) :
    function? lead func (ls.map Lexeme.mask) = none ↔ function? lead func ls = none := by
  simp only [function?, splitReceiver?_map_mask]
  -- the parts of a function in turn: the receiver, the name, the parameters and the body
  cases splitReceiver? ls with
  | none => rfl
  | some cut =>
    obtain ⟨receiver, rest⟩ := cut
    cases rest with
    | nil => rfl
    | cons name rest =>
      by_cases hname : name.kind = .word
      · simp only [maskCut, Option.map_some, Option.bind_eq_bind, Option.bind_some, List.map_cons,
          List.head?_cons, List.tail_cons, Lexeme.kind_mask, hname, splitBody_map_mask]
        cases splitBody 0 rest with
        | none => simp
        | some cut =>
          simp only [maskCut, Option.map_some, Option.bind_some, splitClose_map_mask]
          cases splitClose '{' '}' 0 cut.2 <;> simp [guard]
      · simp [maskCut, hname, guard]

/-- A gap does not depend on the texts of the literals and comments behind it. -/
theorem Quiet.of_mask_eq {depth : Nat} {ls rest rest' : List Lexeme} (h : Quiet depth ls rest)
    (hmask : rest.map Lexeme.mask = rest'.map Lexeme.mask) : Quiet depth ls rest' := by
  induction ls generalizing depth with
  | nil => trivial
  | cons l ls ih =>
    refine ⟨fun hdepth hfunc => ?_, ih h.2⟩
    rw [← function?_map_mask, List.map_append, ← hmask, ← List.map_append, function?_map_mask]
    exact h.1 hdepth hfunc

/-! ## Headers -/

/-- A header takes the same steps over masks. -/
theorem headerStep_mask (state : HeaderState) (l : Lexeme) :
    headerStep state l.mask = headerStep state l := by
  cases state with
  | list depth => cases depth <;> simp only [headerStep, Lexeme.kind_mask]
  | start | package | clause | keyword | name =>
    simp only [headerStep, Lexeme.kind_mask, Lexeme.isWord_mask]

/-- A header has the length of its mask. -/
theorem headerLength?_map_mask (state : HeaderState) (seen done : Nat) (ls : List Lexeme) :
    headerLength? state seen done (ls.map Lexeme.mask) = headerLength? state seen done ls := by
  induction ls generalizing state seen done with
  | nil => rfl
  | cons l ls ih =>
    rw [List.map_cons]
    by_cases hl : l.isTrivia
    · rw [headerLength?_cons_trivia (l.isTrivia_mask.trans hl), headerLength?_cons_trivia hl, ih]
    · have hl' : l.isTrivia = false := by simpa using hl
      rw [headerLength?_cons (l.isTrivia_mask.trans hl'), headerLength?_cons hl', headerStep_mask]
      simp only [ih]

/-- The mask of the code is the code of the mask. -/
theorem code_map_mask (ls : List Lexeme) : code (ls.map Lexeme.mask) = (code ls).map Lexeme.mask := by
  have htrivia : (!·.isTrivia) ∘ Lexeme.mask = fun l => !l.isTrivia :=
    funext fun l => congrArg (!·) l.isTrivia_mask
  rw [code, List.filter_map, htrivia, code]

end Scaffold.Go
