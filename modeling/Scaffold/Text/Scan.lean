import Scaffold.Text.Basic

/-!
# Scanning for a pattern

A pattern is a function that looks at the character before the cursor and at the text from the
cursor on, and either refuses or gives a value and what is left. Scanning goes from left to right:
where the pattern accepts, its match is taken whole and scanning goes on behind it; where it
refuses, one character passes. The result is a list of pieces that tile the text.
-/

namespace Scaffold.Text

/-- A pattern at a cursor: given the character before it and the text after it, a value and the
text that is left. -/
abbrev Pattern (α : Type) := Option Char → Text → Option (α × Text)

/-- A piece of a scanned text: a character that no match took, or a match. -/
inductive Piece (α : Type) where
  /-- A character outside all matches. -/
  | loose (c : Char)
  /-- A match: the value that the pattern gave and the text that it took. -/
  | found (value : α) (taken : Text)
  deriving Repr, DecidableEq

variable {α : Type}

/-- The pieces from the cursor on, where the first `skip` characters belong to an earlier match. -/
def piecesFrom (p : Pattern α) : (skip : Nat) → (before : Option Char) → Text → List (Piece α)
  | _, _, [] => []
  | skip + 1, _, c :: s => piecesFrom p skip (some c) s
  | 0, before, c :: s =>
    match p before (c :: s) with
    | some (value, rest) =>
      .found value ((c :: s).take (s.length - rest.length + 1)) ::
        piecesFrom p (s.length - rest.length) (some c) s
    | none => .loose c :: piecesFrom p 0 (some c) s

def pieces (p : Pattern α) (s : Text) : List (Piece α) := piecesFrom p 0 none s

def Piece.text : Piece α → Text
  | .loose c => [c]
  | .found _ taken => taken

def Piece.value? : Piece α → Option α
  | .loose _ => none
  | .found value _ => some value

/-- The values of all matches, from left to right. -/
def findAll (p : Pattern α) (s : Text) : List α := (pieces p s).filterMap Piece.value?

def find? (p : Pattern α) (s : Text) : Option α := (findAll p s).head?

/-- Puts `f value` in the place of each match. -/
def replaceAll (p : Pattern α) (f : α → Text) (s : Text) : Text :=
  (pieces p s).flatMap fun
    | .loose c => [c]
    | .found value _ => f value

def eraseAll (p : Pattern α) (s : Text) : Text := replaceAll p (fun _ => []) s

theorem flatMap_text_piecesFrom (p : Pattern α) (skip : Nat) (before : Option Char) (s : Text) :
    (piecesFrom p skip before s).flatMap Piece.text = s.drop skip := by
  fun_induction piecesFrom p skip before s with
  | case1 => simp
  | case2 skip _ c s ih => simpa using ih
  | case3 before c s value rest _ ih =>
    simp [Piece.text, ih, List.take_succ_cons]
  | case4 before c s _ ih => simpa [Piece.text] using ih

/-- The pieces tile the text: nothing is lost and nothing is counted twice. -/
theorem flatMap_text_pieces (p : Pattern α) (s : Text) :
    (pieces p s).flatMap Piece.text = s := by
  simpa [pieces] using flatMap_text_piecesFrom p 0 none s

end Scaffold.Text
