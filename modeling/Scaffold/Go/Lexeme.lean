import Scaffold.Text.Scan
import Scaffold.Text.Letter

/-!
# Lexemes of Go

A Go source is cut into lexemes: white space, comments, words, literals and single marks. Every
character belongs to a lexeme, also in a source that is no Go, and a literal or a comment that is
not closed ends with its line or with the source. Main statement: the lexemes of a source
concatenate to it (`textOf_lex`).
-/

namespace Scaffold.Go

open Text

/-- What a lexeme is. -/
inductive LexemeKind where
  /-- Spaces, tabs, newlines and carriage returns. -/
  | blank
  /-- A line comment without its newline, or a general comment. -/
  | comment
  /-- An identifier, a keyword or a number. -/
  | word
  /-- A string, a raw string or a rune. -/
  | literal
  /-- Any other character. -/
  | mark (c : Char)
  deriving DecidableEq, Repr

/-- A piece of a Go source. -/
structure Lexeme where
  kind : LexemeKind
  text : Text
  deriving DecidableEq, Repr

def isGap (c : Char) : Bool := c = ' ' || c = '\t' || c = '\n' || c = '\r'

/-- A character of a word: a letter or digit of ASCII, an underscore, or anything outside ASCII. -/
def isWordChar (c : Char) : Bool := !isAscii c || c.isAlphanum || c = '_'

/-- What belongs to a literal behind its opening quote. A backslash takes the next character with
it, and a literal that is not closed ends before the end of its line. -/
def quotedTail (quote : Char) : Text → Text
  | [] => []
  | ['\\'] => ['\\']
  | '\\' :: c :: s => '\\' :: c :: quotedTail quote s
  | c :: s => if c = '\n' then [] else if c = quote then [c] else c :: quotedTail quote s

/-- What stands up to and with the first `mark`, or everything if there is none. -/
def through (mark s : Text) : Text := (cutAt? mark s).elim s fun (front, _) => front ++ mark

/-- The kind of the lexeme that starts with `c`, and what belongs to it of the text `s` behind. -/
def nextLexeme (c : Char) (s : Text) : LexemeKind × Text :=
  if isGap c then (.blank, s.takeWhile isGap)
  else if isWordChar c then (.word, s.takeWhile isWordChar)
  else if c = '"' || c = '\'' then (.literal, quotedTail c s)
  else if c = '`' then (.literal, through ['`'] s)
  else if c = '/' then
    match s with
    | '/' :: inside => (.comment, '/' :: inside.takeWhile (· ≠ '\n'))
    | '*' :: inside => (.comment, '*' :: through "*/".toList inside)
    | _ => (.mark c, [])
  else (.mark c, [])

/-- The lexemes from the cursor on, where the first `skip` characters belong to an earlier one. -/
def lexFrom : (skip : Nat) → Text → List Lexeme
  | _, [] => []
  | skip + 1, _ :: s => lexFrom skip s
  | 0, c :: s =>
    let (kind, tail) := nextLexeme c s
    ⟨kind, c :: tail⟩ :: lexFrom tail.length s

def lex (s : Text) : List Lexeme := lexFrom 0 s

def textOf (ls : List Lexeme) : Text := ls.flatMap Lexeme.text

/-- Whether a lexeme is white space or a comment. -/
def Lexeme.isTrivia (l : Lexeme) : Bool := l.kind = .blank || l.kind = .comment

def Lexeme.isWord (l : Lexeme) (w : Text) : Bool := l.kind = .word && l.text = w

theorem through_isPrefix (mark s : Text) : through mark s <+: s := by
  unfold through
  cases h : cutAt? mark s with
  | none => simp
  | some found => exact ⟨found.2, (cutAt?_eq_some h).symm⟩

theorem quotedTail_isPrefix (quote : Char) (s : Text) : quotedTail quote s <+: s := by
  fun_induction quotedTail quote s with
  | case1 => simp
  | case2 => simp
  | case3 c s ih => simpa using ih
  | case4 s _ => simp
  | case5 s _ _ => simp [List.cons_prefix_cons]
  | case6 c s _ _ _ _ ih => simpa [List.cons_prefix_cons] using ih

/-- What belongs to a lexeme stands right behind its first character. -/
theorem nextLexeme_isPrefix (c : Char) (s : Text) : (nextLexeme c s).2 <+: s := by
  unfold nextLexeme
  repeat' split
  · exact List.takeWhile_prefix _
  · exact List.takeWhile_prefix _
  · exact quotedTail_isPrefix c s
  · exact through_isPrefix _ s
  · simpa using List.takeWhile_prefix _
  · simpa using through_isPrefix _ _
  · exact List.nil_prefix
  · exact List.nil_prefix

theorem textOf_lexFrom (skip : Nat) (s : Text) : textOf (lexFrom skip s) = s.drop skip := by
  fun_induction lexFrom skip s with
  | case1 => simp [textOf]
  | case2 skip _ s ih => simpa using ih
  | case3 c s kind tail h ih =>
    have hprefix : tail <+: s := by simpa [h] using nextLexeme_isPrefix c s
    simp only [textOf, List.flatMap_cons] at ih ⊢
    rw [ih]
    simpa using (List.prefix_iff_eq_append.1 hprefix)

/-- The lexemes of a source concatenate to it. -/
theorem textOf_lex (s : Text) : textOf (lex s) = s := textOf_lexFrom 0 s

end Scaffold.Go
