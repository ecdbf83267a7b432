/-!
# Text

Every source this library reads and every file it writes is a `Text`: a list of characters, so that
each statement about cutting and joining is a statement about lists. This module holds the
operations on texts that know nothing of their content: cutting off a known beginning, finding the
first place where a text occurs, splitting at a character, trimming, and ordering.
-/

namespace Scaffold

/-- A text is the list of its characters. -/
abbrev Text := List Char

namespace Text

/-- What follows `p` in `s`, if `s` begins with `p`. -/
def after? : (p s : Text) → Option Text
  | [], s => some s
  | _ :: _, [] => none
  | a :: p, c :: s => if a = c then after? p s else none

/-- The text before and the text after the first place where `p` occurs in `s`. -/
def cutAt? (p : Text) : Text → Option (Text × Text)
  | [] => (after? p []).map fun rest => ([], rest)
  | c :: s =>
    match after? p (c :: s) with
    | some rest => some ([], rest)
    | none => (cutAt? p s).map fun (front, rest) => (c :: front, rest)

def occursIn (p s : Text) : Bool := (cutAt? p s).isSome

/-- Puts `new` in the place of the first occurrence of `old`, if there is one. -/
def substitute? (old new s : Text) : Option Text :=
  (cutAt? old s).map fun (front, rest) => front ++ new ++ rest

/-- `s` without the longest ending on which `p` holds throughout. -/
def dropEndWhile (p : Char → Bool) (s : Text) : Text := (s.reverse.dropWhile p).reverse

def endsWith (p s : Text) : Bool := (after? p.reverse s.reverse).isSome

/-- The first part of `splitOn sep s` and the parts that follow it. -/
def splitHead (sep : Char) : Text → Text × List Text
  | [] => ([], [])
  | c :: s =>
    let (part, parts) := splitHead sep s
    if c = sep then ([], part :: parts) else (c :: part, parts)

/-- The parts of `s` between the places where `sep` stands; there is one part more than places. -/
def splitOn (sep : Char) (s : Text) : List Text :=
  (splitHead sep s).1 :: (splitHead sep s).2

/-- The parts that are not empty, between the places where `sep` stands. -/
def parts (sep : Char) (s : Text) : List Text := (splitOn sep s).filter (· ≠ [])

def join (sep : Text) (ts : List Text) : Text := sep.intercalate ts

/-- One line without a carriage return at its end. -/
def dropReturn (line : Text) : Text :=
  if line.getLast? = some '\r' then line.dropLast else line

/-- The lines of `s`. A newline ends a line, and a carriage return before it belongs to that ending;
what follows the last newline is a line if it is not empty. -/
def lines (s : Text) : List Text :=
  let all := splitOn '\n' s
  all.dropLast.map dropReturn ++ (all.getLast?.toList.filter (· ≠ []))

/-- `a` comes before `b` in code point order, or equals it. -/
def le (a b : Text) : Bool := (compare a b).isLE

def bytesOf (s : Text) : List UInt8 := s.flatMap String.utf8EncodeChar

/-- How many bytes `s` takes in the encoding UTF-8. -/
def byteSize (s : Text) : Nat := (s.flatMap String.utf8EncodeChar).length

/-- The decimal digits of a number, with zeros in front up to `width` digits. -/
def digits (width n : Nat) : Text :=
  let ds := Nat.toDigits 10 n
  List.replicate (width - ds.length) '0' ++ ds

/-! ## What cutting leaves -/

theorem after?_eq_some {p s rest : Text} (h : after? p s = some rest) : s = p ++ rest := by
  fun_induction after? p s with
  | case1 s => simpa using h
  | case2 => simp at h
  | case3 p c s ih => simpa using ih h
  | case4 => simp at h

theorem cutAt?_eq_some {p s front rest : Text} (h : cutAt? p s = some (front, rest)) :
    s = front ++ p ++ rest := by
  induction s generalizing front with
  | nil =>
    cases hp : after? p [] with
    | none => simp [cutAt?, hp] at h
    | some r =>
      simp only [cutAt?, hp, Option.map_some, Option.some.injEq, Prod.mk.injEq] at h
      obtain ⟨rfl, rfl⟩ := h
      simpa using after?_eq_some hp
  | cons c s ih =>
    unfold cutAt? at h
    cases hp : after? p (c :: s) with
    | some r =>
      simp only [hp, Option.some.injEq, Prod.mk.injEq] at h
      obtain ⟨rfl, rfl⟩ := h
      simpa using after?_eq_some hp
    | none =>
      simp only [hp, Option.map_eq_some_iff] at h
      obtain ⟨⟨front', rest'⟩, hcut, heq⟩ := h
      simp only [Prod.mk.injEq] at heq
      obtain ⟨rfl, rfl⟩ := heq
      simpa using ih hcut

end Text

end Scaffold
