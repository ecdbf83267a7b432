import Mathlib.Data.List.Basic
import Scaffold.Go.ByteScan
import Scaffold.Proofs.Go.Reading
import Scaffold.Proofs.Schema.ByteScan

/-!
# The tokens of a file are its lexemes

The scanner of Go files goes over bytes, and the reader of lexemes over characters. Every lexeme but white
space makes a token, at the position where it stands (`tokensOf`). Both readers judge a character alike, since
a byte of ASCII stands for its character only and all other bytes belong to words. In a string, an escape can
take the first byte of a character along; the other bytes mean nothing there, so the scanner meets the reader
behind it (`quoteEnd_eq`). The scanner never looks for a byte behind the end, and it finds just the tokens of
the lexemes (`tokenize_eq`).
-/

namespace Scaffold.Go

open Text
open Schema (IsAt byteAt_of_isAt positionOf?_bytesOf isAt_zero)

/-! ## Lexemes as tokens -/

/-- The kind of token that a lexeme makes. White space makes none. -/
def tokenKind? : LexemeKind → Option TokenKind
  | .blank => none
  | .comment => some .comment
  | .word => some .word
  | .literal => some .literal
  | .mark c => some (.mark c.toUInt8)

/-- The token that a lexeme makes at a position. -/
def Lexeme.token? (l : Lexeme) (pos : Nat) : Option Token :=
  (tokenKind? l.kind).map fun kind => ⟨kind, pos, pos + byteSize l.text⟩

/-- The tokens of lexemes of which the first begins at a position. -/
def tokensOf : (pos : Nat) → List Lexeme → List Token
  | _, [] => []
  | pos, l :: ls => (l.token? pos).toList ++ tokensOf (pos + byteSize l.text) ls

/-- The tokens of two lists: those of the second begin behind the text of the first. -/
theorem tokensOf_append (pos : Nat) (ls ms : List Lexeme) :
    tokensOf pos (ls ++ ms) = tokensOf pos ls ++ tokensOf (pos + byteSize (textOf ls)) ms := by
  induction ls generalizing pos with
  | nil => rfl
  | cons l ls ih =>
    rw [List.cons_append, tokensOf, tokensOf, ih, textOf_cons, byteSize_append, List.append_assoc,
      Nat.add_assoc]

/-! ## Bytes and characters -/

section

variable {c d : Char} {b : UInt8} {run : List UInt8}

theorem byteSize_cons_of_ascii (h : isAscii c) (s : Text) : byteSize (c :: s) = byteSize s + 1 := by
  rw [← length_bytesOf, bytesOf_cons_of_ascii h, List.length_cons, length_bytesOf]

/-- An ASCII character is told by the first byte of a character. -/
theorem eq_toUInt8_iff (hd : isAscii d) (h : String.utf8EncodeChar c = b :: run) :
    b = d.toUInt8 ↔ c = d := by
  constructor
  · intro hb
    by_contra hne
    exact ne_toUInt8_of_mem hd hne (h ▸ List.mem_cons_self) hb
  · rintro rfl
    rw [utf8EncodeChar_of_ascii hd] at h
    exact (List.cons.inj h).1.symm

/-- The first byte of a character tells whether it is a gap. -/
theorem isGapByte_eq (h : String.utf8EncodeChar c = b :: run) : isGapByte b = isGap c := by
  simp only [isGapByte, isGap, eq_toUInt8_iff (show isAscii ' ' by decide) h,
    eq_toUInt8_iff (show isAscii '\t' by decide) h, eq_toUInt8_iff (show isAscii '\n' by decide) h,
    eq_toUInt8_iff (show isAscii '\r' by decide) h]

theorem isWordByte_of_le (h : 128 ≤ b) : isWordByte b := by
  simp [isWordByte, h]

theorem isWordByte_toUInt8 (h : isAscii c) : isWordByte c.toUInt8 = isWordChar c :=
  forall_ascii (P := fun c => isWordByte c.toUInt8 = isWordChar c) (by decide) h

theorem isWordChar_of_not_ascii (h : isAscii c = false) : isWordChar c := by
  simp [isWordChar, h]

/-- What is not part of a word is an ASCII character. -/
theorem isAscii_of_not_isWordChar (h : isWordChar c = false) : isAscii c := by
  by_contra hnot
  rw [isWordChar_of_not_ascii (by simpa using hnot)] at h
  cases h

/-- The first byte of a character tells whether it is part of a word. -/
theorem isWordByte_eq (h : String.utf8EncodeChar c = b :: run) : isWordByte b = isWordChar c := by
  cases hc : isAscii c with
  | true =>
    rw [utf8EncodeChar_of_ascii hc] at h
    obtain rfl := (List.cons.inj h).1
    exact isWordByte_toUInt8 hc
  | false =>
    obtain ⟨b', run', hencode, hb', -⟩ := exists_utf8EncodeChar_of_not_ascii hc
    obtain ⟨rfl, -⟩ := List.cons.inj (h.symm.trans hencode)
    rw [isWordChar_of_not_ascii hc, isWordByte_of_le (UInt8.le_trans (by decide) hb')]

/-- All bytes of a character of words belong to words. -/
theorem isWordByte_of_mem (hc : isWordChar c) (hb : b ∈ String.utf8EncodeChar c) : isWordByte b := by
  obtain ⟨first, run, hencode, -, hrun⟩ := exists_utf8EncodeChar c
  rw [hencode] at hb
  cases hb with
  | head => rw [isWordByte_eq hencode, hc]
  | tail _ htail => exact isWordByte_of_le (hrun b htail)

end

/-! ## Where tokens end -/

section

variable {bytes rest : List UInt8} {i : Nat} {b : UInt8} {c : Char} {s tail : Text}

/-- The first byte of a text. -/
theorem exists_isAt_cons (h : IsAt bytes i (bytesOf (c :: s))) :
    ∃ b run, String.utf8EncodeChar c = b :: run ∧ IsAt bytes i (b :: (run ++ bytesOf s)) := by
  obtain ⟨b, run, hencode, -⟩ := exists_utf8EncodeChar c
  rw [bytesOf_cons, hencode, List.cons_append] at h
  exact ⟨b, run, hencode, h⟩

/-- One step over the bytes of a word. -/
theorem wordEnd_of_isAt (h : IsAt bytes i (b :: rest)) :
    wordEnd bytes i = if isWordByte b then wordEnd bytes (i + 1) else i := by
  obtain ⟨front, rfl, rfl⟩ := h
  rw [wordEnd]
  simp

theorem wordEnd_length (bytes : List UInt8) : wordEnd bytes bytes.length = bytes.length := by
  rw [wordEnd, dif_neg (Nat.lt_irrefl _)]

/-- A word ends in the bytes where it ends in the text. -/
theorem wordEnd_eq (htail : ∀ d ∈ tail, isWordChar d) (hs : ∀ d ∈ s.head?, isWordChar d = false)
    (h : IsAt bytes i (bytesOf (tail ++ s))) : wordEnd bytes i = i + byteSize tail := by
  induction tail generalizing i with
  | nil =>
    cases s with
    | nil =>
      obtain rfl : i = bytes.length := h.length_eq
      exact wordEnd_length bytes
    | cons d s =>
      obtain ⟨b, run, hencode, hb⟩ := exists_isAt_cons h
      have hword : isWordByte b = false := by
        rw [isWordByte_eq hencode]
        exact hs d rfl
      rw [wordEnd_of_isAt hb, hword]
      rfl
  | cons c tail ih =>
    obtain ⟨hc, htail⟩ := List.forall_mem_cons.1 htail
    rw [List.cons_append] at h
    -- all bytes of a character are part of a word if the character is
    have hover : wordEnd bytes i = wordEnd bytes (i + byteSize [c]) := by
      apply h.over
      intro j b back hb _ hj
      rw [wordEnd_of_isAt hj, isWordByte_of_mem hc hb]
      rfl
    rw [hover, ih htail h.behind_cons, byteSize_cons c tail, Nat.add_assoc]

/-- One step over the bytes of a string. -/
theorem quoteEnd_of_isAt {quote : UInt8} (h : IsAt bytes i (b :: rest)) :
    quoteEnd bytes quote i =
      if b = '\\'.toUInt8 then quoteEnd bytes quote (i + 2)
      else if b = '\n'.toUInt8 then i
      else if b = quote then i + 1
      else quoteEnd bytes quote (i + 1) := by
  obtain ⟨front, rfl, rfl⟩ := h
  rw [quoteEnd]
  simp

theorem quoteEnd_of_le {quote : UInt8} (h : bytes.length ≤ i) :
    quoteEnd bytes quote i = bytes.length := by
  rw [quoteEnd, dif_neg (Nat.not_lt.2 h)]

/-- A byte inside a literal that is nothing special is gone over. -/
theorem quoteEnd_of_ne {quote : UInt8} (hbackslash : b ≠ '\\'.toUInt8) (hnewline : b ≠ '\n'.toUInt8)
    (hquote : b ≠ quote) (h : IsAt bytes i (b :: rest)) :
    quoteEnd bytes quote i = quoteEnd bytes quote (i + 1) := by
  rw [quoteEnd_of_isAt h, if_neg hbackslash, if_neg hnewline, if_neg hquote]

/-- A string or a rune ends in the bytes where it ends in the text. -/
theorem quoteEnd_eq {q : Char} (hq : isAscii q) (h : IsAt bytes i (bytesOf s)) :
    quoteEnd bytes q.toUInt8 i = i + byteSize (quotedTail q s) := by
  fun_induction quotedTail q s generalizing i with
  | case1 =>
    obtain rfl : i = bytes.length := h.length_eq
    exact quoteEnd_of_le (Nat.le_refl _)
  | case2 =>
    rw [bytesOf_cons_of_ascii (by decide)] at h
    have hend : i + 1 = bytes.length := h.length_eq
    rw [quoteEnd_of_isAt h, if_pos rfl, quoteEnd_of_le (by omega), ← hend]
    rfl
  | case3 c s ih =>
    -- the scanner goes on behind the first byte of an escaped character, and over what is left of it
    obtain ⟨b, run, hencode, -, hrun⟩ := exists_utf8EncodeChar c
    rw [bytesOf_cons_of_ascii (by decide), bytesOf_cons, hencode, List.cons_append] at h
    have hover : quoteEnd bytes q.toUInt8 (i + 1 + 1) = quoteEnd bytes q.toUInt8 (i + 1 + 1 + run.length) := by
      apply h.tail.tail.over_run
      intro j d back hd _ hj
      have hlarge := hrun d hd
      exact quoteEnd_of_ne (ne_toUInt8_of_le (by decide) hlarge) (ne_toUInt8_of_le (by decide) hlarge)
        (ne_toUInt8_of_le hq hlarge) hj
    have hsize : byteSize ('\\' :: c :: quotedTail q s) = 1 + (1 + run.length) + byteSize (quotedTail q s) := by
      rw [byteSize_cons, byteSize_cons c, byteSize_singleton c, hencode, List.length_cons]
      show 1 + _ = _
      omega
    rw [quoteEnd_of_isAt h, if_pos rfl, hover, ih h.tail.tail.append, hsize]
    omega
  | case4 s hlone hescape =>
    rw [bytesOf_cons_of_ascii (by decide)] at h
    rw [quoteEnd_of_isAt h, if_neg (by decide), if_pos rfl]
    rfl
  | case5 s hlone hescape hnewline =>
    have hbackslash := ne_backslash hlone hescape
    obtain ⟨b, run, hencode, hb⟩ := exists_isAt_cons h
    have hone : byteSize [q] = 1 := by rw [byteSize_singleton, utf8EncodeChar_of_ascii hq]; rfl
    rw [quoteEnd_of_isAt hb, if_neg (mt (eq_toUInt8_iff (by decide) hencode).1 hbackslash),
      if_neg (mt (eq_toUInt8_iff (by decide) hencode).1 hnewline),
      if_pos ((eq_toUInt8_iff hq hencode).2 rfl), hone]
  | case6 c s hlone hescape hnewline hquote ih =>
    have hbackslash := ne_backslash hlone hescape
    have hover : quoteEnd bytes q.toUInt8 i = quoteEnd bytes q.toUInt8 (i + byteSize [c]) := by
      apply h.over
      intro j d back hd _ hj
      exact quoteEnd_of_ne (ne_toUInt8_of_mem (by decide) hbackslash hd)
        (ne_toUInt8_of_mem (by decide) hnewline hd) (ne_toUInt8_of_mem hq hquote hd) hj
    rw [hover, ih h.behind_cons, byteSize_cons c (quotedTail q s), Nat.add_assoc]

/-- Bytes are found where their text is found. -/
theorem findFrom?_of_isAt {mark : Text} (hne : mark ≠ []) (hmark : ∀ d ∈ mark, isAscii d)
    (h : IsAt bytes i (bytesOf s)) :
    findFrom? bytes i (bytesOf mark) = (cutAt? mark s).map fun cut => i + byteSize cut.1 := by
  have hle : i ≤ bytes.length := by
    have hlength := h.length_eq
    omega
  have hdrop : bytes.drop i = bytesOf s := by
    obtain ⟨front, rfl, rfl⟩ := h
    exact List.drop_left
  rw [findFrom?, if_pos hle, hdrop, positionOf?_bytesOf hne hmark, Option.map_map]
  rfl

/-- What goes up to a mark ends in the bytes where it ends in the text. -/
theorem elim_findFrom? {mark : Text} (hne : mark ≠ []) (hmark : ∀ d ∈ mark, isAscii d)
    (h : IsAt bytes i (bytesOf s)) :
    (findFrom? bytes i (bytesOf mark)).elim bytes.length (· + byteSize mark) =
      i + byteSize (through mark s) := by
  rw [findFrom?_of_isAt hne hmark h, through]
  cases cutAt? mark s with
  | none => exact h.length_eq.symm
  | some cut =>
    show i + byteSize cut.1 + byteSize mark = i + byteSize (cut.1 ++ mark)
    rw [byteSize_append, Nat.add_assoc]

/-- A line comment ends in the bytes where it ends in the text. -/
theorem getD_findFrom? (htail : ∀ d ∈ tail, d ≠ '\n') (hs : ∀ d ∈ s.head?, d = '\n')
    (h : IsAt bytes i (bytesOf (tail ++ s))) :
    (findFrom? bytes i ['\n'.toUInt8]).getD bytes.length = i + byteSize tail := by
  have hmem : '\n' ∉ tail := fun hmem => htail '\n' hmem rfl
  have hfind := findFrom?_of_isAt (show ['\n'] ≠ [] by decide) (by decide) h
  rw [show ['\n'.toUInt8] = bytesOf ['\n'] from rfl, hfind]
  cases s with
  | nil =>
    rw [List.append_nil] at h ⊢
    rw [cutAt?_eq_none_iff.2 hmem]
    exact h.length_eq.symm
  | cons d s =>
    obtain rfl : d = '\n' := hs d rfl
    have hcut : cutAt? ['\n'] (tail ++ '\n' :: s) = some (tail, s) := by
      simpa using cutAt?_append_of_notMem hmem [] s
    rw [hcut]
    rfl

/-! ## The next token -/

/-- The byte behind a byte. -/
theorem getElem?_of_isAt (h : IsAt bytes i (b :: rest)) : bytes[i + 1]? = rest[0]? := by
  obtain ⟨front, rfl, rfl⟩ := h
  rw [List.getElem?_append_right (Nat.le_add_right _ 1), Nat.add_sub_cancel_left]
  rfl

/-- Whether a character of ASCII comes next is told by the byte. -/
theorem getElem?_bytesOf_eq_some_iff {d : Char} (hd : isAscii d) (s : Text) :
    (bytesOf s)[0]? = some d.toUInt8 ↔ s.head? = some d := by
  cases s with
  | nil => simp
  | cons c s =>
    obtain ⟨b, run, hencode, -⟩ := exists_utf8EncodeChar c
    rw [bytesOf_cons, hencode]
    simpa using eq_toUInt8_iff hd hencode

/-- The next token is told by the byte it starts with. -/
theorem nextToken_of_isAt (h : IsAt bytes i (b :: rest)) : nextToken bytes i = .ok (tokenOf bytes i b) := by
  rw [nextToken, byteAt_of_isAt h]
  rfl

/-- Whether a slash and a character behind it come next is told by their bytes. -/
theorem slash_and_eq {d : Char} (hd : isAscii d) (hencode : String.utf8EncodeChar c = b :: run)
    (h : IsAt bytes i (bytesOf (c :: s))) :
    (decide (b = '/'.toUInt8) && decide (bytes[i + 1]? = some d.toUInt8)) =
      (decide (c = '/') && decide (s.head? = some d)) := by
  by_cases hslash : c = '/'
  · subst hslash
    rw [bytesOf_cons_of_ascii (by decide)] at h
    rw [(eq_toUInt8_iff (by decide) hencode).2 rfl, getElem?_of_isAt h]
    simp only [getElem?_bytesOf_eq_some_iff hd, decide_true]
  · have hb : b ≠ '/'.toUInt8 := mt (eq_toUInt8_iff (by decide) hencode).1 hslash
    simp only [hb, hslash, decide_false, Bool.false_and]

/-- The kind of a token is told by the characters with which it begins. -/
theorem tokenOf_eq (hencode : String.utf8EncodeChar c = b :: run) (h : IsAt bytes i (bytesOf (c :: s))) :
    tokenOf bytes i b =
      if isGap c then (none, i + 1)
      else if c = '/' && s.head? = some '/' then
        (some .comment, (findFrom? bytes i ['\n'.toUInt8]).getD bytes.length)
      else if c = '/' && s.head? = some '*' then
        (some .comment, (findFrom? bytes (i + 2) ['*'.toUInt8, '/'.toUInt8]).elim bytes.length (· + 2))
      else if c = '"' || c = '\'' then (some .literal, quoteEnd bytes b (i + 1))
      else if c = '`' then
        (some .literal, (findFrom? bytes (i + 1) ['`'.toUInt8]).elim bytes.length (· + 1))
      else if isWordChar c then (some .word, wordEnd bytes i)
      else (some (.mark b), i + 1) := by
  simp only [tokenOf, isGapByte_eq hencode, isWordByte_eq hencode,
    slash_and_eq (show isAscii '/' by decide) hencode h, slash_and_eq (show isAscii '*' by decide) hencode h,
    eq_toUInt8_iff (show isAscii '"' by decide) hencode, eq_toUInt8_iff (show isAscii '\'' by decide) hencode,
    eq_toUInt8_iff (show isAscii '`' by decide) hencode]

/-- A word makes a token. -/
theorem tokenOf_word (hencode : String.utf8EncodeChar c = b :: run) (hc : isWordChar c)
    (htail : ∀ d ∈ tail, isWordChar d) (hs : ∀ d ∈ s.head?, isWordChar d = false)
    (hat : IsAt bytes i (bytesOf (c :: (tail ++ s)))) :
    tokenOf bytes i b = (some .word, i + byteSize (c :: tail)) := by
  have hne {d : Char} (hd : isWordChar d = false) : c ≠ d := by
    rintro rfl
    rw [hc] at hd
    cases hd
  have hgap : isGap c = false := by
    by_contra hgap
    rw [isWordChar_of_isGap (by simpa using hgap)] at hc
    cases hc
  have hend : wordEnd bytes i = i + byteSize (c :: tail) :=
    wordEnd_eq (List.forall_mem_cons.2 ⟨hc, htail⟩) hs hat
  rw [tokenOf_eq hencode hat]
  simp only [hgap, hc, hend, hne (d := '/') (by decide), hne (d := '"') (by decide),
    hne (d := '\'') (by decide), hne (d := '`') (by decide), decide_false, Bool.false_and, Bool.or_self,
    Bool.false_eq_true, if_false, if_true]

/-- A string or a rune makes a token. -/
theorem tokenOf_quoted (hencode : String.utf8EncodeChar c = b :: run) (hq : c = '"' ∨ c = '\'')
    (htail : quotedTail c (tail ++ s) = tail) (hat : IsAt bytes i (bytesOf (c :: (tail ++ s)))) :
    tokenOf bytes i b = (some .literal, i + byteSize (c :: tail)) := by
  have hascii : isAscii c := by rcases hq with rfl | rfl <;> decide
  have hgap : isGap c = false := by rcases hq with rfl | rfl <;> decide
  have hslash : c ≠ '/' := by rcases hq with rfl | rfl <;> decide
  have hquote : (decide (c = '"') || decide (c = '\'')) = true := by
    rcases hq with rfl | rfl <;> decide
  obtain rfl : b = c.toUInt8 := (eq_toUInt8_iff hascii hencode).2 rfl
  have hend : quoteEnd bytes c.toUInt8 (i + 1) = i + 1 + byteSize tail := by
    rw [bytesOf_cons_of_ascii hascii] at hat
    rw [quoteEnd_eq hascii hat.tail, htail]
  rw [tokenOf_eq hencode hat]
  simp only [hgap, hslash, hquote, hend, byteSize_cons_of_ascii hascii, decide_false, Bool.false_and,
    Bool.false_eq_true, if_false, if_true, Nat.add_assoc, Nat.add_comm 1]

/-- A raw string makes a token. -/
theorem tokenOf_raw (hencode : String.utf8EncodeChar '`' = b :: run)
    (htail : through ['`'] (tail ++ s) = tail) (hat : IsAt bytes i (bytesOf ('`' :: (tail ++ s)))) :
    tokenOf bytes i b = (some .literal, i + byteSize ('`' :: tail)) := by
  rw [tokenOf_eq hencode hat, if_neg (by decide), if_neg (by simp), if_neg (by simp), if_neg (by decide),
    if_pos rfl, byteSize_cons_of_ascii (by decide), Nat.add_comm (byteSize tail), ← Nat.add_assoc]
  rw [bytesOf_cons_of_ascii (by decide)] at hat
  have hend := elim_findFrom? (show ['`'] ≠ [] by decide) (by decide) hat.tail
  rw [htail] at hend
  rw [← hend]
  rfl

/-- A line comment makes a token. -/
theorem tokenOf_lineComment (hencode : String.utf8EncodeChar '/' = b :: run)
    (htail : ∀ d ∈ tail, d ≠ '\n') (hs : ∀ d ∈ s.head?, d = '\n')
    (hat : IsAt bytes i (bytesOf ('/' :: '/' :: (tail ++ s)))) :
    tokenOf bytes i b = (some .comment, i + byteSize ('/' :: '/' :: tail)) := by
  have hend := getD_findFrom? (show ∀ d ∈ '/' :: '/' :: tail, d ≠ '\n' by simpa using htail) hs hat
  rw [tokenOf_eq hencode hat, if_neg (by decide), if_pos (by simp), hend]

/-- A general comment makes a token. -/
theorem tokenOf_generalComment (hencode : String.utf8EncodeChar '/' = b :: run)
    (htail : through "*/".toList (tail ++ s) = tail)
    (hat : IsAt bytes i (bytesOf ('/' :: '*' :: (tail ++ s)))) :
    tokenOf bytes i b = (some .comment, i + byteSize ('/' :: '*' :: tail)) := by
  have hsize : i + byteSize ('/' :: '*' :: tail) = i + 1 + 1 + byteSize tail := by
    rw [byteSize_cons_of_ascii (by decide), byteSize_cons_of_ascii (by decide)]
    omega
  rw [tokenOf_eq hencode hat, if_neg (by decide), if_neg (by simp), if_pos (by simp), hsize]
  rw [bytesOf_cons_of_ascii (by decide), bytesOf_cons_of_ascii (by decide)] at hat
  have hend := elim_findFrom? (show "*/".toList ≠ [] by decide) (by decide) hat.tail.tail
  rw [htail] at hend
  rw [← hend]
  rfl

/-- A mark makes a token of one byte. -/
theorem tokenOf_mark (hencode : String.utf8EncodeChar c = b :: run) (hgap : isGap c = false)
    (hword : isWordChar c = false) (hquote : c ≠ '"' ∧ c ≠ '\'' ∧ c ≠ '`')
    (hs : c = '/' → ∀ d ∈ s.head?, d ≠ '/' ∧ d ≠ '*') (hat : IsAt bytes i (bytesOf (c :: s))) :
    tokenOf bytes i b = (some (.mark c.toUInt8), i + 1) := by
  have hascii := isAscii_of_not_isWordChar hword
  obtain rfl : b = c.toUInt8 := (eq_toUInt8_iff hascii hencode).2 rfl
  have hnext {d : Char} (hd : d = '/' ∨ d = '*') :
      (decide (c = '/') && decide (s.head? = some d)) = false := by
    rw [Bool.and_eq_false_iff, decide_eq_false_iff_not, decide_eq_false_iff_not,
      ← Classical.not_and_iff_not_or_not]
    rintro ⟨hslash, hhead⟩
    obtain ⟨hline, hgeneral⟩ := hs hslash d hhead
    exact hd.elim hline hgeneral
  rw [tokenOf_eq hencode hat, hgap, hnext (.inl rfl), hnext (.inr rfl)]
  simp only [hquote, hword, decide_false, Bool.or_self, Bool.false_eq_true, if_false]

/-- A lexeme that is no white space makes a token, with the same text. -/
theorem nextToken_of_shape {kind : LexemeKind} (h : Shape kind c tail s) (hkind : kind ≠ .blank)
    (hat : IsAt bytes i (bytesOf (c :: tail ++ s))) :
    nextToken bytes i = .ok (tokenKind? kind, i + byteSize (c :: tail)) := by
  rw [List.cons_append] at hat
  obtain ⟨b, run, hencode, hb⟩ := exists_isAt_cons hat
  rw [nextToken_of_isAt hb]
  congr 1
  cases h with
  | blank => exact absurd rfl hkind
  | word hc htail hs => exact tokenOf_word hencode hc htail hs hat
  | quoted hq htail => exact tokenOf_quoted hencode hq htail hat
  | raw htail => exact tokenOf_raw hencode htail hat
  | line htail hs => exact tokenOf_lineComment hencode htail hs hat
  | general htail => exact tokenOf_generalComment hencode htail hat
  | mark hgap hword hquote hs =>
    have hone : byteSize [c] = 1 := by
      rw [byteSize_cons_of_ascii (isAscii_of_not_isWordChar hword), byteSize_nil]
    rw [hone]
    exact tokenOf_mark hencode hgap hword hquote hs hat

/-! ## The tokens of a file -/

/-- One turn of the scanner. -/
theorem tokensFrom_eq (bytes : List UInt8) (i : Nat) : tokensFrom bytes i =
    if i < bytes.length then
      (nextToken bytes i).bind fun (kind, stop) =>
        (tokensFrom bytes stop).map fun tokens => kind.elim tokens fun kind => ⟨kind, i, stop⟩ :: tokens
    else .ok [] := by
  rw [tokensFrom]
  split
  · split <;> simp_all [Except.bind]
  · rfl

theorem lt_length_of_isAt (h : IsAt bytes i (b :: rest)) : i < bytes.length := by
  have hlength := h.length_eq
  rw [List.length_cons] at hlength
  omega

/-- White space makes no token. -/
theorem tokensFrom_blank {blank : Text} (hblank : ∀ d ∈ blank, isGap d)
    (h : IsAt bytes i (bytesOf (blank ++ s))) :
    tokensFrom bytes i = tokensFrom bytes (i + byteSize blank) := by
  induction blank generalizing i with
  | nil => rfl
  | cons c blank ih =>
    obtain ⟨hc, hblank⟩ := List.forall_mem_cons.1 hblank
    rw [List.cons_append] at h
    obtain ⟨b, run, hencode, hb⟩ := exists_isAt_cons h
    have hascii := isAscii_of_not_isWordChar (isWordChar_of_isGap hc)
    have hbehind := h.behind_cons
    rw [tokensFrom_eq, if_pos (lt_length_of_isAt hb), nextToken_of_isAt hb, tokenOf_eq hencode h, if_pos hc,
      byteSize_cons_of_ascii hascii, Nat.add_comm (byteSize blank), ← Nat.add_assoc]
    rw [byteSize_cons_of_ascii hascii, byteSize_nil, Nat.zero_add] at hbehind
    rw [← ih hblank hbehind]
    show (tokensFrom bytes (i + 1)).map id = _
    cases tokensFrom bytes (i + 1) <;> rfl

/-- The tokens from a position on are those of the lexemes from there on. -/
theorem tokensFrom_of_reads {ls : List Lexeme} (h : Reads ls []) (hat : IsAt bytes i (bytesOf (textOf ls))) :
    tokensFrom bytes i = .ok (tokensOf i ls) := by
  induction ls generalizing i with
  | nil =>
    obtain rfl : i = bytes.length := hat.length_eq
    rw [tokensFrom_eq, if_neg (Nat.lt_irrefl _)]
    rfl
  | cons l ls ih =>
    obtain ⟨⟨c, tail, htext, hshape⟩, hls⟩ := h
    rw [textOf_cons] at hat
    have hrest := ih hls hat.behind
    rw [List.append_nil] at hshape
    rw [tokensOf, Lexeme.token?]
    -- white space is passed byte by byte, any other lexeme as one token
    by_cases hblank : l.kind = .blank
    · have hgap : ∀ d ∈ l.text, isGap d := by
        rw [hblank] at hshape
        rw [htext]
        cases hshape with
        | blank hc htail => exact List.forall_mem_cons.2 ⟨hc, htail⟩
      rw [tokensFrom_blank hgap hat, hrest, hblank]
      rfl
    · rw [htext] at hat hrest ⊢
      obtain ⟨b, run, -, hb⟩ := exists_isAt_cons (List.cons_append ▸ hat)
      rw [tokensFrom_eq, if_pos (lt_length_of_isAt hb), nextToken_of_shape hshape hblank hat]
      show (tokensFrom bytes _).map _ = _
      rw [hrest]
      cases hkind : l.kind <;> first | exact absurd hkind hblank | rfl

end

/-- The scanner goes through without a fault, and it finds the tokens of the lexemes. -/
theorem tokenize_eq (s : Text) : tokenize s = .ok (tokensOf 0 (lex s)) := by
  apply tokensFrom_of_reads (reads_lex s)
  rw [textOf_lex]
  exact isAt_zero (bytesOf s)

end Scaffold.Go
