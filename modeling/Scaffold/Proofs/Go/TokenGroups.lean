import Scaffold.Proofs.Go.Declaration
import Scaffold.Proofs.Go.Tokens

/-!
# Groups of tokens by their numbers

The byte scanner looks groups of tokens up by number, and the reader of files cuts a list of lexemes in front of
a mark. Where the lexemes of a file are `front ++ ls`, the next token has the number `tokenCount front` and
begins at the position `extent front`, and everything the scanner looks up behind it is told by `ls`: the end of
a group by `splitClose` (`matching?_tokens`), the start of a body by `splitBody` (`bodyFrom?_tokensOf`), the next
code by what stands behind white space and comments (`codeFrom?_tokens`). So the scanner finds the outline of a
function where the reader finds a declaration, and nowhere else (`outline?_of_valid`, `outline?_of_none`).
-/

namespace Scaffold.Go

open Text

/-! ## Numbers and positions -/

/-- The number of tokens that lexemes make. -/
def tokenCount (ls : List Lexeme) : Nat := ls.countP (·.kind ≠ .blank)

/-- The number of bytes of lexemes. -/
def extent (ls : List Lexeme) : Nat := byteSize (textOf ls)

@[simp] theorem extent_nil : extent [] = 0 := rfl

@[simp] theorem extent_cons (l : Lexeme) (ls : List Lexeme) :
    extent (l :: ls) = byteSize l.text + extent ls :=
  byteSize_append l.text (textOf ls)

@[simp] theorem extent_append (ls ms : List Lexeme) : extent (ls ++ ms) = extent ls + extent ms := by
  rw [extent, textOf_append, byteSize_append]
  rfl

@[simp] theorem tokenCount_nil : tokenCount [] = 0 := rfl

@[simp] theorem tokenCount_append (ls ms : List Lexeme) :
    tokenCount (ls ++ ms) = tokenCount ls + tokenCount ms := List.countP_append

/-- White space makes no token. -/
theorem tokenCount_cons_blank {l : Lexeme} (h : l.kind = .blank) (ls : List Lexeme) :
    tokenCount (l :: ls) = tokenCount ls :=
  List.countP_cons_of_neg (by simpa using h)

/-- Every other lexeme makes one. -/
theorem tokenCount_cons {l : Lexeme} (h : l.kind ≠ .blank) (ls : List Lexeme) :
    tokenCount (l :: ls) = tokenCount ls + 1 :=
  List.countP_cons_of_pos (by simpa using h)

theorem add_tokenCount_cons {l : Lexeme} (h : l.kind ≠ .blank) (i : Nat) (ls : List Lexeme) :
    i + tokenCount (l :: ls) = i + 1 + tokenCount ls := by
  rw [tokenCount_cons h]
  omega

/-- What makes a token is no white space. -/
theorem ne_blank_of_tokenKind? {kind : LexemeKind} {t : TokenKind} (h : tokenKind? kind = some t) :
    kind ≠ .blank := by
  rintro rfl
  cases h

theorem tokensOf_cons_blank {l : Lexeme} (h : l.kind = .blank) (pos : Nat) (ls : List Lexeme) :
    tokensOf pos (l :: ls) = tokensOf (pos + byteSize l.text) ls := by
  rw [tokensOf, Lexeme.token?, h]
  rfl

theorem tokensOf_cons {l : Lexeme} {kind : TokenKind} (h : tokenKind? l.kind = some kind) (pos : Nat)
    (ls : List Lexeme) :
    tokensOf pos (l :: ls) = ⟨kind, pos, pos + byteSize l.text⟩ :: tokensOf (pos + byteSize l.text) ls := by
  rw [tokensOf, Lexeme.token?, h]
  rfl

/-- There are as many tokens as lexemes that are no white space. -/
theorem length_tokensOf (pos : Nat) (ls : List Lexeme) : (tokensOf pos ls).length = tokenCount ls := by
  induction ls generalizing pos with
  | nil => rfl
  | cons l ls ih =>
    cases hkind : tokenKind? l.kind with
    | none =>
      have hblank : l.kind = .blank := by
        cases h : l.kind <;> rw [h] at hkind <;> first | rfl | cases hkind
      rw [tokensOf_cons_blank hblank, ih, tokenCount_cons_blank hblank]
    | some kind =>
      rw [tokensOf_cons hkind, List.length_cons, ih, tokenCount_cons (ne_blank_of_tokenKind? hkind)]

section

variable {all front ls : List Lexeme} {l : Lexeme} {kind : TokenKind}

/-- The tokens from a number on are those of the lexemes from there on. -/
theorem drop_tokens (hall : all = front ++ ls) :
    (tokensOf 0 all).drop (tokenCount front) = tokensOf (extent front) ls := by
  rw [hall, tokensOf_append, Nat.zero_add, ← length_tokensOf 0 front, List.drop_left]
  rfl

/-- The token of a lexeme stands behind those of the lexemes in front. -/
theorem getElem?_tokens (hall : all = front ++ l :: ls) (h : tokenKind? l.kind = some kind) :
    (tokensOf 0 all)[tokenCount front]? = some ⟨kind, extent front, extent front + byteSize l.text⟩ := by
  have hdrop := drop_tokens hall
  rw [tokensOf_cons h] at hdrop
  have hhead := congrArg (·[0]?) hdrop
  simpa using hhead

/-- What is there is found without a fault. -/
theorem itemAt_of_getElem? {α : Type} {items : List α} {i : Nat} {item : α} (h : items[i]? = some item) :
    itemAt items i = .ok item := by
  obtain ⟨hi, rfl⟩ := List.getElem?_eq_some_iff.1 h
  exact dif_pos hi

/-- A token can be looked up under the number of its lexeme. -/
theorem itemAt_tokens (hall : all = front ++ l :: ls) (h : tokenKind? l.kind = some kind) :
    itemAt (tokensOf 0 all) (tokenCount front) = .ok ⟨kind, extent front, extent front + byteSize l.text⟩ :=
  itemAt_of_getElem? (getElem?_tokens hall h)

/-- The number of the token behind a lexeme that makes one. -/
theorem tokenCount_append_cons (h : l.kind ≠ .blank) (front ls : List Lexeme) :
    tokenCount (front ++ l :: ls) = tokenCount front + 1 + tokenCount ls := by
  rw [tokenCount_append, tokenCount_cons h]
  omega

/-- What makes a token can stand for another such lexeme where tokens are counted. -/
theorem tokenCount_congr {m : Lexeme} (hl : l.kind ≠ .blank) (hm : m.kind ≠ .blank) (front ls : List Lexeme) :
    tokenCount (front ++ l :: ls) = tokenCount (front ++ m :: ls) := by
  rw [tokenCount_append_cons hl, tokenCount_append_cons hm]

end

/-! ## Cuts -/

theorem splitBytes?_cons {i : Nat} (hi : 0 < i) (c : Char) (s : Text) :
    splitBytes? i (c :: s) =
      if byteSize [c] ≤ i then
        (splitBytes? (i - byteSize [c]) s).map fun (front, rest) => (c :: front, rest)
      else none := by
  cases i with
  | zero => exact absurd hi (Nat.lt_irrefl 0)
  | succ i => rfl

/-- A text is split behind its first part. -/
theorem splitBytes?_append (a s : Text) : splitBytes? (byteSize a) (a ++ s) = some (a, s) := by
  induction a with
  | nil => cases s <;> rfl
  | cons c a ih =>
    have hpos := byteSize_singleton_pos c
    rw [byteSize_cons, List.cons_append, splitBytes?_cons (by omega), if_pos (Nat.le_add_right _ _),
      Nat.add_sub_cancel_left, ih]
    rfl

/-- A text is cut out between where it begins and where it ends. -/
theorem cut_append (a b c : Text) : cut (a ++ (b ++ c)) (byteSize a) (byteSize a + byteSize b) = .ok b := by
  have hrange : byteSize a ≤ byteSize a + byteSize b ∧
      byteSize a + byteSize b ≤ byteSize (a ++ (b ++ c)) := by
    rw [byteSize_append, byteSize_append]
    omega
  have hstop : splitBytes? (byteSize a + byteSize b) (a ++ (b ++ c)) = some (a ++ b, c) := by
    rw [← byteSize_append, ← List.append_assoc]
    exact splitBytes?_append (a ++ b) c
  rw [cut, if_neg (not_not_intro hrange), hstop]
  simp only [Option.bind_some, splitBytes?_append]

/-- Lexemes are cut out of their file between where they begin and where they end. -/
theorem cut_lexemes {s : Text} {front mid rest : List Lexeme} (h : lex s = front ++ (mid ++ rest)) :
    cut s (extent front) (extent front + extent mid) = .ok (textOf mid) := by
  have htext := textOf_lex s
  rw [h, textOf_append, textOf_append] at htext
  rw [← htext]
  exact cut_append (textOf front) (textOf mid) (textOf rest)

/-- The text of a token is that of its lexeme. -/
theorem tokenText_lexeme {s : Text} {front rest : List Lexeme} {l : Lexeme} (h : lex s = front ++ l :: rest)
    (kind : TokenKind) :
    tokenText s ⟨kind, extent front, extent front + byteSize l.text⟩ = .ok l.text := by
  have hcut := cut_lexemes (show lex s = front ++ ([l] ++ rest) from h)
  rw [extent_cons, extent_nil, Nat.add_zero, textOf_cons, textOf_nil, List.append_nil] at hcut
  exact hcut

/-! ## Marks -/

/-- The marks are characters of ASCII. -/
def PlainMarks (ls : List Lexeme) : Prop := ∀ l ∈ ls, ∀ c, l.kind = .mark c → isAscii c

/-- Marks that are read are ASCII characters. -/
theorem Reads.plainMarks {ls : List Lexeme} {s : Text} (h : Reads ls s) : PlainMarks ls := by
  intro l hl c hkind
  obtain ⟨s', d, tail, -, hshape⟩ := h.exists_endsBefore l hl
  rw [hkind] at hshape
  cases hshape with
  | mark _ hword => exact isAscii_of_not_isWordChar hword

theorem PlainMarks.head {l : Lexeme} {ls : List Lexeme} (h : PlainMarks (l :: ls)) {c : Char}
    (hkind : l.kind = .mark c) : isAscii c :=
  h l List.mem_cons_self c hkind

theorem PlainMarks.tail {l : Lexeme} {ls : List Lexeme} (h : PlainMarks (l :: ls)) : PlainMarks ls :=
  fun m hm => h m (List.mem_cons_of_mem l hm)

theorem PlainMarks.of_append {ls ms : List Lexeme} (h : PlainMarks (ls ++ ms)) : PlainMarks ms :=
  fun m hm => h m (List.mem_append_right ls hm)

/-- A token is a mark of ASCII if its lexeme is. -/
theorem tokenKind_eq_mark_iff {l : Lexeme} {ls : List Lexeme} (hls : PlainMarks (l :: ls)) {kind : TokenKind}
    (h : tokenKind? l.kind = some kind) {d : Char} (hd : isAscii d) :
    kind = .mark d.toUInt8 ↔ l.kind = .mark d := by
  cases hkind : l.kind with
  | blank | comment | word | literal =>
    rw [hkind] at h
    cases h <;> simp
  | mark c =>
    rw [hkind] at h
    cases h
    rw [TokenKind.mark.injEq, LexemeKind.mark.injEq]
    exact eq_toUInt8_iff hd (utf8EncodeChar_of_ascii (hls.head hkind))

/-- Only white space makes no token. -/
theorem tokenKind?_eq_none_iff {kind : LexemeKind} : tokenKind? kind = none ↔ kind = .blank := by
  cases kind <;> simp [tokenKind?]

/-! ## The end of a group -/

section

variable {all front ls : List Lexeme}

/-- The scanner finds the end of a group where the reader does. The scanner counts the group itself. -/
theorem closeFrom?_tokensOf {opening closing : Char} (hopening : isAscii opening) (hclosing : isAscii closing)
    (hne : opening ≠ closing) (hls : PlainMarks ls) (depth i pos : Nat) :
    closeFrom? opening.toUInt8 closing.toUInt8 (depth + 1) i (tokensOf pos ls) =
      (splitClose opening closing depth ls).map fun split => i + tokenCount split.1 := by
  induction ls generalizing depth i pos with
  | nil => rfl
  | cons l ls ih =>
    have hrest := ih hls.tail
    cases hkind : tokenKind? l.kind with
    | none =>
      have hblank := tokenKind?_eq_none_iff.1 hkind
      rw [tokensOf_cons_blank hblank, hrest, splitClose_cons_of_ne (by simp [hblank]),
        if_neg (by simp [hblank]), Option.map_map]
      simp only [Function.comp_def, tokenCount_cons_blank hblank]
    | some kind =>
      have hcount := add_tokenCount_cons (ne_blank_of_tokenKind? hkind) i
      rw [tokensOf_cons hkind, closeFrom?]
      simp only [tokenKind_eq_mark_iff hls hkind hopening, tokenKind_eq_mark_iff hls hkind hclosing]
      -- a closing mark ends the group or one inside; what else there is leaves it open
      by_cases hclose : l.kind = .mark closing
      · have hopen : l.kind ≠ .mark opening := by
          rw [hclose]
          simpa using Ne.symm hne
        rw [if_neg hopen, if_pos hclose]
        cases depth with
        | zero =>
          rw [splitClose_cons_zero hclose]
          rfl
        | succ depth =>
          rw [if_neg (by omega), Nat.add_sub_cancel, hrest, splitClose_cons_succ hclose, Option.map_map]
          simp only [Function.comp_def, hcount]
      · rw [if_neg hclose, splitClose_cons_of_ne hclose, Option.map_map]
        simp only [Function.comp_def, hcount]
        split_ifs
        · exact hrest _ _ _
        · exact hrest _ _ _

/-- A group is closed by the token of the mark at which the reader cuts. -/
theorem matching?_tokens {opening closing : Char} (hopening : isAscii opening) (hclosing : isAscii closing)
    (hne : opening ≠ closing) {l : Lexeme} (hall : all = front ++ l :: ls) (hl : l.kind = .mark opening)
    (hls : PlainMarks ls) :
    matching? (tokensOf 0 all) opening closing (tokenCount front) =
      (splitClose opening closing 0 ls).map fun split => tokenCount (front ++ l :: split.1) := by
  have hkind : tokenKind? l.kind = some (.mark opening.toUInt8) := by
    rw [hl]
    rfl
  rw [matching?, drop_tokens hall, tokensOf_cons hkind, closeFrom?, if_pos rfl,
    closeFrom?_tokensOf hopening hclosing hne hls]
  simp only [tokenCount_append_cons (ne_blank_of_tokenKind? hkind)]

/-- The scanner finds the start of a body where the reader does. -/
theorem bodyFrom?_tokensOf (hls : PlainMarks ls) (depth i pos : Nat) :
    bodyFrom? depth i (tokensOf pos ls) =
      (splitBody depth ls).map fun split => i + tokenCount split.1 := by
  induction ls generalizing depth i pos with
  | nil => rfl
  | cons l ls ih =>
    have hrest := ih hls.tail
    cases hkind : tokenKind? l.kind with
    | none =>
      have hblank := tokenKind?_eq_none_iff.1 hkind
      rw [tokensOf_cons_blank hblank, hrest, splitBody_cons_of_not (by simp [hblank]), if_neg (by simp [hblank]),
        if_neg (by simp [hblank]), Option.map_map]
      simp only [Function.comp_def, tokenCount_cons_blank hblank]
    | some kind =>
      have hcount := add_tokenCount_cons (ne_blank_of_tokenKind? hkind) i
      rw [tokensOf_cons hkind, bodyFrom?]
      simp only [Bool.or_eq_true, Bool.and_eq_true, decide_eq_true_eq,
        tokenKind_eq_mark_iff hls hkind (show isAscii '(' by decide),
        tokenKind_eq_mark_iff hls hkind (show isAscii ')' by decide),
        tokenKind_eq_mark_iff hls hkind (show isAscii '[' by decide),
        tokenKind_eq_mark_iff hls hkind (show isAscii ']' by decide),
        tokenKind_eq_mark_iff hls hkind (show isAscii '{' by decide)]
      by_cases hbody : l.kind = .mark '{' ∧ depth = 0
      · obtain ⟨hbrace, rfl⟩ := hbody
        rw [if_neg (by simp [hbrace]), if_neg (by simp [hbrace]), if_pos ⟨hbrace, rfl⟩,
          splitBody_cons_of_open hbrace]
        rfl
      · rw [splitBody_cons_of_not hbody, Option.map_map]
        simp only [Function.comp_def, hcount, if_neg hbody]
        split_ifs
        · exact hrest _ _ _
        · exact hrest _ _ _
        · exact hrest _ _ _

/-! ## The next code -/

/-- The next token that is no comment is that of the next code. -/
theorem findIdx?_tokensOf (pos : Nat) :
    (tokensOf pos ls).findIdx? (·.kind ≠ .comment) =
      if ls.dropWhile Lexeme.isTrivia = [] then none
      else some (tokenCount (ls.takeWhile Lexeme.isTrivia)) := by
  induction ls generalizing pos with
  | nil => rfl
  | cons l ls ih =>
    cases hkind : tokenKind? l.kind with
    | none =>
      have hblank := tokenKind?_eq_none_iff.1 hkind
      have htrivia : l.isTrivia = true := by simp [Lexeme.isTrivia, hblank]
      rw [tokensOf_cons_blank hblank, ih, List.dropWhile_cons_of_pos htrivia, List.takeWhile_cons_of_pos htrivia,
        tokenCount_cons_blank hblank]
    | some kind =>
      have hne := ne_blank_of_tokenKind? hkind
      rw [tokensOf_cons hkind, List.findIdx?_cons]
      -- a comment makes a token that is passed; code makes the one that is found
      by_cases hcomment : l.kind = .comment
      · have htrivia : l.isTrivia = true := by simp [Lexeme.isTrivia, hcomment]
        rw [hcomment] at hkind
        obtain rfl := Option.some.inj hkind
        rw [ih, List.dropWhile_cons_of_pos htrivia, List.takeWhile_cons_of_pos htrivia, tokenCount_cons hne]
        simp only [ne_eq, not_true_eq_false, decide_false, Bool.false_eq_true, if_false]
        split_ifs <;> rfl
      · have htrivia : ¬l.isTrivia = true := by simp [Lexeme.isTrivia, hcomment, hne]
        have hcode : kind ≠ .comment := by
          rintro rfl
          apply hcomment
          cases h : l.kind <;> rw [h] at hkind <;> first | rfl | cases hkind
        rw [List.dropWhile_cons_of_neg htrivia, List.takeWhile_cons_of_neg htrivia]
        simp [hcode]

/-- The scanner finds the next code where the reader does. -/
theorem codeFrom?_tokens (hall : all = front ++ ls) :
    codeFrom? (tokensOf 0 all) (tokenCount front) =
      if ls.dropWhile Lexeme.isTrivia = [] then none
      else some (tokenCount (front ++ ls.takeWhile Lexeme.isTrivia)) := by
  rw [codeFrom?, drop_tokens hall, findIdx?_tokensOf]
  split_ifs
  · rfl
  · rw [tokenCount_append]
    rfl

/-! ## The outline of a function -/

/-- Code makes tokens. -/
theorem exists_tokenKind? {l : Lexeme} (h : l.isTrivia = false) : ∃ kind, tokenKind? l.kind = some kind := by
  cases hkind : l.kind with
  | blank => simp [Lexeme.isTrivia, hkind] at h
  | comment | word | literal | mark => exact ⟨_, rfl⟩

/-- The next code stands behind white space and comments. -/
theorem eq_cons_of_dropWhile {l : Lexeme} {rest : List Lexeme} (h : ls.dropWhile Lexeme.isTrivia = l :: rest) :
    ls = ls.takeWhile Lexeme.isTrivia ++ l :: rest ∧ l.isTrivia = false := by
  constructor
  · rw [← h, List.takeWhile_append_dropWhile]
  · have hhead := List.head?_dropWhile_not Lexeme.isTrivia ls
    rw [h] at hhead
    simpa using hhead

/-- Behind a receiver stands code. -/
theorem isTrivia_of_splitReceiver? {receiver rest : List Lexeme} {name : Lexeme}
    (h : splitReceiver? ls = some (receiver, name :: rest)) : name.isTrivia = false := by
  rw [splitReceiver?] at h
  cases hdrop : ls.dropWhile Lexeme.isTrivia with
  | nil => simp [hdrop] at h
  | cons l behind =>
    simp only [hdrop] at h
    split_ifs at h with hopen
    · cases hsplit : splitClose '(' ')' 0 behind with
      | none => simp [hsplit] at h
      | some split =>
        simp only [hsplit, Option.bind_eq_bind, Option.bind_some, Option.pure_def, Option.some.injEq,
          Prod.mk.injEq] at h
        exact (eq_cons_of_dropWhile h.2).2
    · obtain ⟨-, heq⟩ := Prod.mk.inj (Option.some.inj h)
      obtain ⟨rfl, -⟩ := List.cons.inj heq
      exact (eq_cons_of_dropWhile hdrop).2

/-- The scanner looks for a name behind the receiver that the reader finds. -/
theorem nameFrom?_tokens (hall : all = front ++ ls) (hls : PlainMarks ls) :
    nameFrom? (tokensOf 0 all) (tokenCount front) =
      .ok ((splitReceiver? ls).bind fun (receiver, rest) =>
        if rest = [] then none else some (tokenCount (front ++ receiver))) := by
  rw [nameFrom?, codeFrom?_tokens hall, splitReceiver?]
  cases hdrop : ls.dropWhile Lexeme.isTrivia with
  | nil => rfl
  | cons l rest =>
    obtain ⟨hcut, hcode⟩ := eq_cons_of_dropWhile hdrop
    obtain ⟨kind, hkind⟩ := exists_tokenKind? hcode
    generalize ls.takeWhile Lexeme.isTrivia = space at hcut ⊢
    subst hcut
    have hplain := hls.of_append
    rw [← List.append_assoc] at hall
    rw [if_neg (List.cons_ne_nil l rest)]
    simp only [itemAt_tokens hall hkind, bind, Except.bind, pure, Except.pure,
      tokenKind_eq_mark_iff hplain hkind (show isAscii '(' by decide)]
    by_cases hopen : l.kind = .mark '('
    · rw [if_pos hopen, if_pos hopen, matching?_tokens (by decide) (by decide) (by decide) hall hopen hplain.tail]
      cases hsplit : splitClose '(' ')' 0 rest with
      | none => rfl
      | some split =>
        obtain ⟨inside, behind⟩ := split
        obtain ⟨close, rfl, hclose, -⟩ := splitClose_eq_some_iff.1 hsplit
        have hblank : close.kind ≠ .blank := by simp [hclose]
        have hnumber : tokenCount (front ++ space ++ l :: inside) + 1 =
            tokenCount (front ++ space ++ l :: inside ++ [close]) :=
          (tokenCount_append_cons hblank _ []).symm
        have hbehind : all = (front ++ space ++ l :: inside ++ [close]) ++ behind := by simp [hall]
        simp only [Option.map_some, Option.bind_some]
        rw [hnumber, codeFrom?_tokens hbehind]
        split_ifs
        · rfl
        · have hafter (after : List Lexeme) :
              tokenCount (front ++ space ++ l :: inside ++ [close] ++ after) =
                tokenCount (front ++ (space ++ l :: inside ++ ⟨.mark ')', [')']⟩ :: after)) := by
            rw [List.append_assoc _ [close], List.singleton_append, ← List.append_assoc front,
              ← List.append_assoc front]
            exact tokenCount_congr hblank (by simp) _ after
          rw [hafter]
    · rw [if_neg hopen, if_neg hopen]
      rfl

/-- The scanner finds the outline of what follows a name where the reader finds parameters and a body. -/
theorem outlineFrom?_tokens {name : Lexeme} (hall : all = front ++ name :: ls) (hname : name.isTrivia = false)
    (hls : PlainMarks ls) :
    outlineFrom? (tokensOf 0 all) (tokenCount front) =
      if name.kind = .word then
        (splitBody 0 ls).bind fun (parameters, rest) =>
          (splitClose '{' '}' 0 rest).map fun (body, _) =>
            { name := tokenCount front
              opening := tokenCount (front ++ name :: parameters)
              close := tokenCount (front ++ name :: parameters ++ markOf '{' :: body) }
      else none := by
  obtain ⟨kind, hkind⟩ := exists_tokenKind? hname
  have hword : kind = .word ↔ name.kind = .word := by
    cases h : name.kind <;> rw [h] at hkind <;> cases hkind <;> simp
  have hnumber (ms : List Lexeme) :
      tokenCount front + 1 + tokenCount ms = tokenCount (front ++ name :: ms) :=
    (tokenCount_append_cons (ne_blank_of_tokenKind? hkind) front ms).symm
  have hdrop : (tokensOf 0 all).drop (tokenCount front + 1) = tokensOf (extent (front ++ [name])) ls := by
    have hbehind : all = (front ++ [name]) ++ ls := by simp [hall]
    rw [← drop_tokens hbehind, ← hnumber]
    rfl
  rw [outlineFrom?, getElem?_tokens hall hkind, hdrop, bodyFrom?_tokensOf hls]
  delta guard
  by_cases h : name.kind = .word
  · simp only [hword, h, Option.bind_eq_bind, Option.bind_some, if_true, Option.pure_def]
    cases hbody : splitBody 0 ls with
    | none => rfl
    | some split =>
      obtain ⟨parameters, behind⟩ := split
      obtain ⟨opening, rfl, hopening, -⟩ := splitBody_eq_some_iff.1 hbody
      have hbehind : all = (front ++ name :: parameters) ++ opening :: behind := by simp [hall]
      simp only [Option.map_some, Option.bind_some, hnumber]
      rw [matching?_tokens (by decide) (by decide) (by decide) hbehind hopening hls.of_append.tail]
      cases splitClose '{' '}' 0 behind with
      | none => rfl
      | some split =>
        have hbrace : tokenCount (front ++ name :: parameters ++ opening :: split.1) =
            tokenCount (front ++ name :: parameters ++ markOf '{' :: split.1) :=
          tokenCount_congr (by simp [hopening]) (by simp [markOf]) _ split.1
        simp only [Option.map_some, Option.bind_some, hbrace]
  · simp only [hword, h, Option.bind_eq_bind, Option.bind_some, if_false]
    rfl

/-- The scanner looks for a function behind its keyword. -/
theorem outline?_tokens {func : Lexeme} (hall : all = front ++ func :: ls) (hfunc : func.isTrivia = false)
    (hls : PlainMarks ls) :
    outline? (tokensOf 0 all) (tokenCount front) =
      .ok ((splitReceiver? ls).bind fun (receiver, rest) =>
        if rest = [] then none
        else outlineFrom? (tokensOf 0 all) (tokenCount (front ++ func :: receiver))) := by
  obtain ⟨kind, hkind⟩ := exists_tokenKind? hfunc
  have hnumber : tokenCount front + 1 = tokenCount (front ++ [func]) :=
    (tokenCount_append_cons (ne_blank_of_tokenKind? hkind) front []).symm
  have hbehind : all = (front ++ [func]) ++ ls := by simp [hall]
  rw [outline?, hnumber, nameFrom?_tokens hbehind hls]
  cases splitReceiver? ls with
  | none => rfl
  | some split =>
    obtain ⟨receiver, rest⟩ := split
    have hlist : front ++ [func] ++ receiver = front ++ func :: receiver := by simp
    simp only [Except.map, Option.bind_some, hlist]
    split_ifs <;> rfl

/-- The outline of a declaration behind the lexemes `front`. -/
def Declaration.outline (d : Declaration) (front : List Lexeme) : Outline where
  name := tokenCount (front ++ funcWord :: d.receiver)
  opening := tokenCount (front ++ d.opening)
  close := tokenCount (front ++ d.opening ++ markOf '{' :: d.body)

/-- The scanner finds the outline of a declaration. -/
theorem outline?_of_valid {d : Declaration} (hd : d.Valid) {rest : List Lexeme}
    (hall : all = front ++ (d.lexemes ++ rest)) (hls : PlainMarks (d.tail ++ rest)) :
    outline? (tokensOf 0 all) (tokenCount front) = .ok (some (d.outline front)) := by
  have htail : d.tail ++ rest =
      d.receiver ++ d.name :: (d.parameters ++ markOf '{' :: (d.body ++ markOf '}' :: rest)) := by
    simp [Declaration.tail]
  have hbody : splitBody 0 (d.parameters ++ markOf '{' :: (d.body ++ markOf '}' :: rest)) =
      some (d.parameters, d.body ++ markOf '}' :: rest) :=
    splitBody_eq_some_iff.2 ⟨markOf '{', rfl, rfl, hd.parameters⟩
  have hclose : splitClose '{' '}' 0 (d.body ++ markOf '}' :: rest) = some (d.body, rest) :=
    splitClose_eq_some_iff.2 ⟨markOf '}', rfl, rfl, hd.body⟩
  rw [Declaration.lexemes, List.cons_append] at hall
  rw [outline?_tokens hall rfl hls]
  rw [htail] at hls hall ⊢
  have hname : all = (front ++ funcWord :: d.receiver) ++
      d.name :: (d.parameters ++ markOf '{' :: (d.body ++ markOf '}' :: rest)) := by simp [hall]
  -- each part is found where the declaration has it
  rw [splitReceiver?_append hd.receiver hd.name]
  simp only [Option.bind_some]
  rw [if_neg (List.cons_ne_nil _ _), outlineFrom?_tokens hname (word_not_isTrivia hd.name) hls.of_append.tail,
    if_pos hd.name, hbody]
  simp [hclose, Declaration.outline, Declaration.opening]

/-- Where the reader finds no function, the scanner finds no outline. -/
theorem outline?_of_none {func : Lexeme} (hall : all = front ++ func :: ls) (hfunc : func.isTrivia = false)
    (hshape : ∀ l ∈ ls, l.IsShaped) (hls : PlainMarks ls) (h : function? [] func ls = none) :
    outline? (tokensOf 0 all) (tokenCount front) = .ok none := by
  rw [outline?_tokens hall hfunc hls]
  rw [function?] at h
  cases hreceiver : splitReceiver? ls with
  | none => rfl
  | some split =>
    obtain ⟨receiver, rest⟩ := split
    cases rest with
    | nil => rfl
    | cons name rest =>
      obtain ⟨-, rfl⟩ := of_splitReceiver? hshape hreceiver
      have hname : all = (front ++ func :: receiver) ++ name :: rest := by simp [hall]
      simp only [Option.bind_some]
      have hcode := isTrivia_of_splitReceiver? hreceiver
      rw [if_neg (List.cons_ne_nil name rest), outlineFrom?_tokens hname hcode hls.of_append.tail]
      delta guard at h
      simp only [hreceiver, Option.bind_eq_bind, Option.bind_some, List.head?_cons, List.tail_cons] at h
      -- the name, the body or its end is missing, as it is for the reader
      by_cases hword : name.kind = .word
      · simp only [hword, if_true, Option.pure_def, Option.bind_some] at h
        rw [if_pos hword]
        cases hbody : splitBody 0 rest with
        | none => rfl
        | some split =>
          obtain ⟨parameters, behind⟩ := split
          simp only [hbody, Option.bind_some] at h
          cases hclose : splitClose '{' '}' 0 behind with
          | none =>
            simp only [Option.bind_some, hclose]
            rfl
          | some split => simp [hclose] at h
      · rw [if_neg hword]

end

end Scaffold.Go
