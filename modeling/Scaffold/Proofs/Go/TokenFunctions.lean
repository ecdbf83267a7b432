import Scaffold.Proofs.Go.TokenGroups
import Scaffold.Proofs.Go.Tiling

/-!
# Functions by tokens

The byte scanner goes over tokens by their numbers and keeps the positions of the last group of comments, and
the reader of files goes over lexemes and keeps the comments with the white space between and behind them. Only
white space that a token shows to be too long lets the scanner forget a group: `Held` says which positions stand
for which comments. One step over a lexeme keeps both together (`functionsFrom_cons`), and at a declaration the
scanner cuts out the parts of the function (`functionsFrom_declaration`). So along the tiles of a file the
scanner finds their functions, without a fault (`functionsFrom_tiled`).
-/

namespace Scaffold.Go

open Text

variable {front rest lead : List Lexeme} {l : Lexeme} {kind : TokenKind} {s : Text} {group : Option Span}

/-! ## Comments above a function -/

/-- The positions that the scanner keeps behind the lexemes `front`, and the comments that the reader keeps: none;
or comments up to here; or comments with white space behind them, which the reader drops if a blank line is
part of it. -/
inductive Held : (front : List Lexeme) → (group : Option Span) → (lead : List Lexeme) → Prop
  | none (front : List Lexeme) : Held front none []
  | comments {c : Lexeme} (hc : c.kind = .comment) (before lead : List Lexeme) :
      Held (before ++ (lead ++ [c])) (some ⟨extent before, extent (before ++ (lead ++ [c]))⟩) (lead ++ [c])
  | blank {c b : Lexeme} (hc : c.kind = .comment) (hb : b.kind = .blank) (before lead : List Lexeme) :
      Held (before ++ (lead ++ [c]) ++ [b]) (some ⟨extent before, extent (before ++ (lead ++ [c]))⟩)
        (if isTight b then lead ++ [c] ++ [b] else [])

/-- White space is not followed by white space. -/
theorem ne_blank_of_blank {b : Lexeme} (hlex : lex s = front ++ b :: l :: rest) (hb : b.kind = .blank) :
    l.kind ≠ .blank := by
  intro hl
  have hreads := reads_lex s
  rw [hlex] at hreads
  obtain ⟨-, ⟨c, tail, -, hshape⟩, hbehind, -⟩ := reads_append.1 hreads
  have hgaps := hbehind.blank_chars hl
  obtain ⟨d, tail', htext, -⟩ := hbehind
  have hgap := hgaps d (by simp [htext])
  rw [hb] at hshape
  cases hshape with
  | blank hc htail hs =>
    have hnot := hs d (by simp [htext])
    rw [hgap] at hnot
    cases hnot

/-- White space is trimmed away. -/
theorem trim_of_blank {t : Text} (h : ∀ c ∈ t, isBlank c) : trim t = [] := by
  have hstart : trimStart t = [] := by
    have happend := trimStart_append_of_blank h []
    rwa [List.append_nil] at happend
  rw [trim, hstart]
  rfl

/-- What stands in front of the cursor is cut out of the file. -/
theorem cut_behind {mid : List Lexeme} (hlex : lex s = front ++ mid ++ rest) :
    cut s (extent front) (extent (front ++ mid)) = .ok (textOf mid) := by
  rw [extent_append]
  exact cut_lexemes (by rw [hlex, List.append_assoc])

/-- A comment is attached over a gap with one newline at most. -/
theorem isAttached_of_cut {stop start : Nat} {gap : Text} (hcut : cut s stop start = .ok gap)
    (hgap : ∀ c ∈ gap, isGap c) : isAttached s stop start = .ok (decide (gap.count '\n' ≤ 1)) := by
  have htrim : trim gap = [] := trim_of_blank fun c hc => isBlank_of_isGap (hgap c hc)
  rw [isAttached, hcut]
  simp only [bind, Except.bind, pure, Except.pure, htrim, decide_true, Bool.true_and]

/-- Comments up to the cursor belong to what follows. -/
theorem isAttached_comments (hlex : lex s = front ++ rest) :
    isAttached s (extent front) (extent front) = .ok true := by
  have hcut := cut_behind (show lex s = front ++ [] ++ rest by simpa using hlex)
  rw [List.append_nil] at hcut
  rw [isAttached_of_cut hcut (by simp)]
  rfl

/-- Comments with white space behind them belong to what follows unless a blank line is part of it. -/
theorem isAttached_blank {b : Lexeme} (hb : b.kind = .blank) (hlex : lex s = front ++ [b] ++ rest) :
    isAttached s (extent front) (extent (front ++ [b])) = .ok (isTight b) := by
  have hcut := cut_behind hlex
  have hreads := reads_lex s
  rw [hlex, List.append_assoc] at hreads
  obtain ⟨-, hblank, -⟩ := reads_append.1 hreads
  rw [textOf_cons, textOf_nil, List.append_nil] at hcut
  rw [isAttached_of_cut hcut (hblank.blank_chars hb)]
  rfl

/-- The comments without the white space behind them. -/
theorem commentText?_comments {c : Lexeme} (hc : c.kind = .comment) (lead : List Lexeme) :
    commentText? (lead ++ [c]) = some (textOf (lead ++ [c])) := by
  simp [commentText?, hc]

/-- White space below a comment is not part of it. -/
theorem commentText?_blank {c b : Lexeme} (hb : b.kind = .blank) (lead : List Lexeme) :
    commentText? (lead ++ [c] ++ [b]) = some (textOf (lead ++ [c])) := by
  simp [commentText?, hb]

/-- The scanner finds the comments above what follows, and where they begin. -/
theorem attachedGroup_of_held (held : Held front group lead) (hlex : lex s = front ++ rest) :
    ∃ leading gap, attachedGroup s group (extent front) = .ok leading ∧
      cutSpan? s leading = .ok (commentText? lead) ∧ front = gap ++ lead ∧
      leading.elim (extent front) Span.start = extent gap := by
  -- by what the scanner holds: nothing, comments, or comments with white space below
  cases held with
  | none => exact ⟨none, front, rfl, rfl, (List.append_nil front).symm, rfl⟩
  | @comments c hc before lead =>
    refine ⟨some ⟨extent before, extent (before ++ (lead ++ [c]))⟩, before, ?_, ?_, rfl, rfl⟩
    · rw [attachedGroup, isAttached_comments hlex]
      rfl
    · rw [cutSpan?, cut_behind hlex, commentText?_comments hc]
      rfl
  | @blank c b hc hb before lead =>
    have hattached := isAttached_blank hb hlex
    by_cases htight : isTight b
    · refine ⟨some ⟨extent before, extent (before ++ (lead ++ [c]))⟩, before, ?_, ?_, ?_, rfl⟩
      · rw [attachedGroup, hattached, htight]
        rfl
      · rw [List.append_assoc] at hlex
        rw [cutSpan?, cut_behind hlex, if_pos htight, commentText?_blank hb]
        rfl
      · rw [if_pos htight]
        simp
    · refine ⟨none, _, ?_, ?_, ?_, rfl⟩
      · rw [attachedGroup, hattached, eq_false_of_ne_true htight]
        rfl
      · rw [if_neg htight]
        rfl
      · rw [if_neg htight, List.append_nil]

/-- A comment outside groups joins the comments above it, or starts a group of its own. -/
theorem withComment_of_held (held : Held front group lead) (hlex : lex s = front ++ l :: rest)
    (hl : l.kind = .comment) :
    ∃ comments, withComment s group ⟨.comment, extent front, extent front + byteSize l.text⟩ = .ok comments ∧
      Held (front ++ [l]) (some comments) (lead ++ [l]) := by
  have hstop : extent front + byteSize l.text = extent (front ++ [l]) := by
    rw [extent_append, extent_cons, extent_nil, Nat.add_zero]
  rw [hstop]
  cases held with
  | none => exact ⟨_, rfl, .comments hl front []⟩
  | @comments c hc before lead =>
    refine ⟨⟨extent before, extent (before ++ (lead ++ [c]) ++ [l])⟩, ?_, ?_⟩
    · rw [withComment, isAttached_comments hlex]
      rfl
    · rw [List.append_assoc before]
      exact .comments hl before (lead ++ [c])
  | @blank c b hc hb before lead =>
    have hattached := isAttached_blank hb hlex
    by_cases htight : isTight b
    · refine ⟨⟨extent before, extent (before ++ (lead ++ [c]) ++ [b] ++ [l])⟩, ?_, ?_⟩
      · rw [withComment, hattached, htight]
        rfl
      · have hlist : before ++ (lead ++ [c]) ++ [b] ++ [l] = before ++ (lead ++ [c] ++ [b] ++ [l]) := by simp
        rw [if_pos htight, hlist]
        exact .comments hl before (lead ++ [c] ++ [b])
    · refine ⟨⟨extent (before ++ (lead ++ [c]) ++ [b]), extent (before ++ (lead ++ [c]) ++ [b] ++ [l])⟩, ?_, ?_⟩
      · rw [withComment, hattached, eq_false_of_ne_true htight]
        rfl
      · rw [if_neg htight]
        exact .comments hl _ []

/-- White space comes behind the comments above it. -/
theorem Held.append_blank (held : Held front group lead) (hlex : lex s = front ++ l :: rest)
    (hl : l.kind = .blank) :
    Held (front ++ [l]) group (if lead = [] || !isTight l then [] else lead ++ [l]) := by
  cases held with
  | none => exact .none _
  | @comments c hc before lead =>
    have hcarry : (if lead ++ [c] = [] || !isTight l then [] else lead ++ [c] ++ [l]) =
        if isTight l then lead ++ [c] ++ [l] else [] := by
      cases isTight l <;> simp
    rw [hcarry]
    exact .blank hc hl before lead
  | @blank c b hc hb before lead =>
    rw [List.append_assoc _ [b]] at hlex
    exact absurd hl (ne_blank_of_blank hlex hb)

/-! ## One step -/

/-- One turn of the scanner. -/
theorem functionsFrom_eq {tokens : List Token} {i : Nat} {t : Token} (h : itemAt tokens i = .ok t)
    (group : Option Span) (depth : Nat) :
    functionsFrom s tokens group depth i =
      match t.kind with
      | .comment =>
        if depth = 0 then
          (withComment s group t).bind fun comments => functionsFrom s tokens (some comments) depth (i + 1)
        else functionsFrom s tokens none depth (i + 1)
      | .word =>
        (functionAt s tokens group depth i).bind fun found =>
          match found with
          | none => functionsFrom s tokens none depth (i + 1)
          | some (f, close) => (functionsFrom s tokens none depth (close + 1)).map (f :: ·)
      | .literal => functionsFrom s tokens none depth (i + 1)
      | .mark b => functionsFrom s tokens none (depthBehind depth b) (i + 1) := by
  have hi : i < tokens.length := by
    by_contra hnot
    rw [itemAt, dif_neg hnot] at h
    cases h
  obtain rfl : tokens[i] = t := by
    rw [itemAt, dif_pos hi] at h
    exact Except.ok.inj h
  rw [functionsFrom, dif_pos hi]
  cases tokens[i].kind with
  | comment => rfl
  | literal => rfl
  | mark b => rfl
  | word =>
    dsimp only
    split
    · next h => rw [h]; rfl
    · next h => rw [h]; rfl
    · next f close h =>
      rw [h]
      simp only [Except.bind, bind]
      cases functionsFrom s tokens none depth (close + 1) <;> rfl

/-- Behind a mark the scanner counts the open groups that the reader counts. -/
theorem depthBehind_eq {c : Char} (hc : isAscii c) (hl : l.kind = .mark c) (depth : Nat) :
    depthBehind depth c.toUInt8 = deeper depth l := by
  have heq {d : Char} (hd : isAscii d) : c.toUInt8 = d.toUInt8 ↔ c = d :=
    eq_toUInt8_iff hd (utf8EncodeChar_of_ascii hc)
  rw [depthBehind, deeper, hl, isSome_closing?_mark, isClosing_mark]
  simp only [heq (show isAscii '{' by decide), heq (show isAscii '(' by decide),
    heq (show isAscii '[' by decide), heq (show isAscii '}' by decide), heq (show isAscii ')' by decide),
    heq (show isAscii ']' by decide)]

/-- A word at which the reader finds no function is none for the scanner. -/
theorem functionAt_eq_none {depth : Nat} (held : Held front group lead) (hlex : lex s = front ++ l :: rest)
    (hl : l.kind = .word) (h : depth = 0 → l = funcWord → function? [] funcWord rest = none) :
    functionAt s (tokensOf 0 (lex s)) group depth (tokenCount front) = .ok none := by
  have hkind : tokenKind? l.kind = some .word := by rw [hl]; rfl
  rw [functionAt, itemAt_tokens hlex hkind]
  simp only [bind, Except.bind, isFunctionKeyword, tokenText_lexeme hlex .word]
  -- inside brackets, and at other words, the scanner does not look for a function
  by_cases hdepth : depth = 0
  swap
  · rw [if_neg hdepth]
    rfl
  rw [if_pos hdepth]
  by_cases hfunc : l.text = "func".toList
  swap
  · simp only [Except.map, decide_eq_false hfunc]
    rfl
  obtain rfl : l = funcWord := by
    obtain ⟨kind, text⟩ := l
    obtain rfl : kind = .word := hl
    obtain rfl : text = "func".toList := hfunc
    rfl
  obtain ⟨leading, gap, hleading, -, -, -⟩ := attachedGroup_of_held held hlex
  have hreads := reads_lex s
  rw [hlex] at hreads
  obtain ⟨-, -, hrest⟩ := reads_append.1 hreads
  have houtline := outline?_of_none hlex rfl hrest.isShaped hrest.plainMarks (h hdepth rfl)
  simp only [Except.map, decide_eq_true hfunc, if_true, hleading, houtline]
  rfl

/-- One step over a lexeme at which no function is found. -/
theorem functionsFrom_cons {depth : Nat} (held : Held front group lead) (hlex : lex s = front ++ l :: rest)
    (h : depth = 0 → l = funcWord → function? [] funcWord rest = none) :
    ∃ group', Held (front ++ [l]) group' (carry depth lead l) ∧
      functionsFrom s (tokensOf 0 (lex s)) group depth (tokenCount front) =
        functionsFrom s (tokensOf 0 (lex s)) group' (deeper depth l) (tokenCount (front ++ [l])) := by
  have hnext {kind : TokenKind} (hkind : tokenKind? l.kind = some kind) :
      tokenCount front + 1 = tokenCount (front ++ [l]) :=
    (tokenCount_append_cons (ne_blank_of_tokenKind? hkind) front []).symm
  -- white space makes no token; of the tokens, only comments and `func` outside groups matter
  cases hl : l.kind with
  | blank =>
    have hnumber : tokenCount (front ++ [l]) = tokenCount front := by
      rw [tokenCount_append, tokenCount_cons_blank hl]
      rfl
    refine ⟨group, ?_, ?_⟩
    · rw [carry, hl]
      exact held.append_blank hlex hl
    · rw [hnumber, deeper_of_isTrivia (by simp [Lexeme.isTrivia, hl])]
  | comment =>
    have hkind : tokenKind? l.kind = some .comment := by rw [hl]; rfl
    rw [functionsFrom_eq (itemAt_tokens hlex hkind), deeper_of_isTrivia (by simp [Lexeme.isTrivia, hl]),
      hnext hkind, carry, hl]
    by_cases hdepth : depth = 0
    · obtain ⟨comments, hcomments, hheld⟩ := withComment_of_held held hlex hl
      refine ⟨some comments, ?_, ?_⟩
      · simp only [if_pos hdepth]
        exact hheld
      · simp only [if_pos hdepth, hcomments]
        rfl
    · refine ⟨none, ?_, ?_⟩
      · simp only [if_neg hdepth]
        exact .none _
      · simp only [if_neg hdepth]
  | literal =>
    have hkind : tokenKind? l.kind = some .literal := by rw [hl]; rfl
    refine ⟨none, ?_, ?_⟩
    · rw [carry, hl]
      exact .none _
    · rw [functionsFrom_eq (itemAt_tokens hlex hkind), hnext hkind, deeper, hl]
      rfl
  | mark c =>
    have hkind : tokenKind? l.kind = some (.mark c.toUInt8) := by rw [hl]; rfl
    have hreads := reads_lex s
    have hascii : isAscii c := hreads.plainMarks l (by simp [hlex]) c hl
    refine ⟨none, ?_, ?_⟩
    · rw [carry, hl]
      exact .none _
    · rw [functionsFrom_eq (itemAt_tokens hlex hkind), hnext hkind, ← depthBehind_eq hascii hl]
  | word =>
    have hkind : tokenKind? l.kind = some .word := by rw [hl]; rfl
    refine ⟨none, ?_, ?_⟩
    · rw [carry, hl]
      exact .none _
    · rw [functionsFrom_eq (itemAt_tokens hlex hkind), hnext hkind, functionAt_eq_none held hlex hl h, deeper, hl]
      rfl

/-- The scanner passes over a gap. -/
theorem functionsFrom_append {depth : Nat} {ls : List Lexeme} (held : Held front group lead)
    (hlex : lex s = front ++ (ls ++ rest)) (hquiet : Quiet depth ls rest) :
    ∃ group', Held (front ++ ls) group' (leadFrom depth lead ls) ∧
      functionsFrom s (tokensOf 0 (lex s)) group depth (tokenCount front) =
        functionsFrom s (tokensOf 0 (lex s)) group' (depthFrom depth ls) (tokenCount (front ++ ls)) := by
  induction ls generalizing front group lead depth with
  | nil =>
    rw [List.append_nil]
    exact ⟨group, held, rfl⟩
  | cons l ls ih =>
    obtain ⟨group', held', hstep⟩ := functionsFrom_cons held hlex hquiet.1
    have hlex' : lex s = (front ++ [l]) ++ (ls ++ rest) := by simp [hlex]
    obtain ⟨group'', held'', hsteps⟩ := ih held' hlex' hquiet.2
    have hlist : front ++ [l] ++ ls = front ++ l :: ls := by simp
    rw [hlist] at held'' hsteps
    exact ⟨group'', held'', hstep.trans hsteps⟩

/-! ## Functions -/

/-- The position behind a lexeme. -/
theorem extent_concat (front : List Lexeme) (l : Lexeme) :
    extent front + byteSize l.text = extent (front ++ [l]) := by
  rw [extent_append, extent_cons, extent_nil, Nat.add_zero]

/-- What the scanner makes of a declaration. -/
def Declaration.scanned (d : Declaration) (comment : Option Text) (span : Span) : ScannedFunction where
  name := d.name.text
  leadingComment := comment
  signature := textOf (d.opening ++ [markOf '{'])
  body := textOf d.body
  text := textOf d.lexemes
  nameRange := ⟨extent (funcWord :: d.receiver), extent (funcWord :: d.receiver) + byteSize d.name.text⟩
  span := span

theorem distance_add (start i : Nat) : distance start (start + i) = .ok i := by
  rw [distance, if_pos (Nat.le_add_right start i), Nat.add_sub_cancel_left]

/-- The scanner cuts the parts of a declaration out of the file. -/
theorem functionOf_declaration {d : Declaration} {leading : Option Span} {comment : Option Text}
    (hname : d.name.kind = .word) (hlex : lex s = front ++ (d.lexemes ++ rest))
    (hcomment : cutSpan? s leading = .ok comment) :
    functionOf s (tokensOf 0 (lex s)) (tokenCount front) leading (d.outline front) =
      .ok (d.scanned comment ⟨leading.elim (extent front) Span.start, extent (front ++ d.lexemes)⟩) := by
  -- where the tokens of the outline stand in the file
  have hkeywordAt : lex s = front ++ funcWord :: (d.tail ++ rest) := by simp [hlex, Declaration.lexemes]
  have hnameAt : lex s = (front ++ funcWord :: d.receiver) ++
      d.name :: (d.parameters ++ markOf '{' :: (d.body ++ [markOf '}']) ++ rest) := by
    simp [hlex, Declaration.lexemes, Declaration.tail]
  have hopeningAt : lex s = (front ++ d.opening) ++ markOf '{' :: (d.body ++ [markOf '}'] ++ rest) := by
    simp [hlex, Declaration.lexemes_eq]
  have hcloseAt : lex s = (front ++ d.opening ++ markOf '{' :: d.body) ++ markOf '}' :: rest := by
    simp [hlex, Declaration.lexemes_eq]
  have hnameKind : tokenKind? d.name.kind = some .word := by rw [hname]; rfl
  have hkeyword := itemAt_tokens hkeywordAt (show tokenKind? funcWord.kind = some .word from rfl)
  have hname := itemAt_tokens hnameAt hnameKind
  have hopening :=
    itemAt_tokens hopeningAt (show tokenKind? (markOf '{').kind = some (.mark '{'.toUInt8) from rfl)
  have hclose := itemAt_tokens hcloseAt (show tokenKind? (markOf '}').kind = some (.mark '}'.toUInt8) from rfl)
  have hsignature : cut s (extent front) (extent (front ++ d.opening) + byteSize (markOf '{').text) =
      .ok (textOf (d.opening ++ [markOf '{'])) := by
    rw [extent_concat, List.append_assoc]
    have hlist : lex s = front ++ (d.opening ++ [markOf '{']) ++ (d.body ++ [markOf '}'] ++ rest) := by
      simp [hopeningAt]
    exact cut_behind hlist
  have hbody : cut s (extent (front ++ d.opening) + byteSize (markOf '{').text)
      (extent (front ++ d.opening ++ markOf '{' :: d.body)) = .ok (textOf d.body) := by
    have hlist : front ++ d.opening ++ markOf '{' :: d.body = front ++ d.opening ++ [markOf '{'] ++ d.body := by
      simp
    rw [hlist, extent_concat]
    have hcut : lex s = front ++ d.opening ++ [markOf '{'] ++ d.body ++ markOf '}' :: rest := by
      simp [hcloseAt]
    exact cut_behind hcut
  have hstop : extent (front ++ d.opening ++ markOf '{' :: d.body) + byteSize (markOf '}').text =
      extent (front ++ d.lexemes) := by
    rw [extent_concat, Declaration.lexemes_eq]
    simp
  have htext : cut s (extent front) (extent (front ++ d.lexemes)) = .ok (textOf d.lexemes) :=
    cut_behind (show lex s = front ++ d.lexemes ++ rest by simp [hlex])
  have hstart : extent (front ++ funcWord :: d.receiver) = extent front + extent (funcWord :: d.receiver) :=
    extent_append front _
  rw [functionOf]
  simp only [Declaration.outline, hkeyword, hname, hopening, hclose, tokenText_lexeme hnameAt, hcomment,
    hsignature, hbody, hstop, htext, bind, Except.bind, pure, Except.pure]
  simp only [hstart, Nat.add_assoc, distance_add, Declaration.scanned]

/-- At a declaration outside groups the scanner finds the function with the comments above it, and goes on
behind it. -/
theorem functionsFrom_declaration {d : Declaration} (hd : d.Valid) (held : Held front group lead)
    (hlex : lex s = front ++ (d.lexemes ++ rest)) :
    ∃ gap, front = gap ++ lead ∧
      functionsFrom s (tokensOf 0 (lex s)) group 0 (tokenCount front) =
        (functionsFrom s (tokensOf 0 (lex s)) none 0 (tokenCount (front ++ d.lexemes))).map
          (d.scanned (commentText? lead) ⟨extent gap, extent (front ++ d.lexemes)⟩ :: ·) := by
  have hkeywordAt : lex s = front ++ funcWord :: (d.tail ++ rest) := by simp [hlex, Declaration.lexemes]
  have hkeyword := itemAt_tokens hkeywordAt (show tokenKind? funcWord.kind = some .word from rfl)
  have hplain : PlainMarks (funcWord :: (d.tail ++ rest)) := by
    have hall := (reads_lex s).plainMarks
    rw [hkeywordAt] at hall
    exact hall.of_append
  obtain ⟨leading, gap, hleading, hcomment, hgap, hstart⟩ := attachedGroup_of_held held hkeywordAt
  have houtline := outline?_of_valid hd hlex hplain.tail
  have hfunction := functionOf_declaration hd.name hlex hcomment
  have hclose : (d.outline front).close + 1 = tokenCount (front ++ d.lexemes) := by
    have hlist : front ++ d.lexemes = (front ++ d.opening ++ markOf '{' :: d.body) ++ [markOf '}'] := by
      simp [Declaration.lexemes_eq]
    rw [hlist]
    exact (tokenCount_append_cons (by decide) _ []).symm
  have hfound : functionAt s (tokensOf 0 (lex s)) group 0 (tokenCount front) =
      .ok (some (d.scanned (commentText? lead) ⟨extent gap, extent (front ++ d.lexemes)⟩,
        (d.outline front).close)) := by
    rw [functionAt, hkeyword]
    simp only [bind, Except.bind, isFunctionKeyword, tokenText_lexeme hkeywordAt .word, if_true, Except.map]
    rw [show funcWord.text = "func".toList from rfl, decide_eq_true rfl, if_pos rfl]
    simp only [hleading, houtline, Option.mapM_some, hfunction, hstart]
    rfl
  refine ⟨gap, hgap, ?_⟩
  rw [functionsFrom_eq hkeyword]
  simp only [hfound, Except.bind, hclose]

/-! ## Tiles -/

/-- What the scanner makes of a tile that begins at a position. -/
def Tile.scanned (t : Tile) (pos : Nat) : ScannedFunction :=
  t.declaration.scanned (commentText? t.lead) ⟨pos + extent t.gap, pos + extent t.lexemes⟩

/-- What the scanner makes of tiles of which the first begins at a position. -/
def scannedTiles : (pos : Nat) → List Tile → List ScannedFunction
  | _, [] => []
  | pos, t :: ts => t.scanned pos :: scannedTiles (pos + extent t.lexemes) ts

/-- Behind the last token there is no function. -/
theorem functionsFrom_length (s : Text) (tokens : List Token) (group : Option Span) (depth : Nat) :
    functionsFrom s tokens group depth tokens.length = .ok [] := by
  rw [functionsFrom, dif_neg (Nat.lt_irrefl _)]

/-- The scanner goes through without a fault, and it finds the functions of the tiles. -/
theorem functionsFrom_tiled {ts : List Tile} {last : List Lexeme} (h : Tiling ts last)
    (hlex : lex s = front ++ tiled ts last) :
    functionsFrom s (tokensOf 0 (lex s)) none 0 (tokenCount front) = .ok (scannedTiles (extent front) ts) := by
  -- The scanner passes the gap of a tile, takes the function, and goes on with the other tiles.
  induction ts generalizing front with
  | nil =>
    have hlex' : lex s = front ++ (last ++ []) := by simpa [tiled] using hlex
    obtain ⟨group, -, hpass⟩ := functionsFrom_append (.none front) hlex' h
    have hend : tokenCount (front ++ last) = (tokensOf 0 (lex s)).length := by
      rw [length_tokensOf, hlex', List.append_nil]
    rw [hpass, hend]
    exact functionsFrom_length s _ group _
  | cons t ts ih =>
    obtain ⟨⟨hvalid, hquiet, hdepth, hlead⟩, hts⟩ := h
    have hlex' : lex s = front ++ ((t.gap ++ t.lead) ++ (t.declaration.lexemes ++ tiled ts last)) := by
      rw [hlex, tiled_cons]
    obtain ⟨group, held, hpass⟩ := functionsFrom_append (.none front) hlex' hquiet
    rw [hdepth] at hpass
    rw [hlead] at held
    have hdeclaration : lex s = (front ++ (t.gap ++ t.lead)) ++ (t.declaration.lexemes ++ tiled ts last) := by
      rw [hlex', List.append_assoc front]
    obtain ⟨gap, hgap, hfound⟩ := functionsFrom_declaration hvalid held hdeclaration
    obtain rfl : front ++ t.gap = gap := by
      rw [← List.append_assoc] at hgap
      exact List.append_cancel_right hgap
    have hbehind : front ++ (t.gap ++ t.lead) ++ t.declaration.lexemes = front ++ t.lexemes := by
      simp [Tile.lexemes]
    have hrest : lex s = (front ++ t.lexemes) ++ tiled ts last := by
      rw [hdeclaration, ← hbehind, List.append_assoc _ t.declaration.lexemes]
    rw [hpass, hfound, hbehind, ih hts hrest, scannedTiles, Tile.scanned, extent_append, extent_append]
    rfl

end Scaffold.Go
