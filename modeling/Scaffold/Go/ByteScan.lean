import Scaffold.Go.File
import Scaffold.Schema.ByteScan

/-!
# Go files by byte positions

A Go file is read as bytes. The scanner cuts it into tokens, each with the positions where it begins and ends;
white space makes no token. The reader goes over the tokens by their numbers and cuts texts out of the file
between two positions. A token can be looked up only under a number that there is, a cut must lie inside the
file and must not go through a character, and a distance is a number that cannot be negative: where one of
these is broken the reader stops with a `Fault`. `scan` is the whole reader; what it finds are the parts that
`File.parse` finds.
-/

namespace Scaffold.Go

open Text
open Schema (Fault byteAt positionOf?)

/-! ## Tokens -/

/-- What a token is. -/
inductive TokenKind where
  | word
  | literal
  | comment
  /-- Any other byte. -/
  | mark (b : UInt8)
  deriving DecidableEq, Repr

/-- A token with the positions where it begins and ends. -/
structure Token where
  kind : TokenKind
  start : Nat
  stop : Nat
  deriving DecidableEq, Repr

/-- White space between tokens. -/
def isGapByte (b : UInt8) : Bool :=
  b = ' '.toUInt8 || b = '\t'.toUInt8 || b = '\n'.toUInt8 || b = '\r'.toUInt8

/-- A byte of a word: a letter or digit of ASCII, an underscore, or a byte of a character outside ASCII. -/
def isWordByte (b : UInt8) : Bool :=
  128 ≤ b || ('0'.toUInt8 ≤ b && b ≤ '9'.toUInt8) || ('A'.toUInt8 ≤ b && b ≤ 'Z'.toUInt8) ||
    ('a'.toUInt8 ≤ b && b ≤ 'z'.toUInt8) || b = '_'.toUInt8

def wordEnd (bytes : List UInt8) (i : Nat) : Nat :=
  if h : i < bytes.length then if isWordByte bytes[i] then wordEnd bytes (i + 1) else i else i
termination_by bytes.length - i

/-- Where a string or a rune ends whose opening quote has been read. One that is not closed ends in front of
the newline. -/
def quoteEnd (bytes : List UInt8) (quote : UInt8) (i : Nat) : Nat :=
  if h : i < bytes.length then
    if bytes[i] = '\\'.toUInt8 then quoteEnd bytes quote (i + 2)
    else if bytes[i] = '\n'.toUInt8 then i
    else if bytes[i] = quote then i + 1
    else quoteEnd bytes quote (i + 1)
  else bytes.length
termination_by bytes.length - i

/-- The first position from `i` on at which some bytes occur. -/
def findFrom? (bytes : List UInt8) (i : Nat) (p : List UInt8) : Option Nat :=
  if i ≤ bytes.length then (positionOf? p (bytes.drop i)).map (i + ·) else none

/-- The kind of the token that begins with the byte `b` at position `i`, if one does, and where it ends. -/
def tokenOf (bytes : List UInt8) (i : Nat) (b : UInt8) : Option TokenKind × Nat :=
  if isGapByte b then (none, i + 1)
  else if b = '/'.toUInt8 && bytes[i + 1]? = some '/'.toUInt8 then
    (some .comment, (findFrom? bytes i ['\n'.toUInt8]).getD bytes.length)
  else if b = '/'.toUInt8 && bytes[i + 1]? = some '*'.toUInt8 then
    (some .comment, (findFrom? bytes (i + 2) ['*'.toUInt8, '/'.toUInt8]).elim bytes.length (· + 2))
  else if b = '"'.toUInt8 || b = '\''.toUInt8 then (some .literal, quoteEnd bytes b (i + 1))
  else if b = '`'.toUInt8 then
    (some .literal, (findFrom? bytes (i + 1) ['`'.toUInt8]).elim bytes.length (· + 1))
  else if isWordByte b then (some .word, wordEnd bytes i)
  else (some (.mark b), i + 1)

def nextToken (bytes : List UInt8) (i : Nat) : Except Fault (Option TokenKind × Nat) :=
  (byteAt bytes i).map (tokenOf bytes i)

theorem le_wordEnd (bytes : List UInt8) (i : Nat) : i ≤ wordEnd bytes i := by
  fun_induction wordEnd bytes i <;> omega

theorem le_quoteEnd (bytes : List UInt8) (quote : UInt8) (i : Nat) :
    min i bytes.length ≤ quoteEnd bytes quote i := by
  fun_induction quoteEnd bytes quote i <;> omega

theorem le_of_findFrom? {bytes p : List UInt8} {i j : Nat} (h : findFrom? bytes i p = some j) : i ≤ j := by
  unfold findFrom? at h
  split at h
  · obtain ⟨k, -, rfl⟩ := Option.map_eq_some_iff.1 h
    exact Nat.le_add_right i k
  · cases h

/-- The newline that ends a line comment is not where the comment begins. -/
theorem lt_of_findFrom?_newline {bytes : List UInt8} {i j : Nat} (hi : i < bytes.length)
    (hslash : bytes[i] = '/'.toUInt8) (h : findFrom? bytes i ['\n'.toUInt8] = some j) : i < j := by
  unfold findFrom? at h
  have hnot : ¬List.isPrefixOf ['\n'.toUInt8] ('/'.toUInt8 :: bytes.drop (i + 1)) := by
    simp [List.isPrefixOf]
    decide
  rw [if_pos (Nat.le_of_lt hi), List.drop_eq_getElem_cons hi, hslash, positionOf?, if_neg hnot] at h
  simp only [Option.map_map, Option.map_eq_some_iff, Function.comp_apply] at h
  obtain ⟨k, -, rfl⟩ := h
  omega

/-- A token has at least one byte. -/
theorem lt_tokenOf {bytes : List UInt8} {i : Nat} (hi : i < bytes.length) :
    i < (tokenOf bytes i bytes[i]).2 := by
  have hpast {o : Option Nat} (d : Nat) (ho : ∀ p ∈ o, i < p + d) :
      i < o.elim bytes.length (· + d) := by
    cases o with
    | none => exact hi
    | some p => exact ho p rfl
  fun_cases tokenOf bytes i bytes[i] with
  | case1 => omega
  | case2 hgap hline =>
    simp only [Bool.and_eq_true, decide_eq_true_eq] at hline
    cases hfind : findFrom? bytes i ['\n'.toUInt8] with
    | none => exact hi
    | some p => exact lt_of_findFrom?_newline hi hline.1 hfind
  | case3 =>
    apply hpast 2
    intro p hp
    have hle := le_of_findFrom? hp
    omega
  | case4 =>
    have hle := le_quoteEnd bytes bytes[i] (i + 1)
    omega
  | case5 =>
    apply hpast 1
    intro p hp
    have hle := le_of_findFrom? hp
    omega
  | case6 _ _ _ _ _ hword =>
    rw [wordEnd, dif_pos hi, if_pos hword]
    have hle := le_wordEnd bytes (i + 1)
    omega
  | case7 => omega

theorem lt_of_nextToken {bytes : List UInt8} {i stop : Nat} {kind : Option TokenKind}
    (h : nextToken bytes i = .ok (kind, stop)) : i < stop := by
  unfold nextToken byteAt at h
  split at h
  · next hi =>
    have hlt := lt_tokenOf hi
    rw [Except.ok.inj h] at hlt
    exact hlt
  · cases h

/-- The tokens from a position on. -/
def tokensFrom (bytes : List UInt8) (i : Nat) : Except Fault (List Token) :=
  if i < bytes.length then
    match hnext : nextToken bytes i with
    | .error fault => .error fault
    | .ok (kind, stop) =>
      have : i < stop := lt_of_nextToken hnext
      (tokensFrom bytes stop).map fun tokens => kind.elim tokens fun kind => ⟨kind, i, stop⟩ :: tokens
  else .ok []
termination_by bytes.length - i

def tokenize (s : Text) : Except Fault (List Token) := tokensFrom (bytesOf s) 0

/-! ## Cuts -/

/-- What stands between two positions. -/
structure Span where
  start : Nat
  stop : Nat
  deriving DecidableEq, Repr

/-- What stands in front of a position between two characters, and what behind it. -/
def splitBytes? : (i : Nat) → Text → Option (Text × Text)
  | 0, s => some ([], s)
  | _ + 1, [] => none
  | i + 1, c :: s =>
    if byteSize [c] ≤ i + 1 then
      (splitBytes? (i + 1 - byteSize [c]) s).map fun (front, rest) => (c :: front, rest)
    else none

/-- The text between two positions. -/
def cut (s : Text) (start stop : Nat) : Except Fault Text :=
  if ¬(start ≤ stop ∧ stop ≤ byteSize s) then .error .range
  else
    match (splitBytes? stop s).bind fun (front, _) => splitBytes? start front with
    | some (_, inside) => .ok inside
    | none => .error .boundary

def tokenText (s : Text) (t : Token) : Except Fault Text := cut s t.start t.stop

/-- The text between two positions, if there are any. -/
def cutSpan? (s : Text) : Option Span → Except Fault (Option Text)
  | none => .ok none
  | some span => (cut s span.start span.stop).map some

/-- The item with a number. -/
def itemAt {α : Type} (items : List α) (i : Nat) : Except Fault α :=
  if h : i < items.length then .ok items[i] else .error .range

/-- How far a position lies behind another. -/
def distance (start i : Nat) : Except Fault Nat :=
  if start ≤ i then .ok (i - start) else .error .underflow

/-! ## Groups of tokens -/

/-- The number of the mark that closes a group, where the first token has the number `i`. -/
def closeFrom? (opening closing : UInt8) : (depth i : Nat) → List Token → Option Nat
  | _, _, [] => none
  | depth, i, t :: ts =>
    if t.kind = .mark opening then closeFrom? opening closing (depth + 1) (i + 1) ts
    else if t.kind = .mark closing then
      if depth - 1 = 0 then some i else closeFrom? opening closing (depth - 1) (i + 1) ts
    else closeFrom? opening closing depth (i + 1) ts

/-- The number of the mark that closes the group whose opening mark has the number `i`. -/
def matching? (tokens : List Token) (opening closing : Char) (i : Nat) : Option Nat :=
  closeFrom? opening.toUInt8 closing.toUInt8 0 i (tokens.drop i)

/-- The number of the first brace that opens outside parentheses and brackets. -/
def bodyFrom? : (depth i : Nat) → List Token → Option Nat
  | _, _, [] => none
  | depth, i, t :: ts =>
    if t.kind = .mark '('.toUInt8 || t.kind = .mark '['.toUInt8 then bodyFrom? (depth + 1) (i + 1) ts
    else if t.kind = .mark ')'.toUInt8 || t.kind = .mark ']'.toUInt8 then bodyFrom? (depth - 1) (i + 1) ts
    else if t.kind = .mark '{'.toUInt8 && depth = 0 then some i
    else bodyFrom? depth (i + 1) ts

/-- The number of the first token from `i` on that is no comment. -/
def codeFrom? (tokens : List Token) (i : Nat) : Option Nat :=
  ((tokens.drop i).findIdx? (·.kind ≠ .comment)).map (i + ·)

theorem le_of_closeFrom? {opening closing : UInt8} {depth i close : Nat} {ts : List Token}
    (h : closeFrom? opening closing depth i ts = some close) : i ≤ close := by
  fun_induction closeFrom? opening closing depth i ts <;> grind

theorem le_of_bodyFrom? {depth i opening : Nat} {ts : List Token}
    (h : bodyFrom? depth i ts = some opening) : i ≤ opening := by
  fun_induction bodyFrom? depth i ts <;> grind

theorem le_of_codeFrom? {tokens : List Token} {i code : Nat} (h : codeFrom? tokens i = some code) :
    i ≤ code := by
  obtain ⟨k, -, rfl⟩ := Option.map_eq_some_iff.1 h
  exact Nat.le_add_right i k

/-! ## The header -/

/-- Where the imports end that follow a clause which ends at `stop`. The tokens that are no comments come with
their numbers. An import that is not finished spoils the header, unless nothing at all follows its
keyword. -/
def importsEnd (s : Text) (tokens : List Token) : (stop : Nat) → (code : List (Token × Nat)) →
    Except Fault (Option Nat)
  | stop, [] => .ok (some stop)
  | stop, (token, _) :: rest => do
    if token.kind ≠ .word then return some stop
    let word ← tokenText s token
    if word ≠ "import".toList then return some stop
    match rest with
    | [] => return some stop
    | (next, i) :: behind =>
      if next.kind = .mark '('.toUInt8 then
        match matching? tokens '(' ')' i with
        | none => return none
        | some close =>
          let last ← itemAt tokens close
          -- what the list of imports holds has numbers up to that of its end
          importsEnd s tokens last.stop (behind.dropWhile (·.2 ≤ close))
      else
        match ((next, i) :: behind).take 2 |>.findIdx? (·.1.kind = .literal) with
        | none => return none
        | some k =>
          let path ← itemAt ((next, i) :: behind) k
          importsEnd s tokens path.1.stop (((next, i) :: behind).drop (k + 1))
termination_by _ code => code.length
decreasing_by
  · have := (behind.dropWhile_sublist (·.2 ≤ close)).length_le
    simp only [List.length_cons]
    omega
  · simp only [List.length_drop, List.length_cons]
    omega

/-- Where the header ends, and the name of the package. -/
def headerEnd (s : Text) (tokens : List Token) : Except Fault (Option (Nat × Text)) :=
  match tokens.zipIdx.filter (·.1.kind ≠ .comment) with
  | (keyword, _) :: (name, _) :: rest => do
    if keyword.kind ≠ .word then return none
    let word ← tokenText s keyword
    if word ≠ "package".toList || name.kind ≠ .word then return none
    let package ← tokenText s name
    let stop? ← importsEnd s tokens name.stop rest
    return stop?.map (·, package)
  | _ => .ok none

/-! ## Functions -/

/-- A function as the reader finds it in the bytes of a file. -/
structure ScannedFunction where
  name : Text
  leadingComment : Option Text
  signature : Text
  body : Text
  text : Text
  /-- Where the name stands in the text. -/
  nameRange : Span
  /-- Where the function stands in the file, with the comment above it. -/
  span : Span
  deriving DecidableEq, Repr

/-- The declaration under another name. -/
def ScannedFunction.renamed (f : ScannedFunction) (name : Text) : Except Fault Text := do
  let front ← cut f.text 0 f.nameRange.start
  let rest ← cut f.text f.nameRange.stop (byteSize f.text)
  return front ++ name ++ rest

/-- Whether a comment that ends at `stop` belongs to what begins at `start`: no blank line. -/
def isAttached (s : Text) (stop start : Nat) : Except Fault Bool := do
  let gap ← cut s stop start
  return trim gap = [] && gap.count '\n' ≤ 1

/-- The group of comments that a comment closes. -/
def withComment (s : Text) (group : Option Span) (t : Token) : Except Fault Span :=
  match group with
  | none => .ok ⟨t.start, t.stop⟩
  | some comments => do
    let attached ← isAttached s comments.stop t.start
    return if attached then ⟨comments.start, t.stop⟩ else ⟨t.start, t.stop⟩

/-- The group of comments that belongs to what begins at `start`. -/
def attachedGroup (s : Text) (group : Option Span) (start : Nat) : Except Fault (Option Span) :=
  match group with
  | none => .ok none
  | some comments => do
    let attached ← isAttached s comments.stop start
    return if attached then some comments else none

/-- The numbers of the tokens that a function is told by. -/
structure Outline where
  name : Nat
  /-- The brace in front of the body. -/
  opening : Nat
  /-- The brace behind the body. -/
  close : Nat
  deriving DecidableEq, Repr

/-- The number of the token in the place of the name, where what follows the keyword begins at `i`. -/
def nameFrom? (tokens : List Token) (i : Nat) : Except Fault (Option Nat) :=
  match codeFrom? tokens i with
  | none => .ok none
  | some next => do
    let first ← itemAt tokens next
    if first.kind = .mark '('.toUInt8 then
      return (matching? tokens '(' ')' next).bind fun close => codeFrom? tokens (close + 1)
    else return some next

/-- The outline of the function whose name has the number `name`, if it is one. -/
def outlineFrom? (tokens : List Token) (name : Nat) : Option Outline := do
  let token ← tokens[name]?
  guard (token.kind = .word)
  let opening ← bodyFrom? 0 (name + 1) (tokens.drop (name + 1))
  let close ← matching? tokens '{' '}' opening
  return ⟨name, opening, close⟩

/-- The outline of the function whose keyword has the number `func`. -/
def outline? (tokens : List Token) (func : Nat) : Except Fault (Option Outline) :=
  (nameFrom? tokens (func + 1)).map fun name? => name?.bind (outlineFrom? tokens)

/-- The function with an outline. -/
def functionOf (s : Text) (tokens : List Token) (func : Nat) (leading : Option Span) (o : Outline) :
    Except Fault ScannedFunction := do
  let keyword ← itemAt tokens func
  let name ← itemAt tokens o.name
  let opening ← itemAt tokens o.opening
  let close ← itemAt tokens o.close
  let nameText ← tokenText s name
  let comment ← cutSpan? s leading
  let signature ← cut s keyword.start opening.stop
  let body ← cut s opening.stop close.start
  let text ← cut s keyword.start close.stop
  let nameStart ← distance keyword.start name.start
  let nameStop ← distance keyword.start name.stop
  return {
    name := nameText, leadingComment := comment, signature, body, text
    nameRange := ⟨nameStart, nameStop⟩
    span := ⟨leading.elim keyword.start Span.start, close.stop⟩ }

theorem lt_of_outlineFrom? {tokens : List Token} {name : Nat} {o : Outline}
    (h : outlineFrom? tokens name = some o) : name < o.close := by
  unfold outlineFrom? at h
  obtain ⟨token, -, h⟩ := Option.bind_eq_some_iff.1 h
  obtain ⟨_, -, h⟩ := Option.bind_eq_some_iff.1 h
  obtain ⟨opening, hopening, h⟩ := Option.bind_eq_some_iff.1 h
  obtain ⟨close, hclose, heq⟩ := Option.bind_eq_some_iff.1 h
  obtain rfl := Option.some.inj heq
  have hle := le_of_bodyFrom? hopening
  have hle' := le_of_closeFrom? hclose
  show name < close
  omega

theorem le_of_nameFrom? {tokens : List Token} {i name : Nat} (h : nameFrom? tokens i = .ok (some name)) :
    i ≤ name := by
  unfold nameFrom? at h
  split at h
  · cases h
  · next next hnext =>
    have hle := le_of_codeFrom? hnext
    cases hfirst : itemAt tokens next with
    | error => simp [hfirst, bind, Except.bind] at h
    | ok first =>
      simp only [hfirst, bind, Except.bind, pure, Except.pure] at h
      split at h
      · obtain ⟨close, hclose, hcode⟩ := Option.bind_eq_some_iff.1 (Except.ok.inj h)
        have hle' := le_of_closeFrom? hclose
        have hle'' := le_of_codeFrom? hcode
        omega
      · obtain rfl := Option.some.inj (Except.ok.inj h)
        exact hle

theorem lt_of_outline? {tokens : List Token} {func : Nat} {o : Outline}
    (h : outline? tokens func = .ok (some o)) : func < o.close := by
  unfold outline? at h
  cases hname : nameFrom? tokens (func + 1) with
  | error => simp [hname, Except.map] at h
  | ok name? =>
    rw [hname] at h
    obtain ⟨name, rfl, ho⟩ := Option.bind_eq_some_iff.1 (Except.ok.inj h)
    have hle := le_of_nameFrom? hname
    have hlt := lt_of_outlineFrom? ho
    omega

/-- Whether a token is the keyword of functions, outside groups. -/
def isFunctionKeyword (s : Text) (depth : Nat) (t : Token) : Except Fault Bool :=
  if depth = 0 then (tokenText s t).map fun word => decide (word = "func".toList) else .ok false

/-- The function whose keyword has the number `i`, if one stands there, and the number of its last token.
`group` are the comments above, and `depth` groups are open. -/
def functionAt (s : Text) (tokens : List Token) (group : Option Span) (depth i : Nat) :
    Except Fault (Option (ScannedFunction × Nat)) := do
  let token ← itemAt tokens i
  if ← isFunctionKeyword s depth token then
    let leading ← attachedGroup s group token.start
    let outline ← outline? tokens i
    outline.mapM fun o => do
      let f ← functionOf s tokens i leading o
      return (f, o.close)
  else return none

/-- A step that comes through has a result, and so does what follows it. -/
theorem of_bind_eq_ok {α β : Type} {x : Except Fault α} {f : α → Except Fault β} {b : β}
    (h : x >>= f = .ok b) : ∃ a, x = .ok a ∧ f a = .ok b := by
  cases x with
  | error => cases h
  | ok a => exact ⟨a, rfl, h⟩

theorem lt_of_functionAt {s : Text} {tokens : List Token} {group : Option Span} {depth i close : Nat}
    {f : ScannedFunction} (h : functionAt s tokens group depth i = .ok (some (f, close))) : i < close := by
  obtain ⟨token, -, h⟩ := of_bind_eq_ok h
  obtain ⟨keyword, -, h⟩ := of_bind_eq_ok h
  split at h
  · obtain ⟨leading, -, h⟩ := of_bind_eq_ok h
    obtain ⟨outline, houtline, h⟩ := of_bind_eq_ok h
    cases outline with
    | none => cases h
    | some o =>
      obtain ⟨found, hfound, h⟩ := of_bind_eq_ok h
      obtain ⟨g, -, hpair⟩ := of_bind_eq_ok hfound
      obtain rfl := Except.ok.inj hpair
      obtain ⟨-, rfl⟩ := Prod.mk.inj (Option.some.inj (Except.ok.inj h))
      exact lt_of_outline? houtline
  · cases h

/-- The number of open groups behind a mark. -/
def depthBehind (depth : Nat) (b : UInt8) : Nat :=
  if b = '{'.toUInt8 || b = '('.toUInt8 || b = '['.toUInt8 then depth + 1
  else if b = '}'.toUInt8 || b = ')'.toUInt8 || b = ']'.toUInt8 then depth - 1
  else depth

/-- The functions from the token with the number `i` on. `group` are the comments above, and `depth` groups
are open. -/
def functionsFrom (s : Text) (tokens : List Token) (group : Option Span) (depth i : Nat) :
    Except Fault (List ScannedFunction) :=
  if hi : i < tokens.length then
    match tokens[i].kind with
    | .comment =>
      if depth = 0 then do
        let comments ← withComment s group tokens[i]
        functionsFrom s tokens (some comments) depth (i + 1)
      else functionsFrom s tokens none depth (i + 1)
    | .word =>
      match hword : functionAt s tokens group depth i with
      | .error fault => .error fault
      | .ok none => functionsFrom s tokens none depth (i + 1)
      | .ok (some (f, close)) => do
        let fs ← functionsFrom s tokens none depth (close + 1)
        return f :: fs
    | .literal => functionsFrom s tokens none depth (i + 1)
    | .mark b => functionsFrom s tokens none (depthBehind depth b) (i + 1)
  else .ok []
termination_by tokens.length - i
decreasing_by
  all_goals first
    | omega
    | have := lt_of_functionAt hword
      omega

/-! ## Files -/

/-- The text between the cursor and what begins at `start`; none is cut out if that begins in front of the
cursor, as a function in the header does. -/
def gapBetween (s : Text) (cursor start : Nat) : Except Fault Text :=
  if start < cursor then .ok [] else cut s cursor start

/-- The texts between functions, from the position `cursor` on. -/
def gapsBetween (s : Text) : (cursor : Nat) → List Span → Except Fault (List Text)
  | cursor, [] => (gapBetween s cursor (byteSize s)).map fun last => [last]
  | cursor, f :: fs => do
    let gap ← gapBetween s cursor f.start
    let gaps ← gapsBetween s (max cursor f.stop) fs
    return gap :: gaps

/-- A file as the reader finds it in its bytes. -/
structure ScannedFile where
  header : Option Text
  package : Option Text
  functions : List ScannedFunction
  declarations : List Text
  deriving DecidableEq, Repr

/-- Reads the file that a text is. -/
def scan (s : Text) : Except Fault ScannedFile := do
  let tokens ← tokenize s
  let header ← headerEnd s tokens
  let headerText ← cutSpan? s (header.map fun (stop, _) => ⟨0, stop⟩)
  let functions ← functionsFrom s tokens none 0 0
  let gaps ← gapsBetween s (header.elim 0 (·.1)) (functions.map (·.span))
  return {
    header := headerText, package := header.map (·.2), functions
    declarations := (gaps.map trim).filter (· ≠ []) }

end Scaffold.Go
