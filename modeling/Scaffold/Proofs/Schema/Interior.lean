import Mathlib.Data.Option.Basic
import Scaffold.Proofs.Text.Cutting
import Scaffold.Proofs.Text.Scanning
import Scaffold.Schema.TypeBlock

/-!
# Interiors of type blocks

An interior is written in *bits*: characters of tokens, white space, commas, and whole comments,
quotations and block strings. If a reader can tell the bits apart (`AreRead`), or at least goes
from one to the next (`AreClosedBefore`), then the block closes behind them (`closeBlock_written`,
`closeBlock_written_append`).
-/

namespace Scaffold.Schema

open Text

/-- A piece of an interior, as a reader tells them apart. -/
inductive Bit where
  /-- A character of a token. -/
  | solid (c : Char)
  | blank (c : Char)
  | comma
  /-- A comment, without the newline that ends it. -/
  | comment (text : Text)
  /-- A description, or any other text between double quotes. -/
  | quoted (text : Text)
  /-- A block string. -/
  | block (text : Text)
  deriving DecidableEq, Repr

namespace Bit

/-- A bit as it is written. -/
def text : Bit → Text
  | solid c => [c]
  | blank c => [c]
  | comma => [',']
  | comment t => '#' :: t
  | quoted t => '"' :: t ++ ['"']
  | block t => blockQuotes ++ t ++ blockQuotes

/-- What a bit leaves when documentation is taken out. -/
def plain : Bit → Text
  | solid c => [c]
  | blank c => [c]
  | comma => [',']
  | _ => []

def isBlock : Bit → Bool
  | block _ => true
  | _ => false

def isQuoted : Bit → Bool
  | quoted _ => true
  | _ => false

def isComment : Bit → Bool
  | comment _ => true
  | _ => false

/-- How many braces deep the text is behind a bit. A brace that closes nothing has no depth. -/
def depth? (depth : Nat) : Bit → Option Nat
  | solid c =>
    if c = '{' then some (depth + 1)
    else if c = '}' then if depth = 0 then none else some (depth - 1)
    else some depth
  | _ => some depth

end Bit

/-- Whether each backslash has a character behind it, which it takes along. -/
def escapesWhole : Text → Bool
  | [] => true
  | ['\\'] => false
  | '\\' :: _ :: s => escapesWhole s
  | _ :: s => escapesWhole s

/-- Whether a bit is read as what it is when `after` follows it. -/
def Bit.IsRead (after : Text) : Bit → Prop
  | solid c => isBlank c = false ∧ c ≠ ',' ∧ c ≠ '#' ∧ c ≠ '"'
  | blank c => isBlank c
  | comma => True
  | comment t => (∀ c ∈ t, c ≠ '\n' ∧ c ≠ '"') ∧ after.head? = some '\n'
  | quoted t => (∀ c ∈ t, c ≠ '\n' ∧ c ≠ '"') ∧ escapesWhole t ∧ after.head? ≠ some '"'
  | block t => '"' ∉ t

/-- Whether a text between double quotes ends at the quote behind it: all quotes in it are escaped, and
it stays on its line. -/
def isDescription : Text → Bool
  | [] => true
  | ['\\'] => false
  | '\\' :: c :: s => c ≠ '\n' && isDescription s
  | c :: s => c ≠ '"' && c ≠ '\n' && isDescription s

/-- Whether a reader who is at the start of a bit goes on behind it, when `after` follows it. -/
def Bit.IsClosed (after : Text) : Bit → Prop
  | solid c | blank c => c ≠ '#' ∧ c ≠ '"'
  | comma => True
  | comment t => '\n' ∉ t ∧ ∀ c ∈ after.head?, c = '\n'
  | quoted t => isDescription t ∧ (t = [] → after.head? ≠ some '"')
  | block t => cutAt? blockQuotes (t ++ blockQuotes) = some (t, [])

/-- Bits as they are written. -/
def written (bits : List Bit) : Text := bits.flatMap Bit.text

@[simp] theorem written_nil : written [] = [] := rfl

@[simp] theorem written_cons (b : Bit) (bits : List Bit) :
    written (b :: bits) = b.text ++ written bits := rfl

@[simp] theorem written_append (bits bits' : List Bit) :
    written (bits ++ bits') = written bits ++ written bits' := List.flatMap_append

/-- Whether all bits are read as what they are. -/
def AreRead : List Bit → Prop
  | [] => True
  | b :: bits => b.IsRead (written bits) ∧ AreRead bits

@[simp] theorem areRead_nil : AreRead [] := trivial

@[simp] theorem areRead_cons {b : Bit} {bits : List Bit} :
    AreRead (b :: bits) ↔ b.IsRead (written bits) ∧ AreRead bits := Iff.rfl

/-- Each bit of those that are read is read. -/
theorem exists_isRead {bits : List Bit} (h : AreRead bits) : ∀ b ∈ bits, ∃ after, b.IsRead after := by
  induction bits with
  | nil => simp
  | cons b bits ih => exact List.forall_mem_cons.2 ⟨⟨_, h.1⟩, ih h.2⟩

/-- Whether the reader goes from bit to bit when `after` follows them. -/
def AreClosedBefore (after : Text) : List Bit → Prop
  | [] => True
  | b :: bits => b.IsClosed (written bits ++ after) ∧ AreClosedBefore after bits

/-- How many braces deep the text is behind some bits. -/
def depthAfter? (depth : Nat) (bits : List Bit) : Option Nat := bits.foldlM Bit.depth? depth

/-- The depth behind bits is counted from the depth in front of them. -/
theorem depthAfter?_append (depth : Nat) (bits bits' : List Bit) :
    depthAfter? depth (bits ++ bits') = (depthAfter? depth bits).bind (depthAfter? · bits') :=
  List.foldlM_append

/-! ## Documentation at a cursor -/

/-- White space neither opens nor closes anything. -/
theorem isBlank_brace {c : Char} (h : isBlank c) : c ≠ '{' ∧ c ≠ '}' ∧ c ≠ '#' ∧ c ≠ '"' := by
  refine ⟨?_, ?_, ?_, ?_⟩ <;> (rintro rfl; revert h; decide)

/-- Text on one line and without quotes is a description, if its last character is not escaped. -/
theorem isDescription_of_escapesWhole {t : Text} (hchars : ∀ c ∈ t, c ≠ '\n' ∧ c ≠ '"')
    (h : escapesWhole t) : isDescription t := by
  fun_induction isDescription t with
  | case1 => rfl
  | case2 => exact absurd h Bool.false_ne_true
  | case3 c t ih =>
    have hrest := ih (fun d hd => hchars d (by simp [hd])) h
    simp [(hchars c (by simp)).1, hrest]
  | case4 c t hlone hescape ih =>
    obtain ⟨hnewline, hquote⟩ := hchars c List.mem_cons_self
    rw [escapesWhole.eq_4 _ _ hlone hescape] at h
    have hrest := ih (fun d hd => hchars d (List.mem_cons_of_mem c hd)) h
    simp [hnewline, hquote, hrest]

/-- What is read as what it is, is closed. -/
theorem Bit.IsRead.isClosed {b : Bit} {after : Text} (h : b.IsRead after) : b.IsClosed after := by
  cases b with
  | solid c => exact ⟨h.2.2.1, h.2.2.2⟩
  | blank c => exact (isBlank_brace h).2.2
  | comma => trivial
  | comment t =>
    obtain ⟨hchars, hnewline⟩ := h
    exact ⟨fun hmem => (hchars _ hmem).1 rfl, by simp [hnewline]⟩
  | quoted t => exact ⟨isDescription_of_escapesWhole h.1 h.2.1, fun _ => h.2.2⟩
  | block t =>
    have hcut := cutAt?_append_of_notMem h "\"\"".toList []
    rwa [List.append_nil] at hcut

/-- An ordinary character does not end a description. -/
theorem descriptionRest_cons {c : Char} (hbackslash : c ≠ '\\') (hquote : c ≠ '"') (hnewline : c ≠ '\n')
    (s : Text) : descriptionRest (c :: s) = descriptionRest s := by
  rw [descriptionRest.eq_6] <;> simp_all

/-- A character that is neither a backslash at the end nor one with a character behind it is none. -/
theorem ne_backslash {c : Char} {s : Text} (hlone : c = '\\' → s = [] → False)
    (hescape : ∀ d t, c = '\\' → s = d :: t → False) : c ≠ '\\' := by
  rintro rfl
  cases s with
  | nil => exact hlone rfl rfl
  | cons d t => exact hescape d t rfl rfl

/-- A description ends at the quote behind it. -/
theorem descriptionRest_append {t : Text} (h : isDescription t) (s : Text) :
    descriptionRest (t ++ '"' :: s) = s := by
  fun_induction isDescription t with
  | case1 => rfl
  | case2 => exact absurd h Bool.false_ne_true
  | case3 c t ih =>
    rw [Bool.and_eq_true] at h
    exact ih h.2
  | case4 c t hlone hescape ih =>
    simp only [Bool.and_eq_true, decide_eq_true_eq] at h
    obtain ⟨⟨hquote, hnewline⟩, hrest⟩ := h
    have hbackslash := ne_backslash hlone hescape
    rw [List.cons_append, descriptionRest_cons hbackslash hquote hnewline]
    exact ih hrest

/-- The opening quote of a quotation does not open a block string. -/
theorem after?_blockQuotes_quoted {t after : Text} (h : (Bit.quoted t).IsClosed after) :
    after? blockQuotes ('"' :: t ++ '"' :: after) = none := by
  obtain ⟨hdescription, hafter⟩ := h
  cases t with
  | nil =>
    cases after with
    | nil => rfl
    | cons c s =>
      have hc : '"' ≠ c := fun h => hafter rfl (by rw [← h]; rfl)
      simp [blockQuotes, after?, hc]
  | cons c t =>
    have hc : '"' ≠ c := by
      rintro rfl
      simp [isDescription] at hdescription
    simp [blockQuotes, after?, hc]

/-- A bit of documentation is read as a whole. -/
theorem docRest?_append {b : Bit} {after : Text} (h : b.IsClosed after)
    (hdoc : b.isComment ∨ b.isQuoted ∨ b.isBlock) : docRest? (b.text ++ after) = some after := by
  cases b with
  | solid | blank | comma => simp [Bit.isComment, Bit.isQuoted, Bit.isBlock] at hdoc
  | comment t =>
    obtain ⟨hchars, hafter⟩ := h
    exact congrArg some (dropWhile_ne_append hchars hafter)
  | quoted t =>
    have hnone := after?_blockQuotes_quoted h
    have htext : (Bit.quoted t).text ++ after = '"' :: (t ++ '"' :: after) := by simp [Bit.text]
    rw [List.cons_append] at hnone
    rw [htext, docRest?, hnone]
    exact congrArg some (descriptionRest_append h.1 after)
  | block t =>
    have htext : (Bit.block t).text ++ after = blockQuotes ++ (t ++ blockQuotes ++ after) := by
      simp [Bit.text]
    have hends : cutAt? blockQuotes (t ++ blockQuotes ++ []) = some (t, []) := by
      rwa [List.append_nil]
    have hcut := cutAt?_congr hends after
    have hcons : blockQuotes ++ (t ++ blockQuotes ++ after) =
        '"' :: ("\"\"".toList ++ (t ++ blockQuotes ++ after)) := rfl
    rw [htext, hcons, docRest?, ← hcons, after?_append]
    simp only [hcut, Option.elim_some]

/-- Documentation begins with `#` or a quote. -/
theorem docRest?_eq_none {c : Char} (hcomment : c ≠ '#') (hquote : c ≠ '"') (s : Text) :
    docRest? (c :: s) = none := by
  unfold docRest?
  split <;> simp_all

/-- Three quotes open a block string, one quote a description. -/
theorem docRest?_quote_eq (s : Text) : docRest? ('"' :: s) =
    some (match after? blockQuotes ('"' :: s) with
      | some inside => ((cutAt? blockQuotes inside).map Prod.snd).getD []
      | none => descriptionRest s) := by
  simp only [docRest?]
  cases after? blockQuotes ('"' :: s) with
  | none => rfl
  | some inside =>
    dsimp only
    cases cutAt? blockQuotes inside <;> rfl

/-! ## Where the block closes -/

/-- What belongs to documentation is copied. -/
private theorem closeBlock_length (t s : Text) (depth : Nat) :
    closeBlock t.length depth (t ++ s) = t ++ closeBlock 0 depth s := by
  induction t with
  | nil => rfl
  | cons c t ih => exact congrArg (c :: ·) ih

/-- Documentation in a block is kept as it is. -/
theorem closeBlock_documentation {t s : Text} (hne : t ≠ [])
    (h : docRest? (t ++ s) = some s) (depth : Nat) :
    closeBlock 0 depth (t ++ s) = t ++ closeBlock 0 depth s := by
  obtain ⟨c, t, rfl⟩ := List.exists_cons_of_ne_nil hne
  rw [List.cons_append] at h ⊢
  have hlength : (t ++ s).length - s.length = t.length := by simp
  rw [closeBlock.eq_def]
  simp only [h, hlength, closeBlock_length, List.cons_append]

/-- A character that leaves the block open is kept. -/
theorem closeBlock_brace {c : Char} (hcomment : c ≠ '#') (hquote : c ≠ '"')
    {depth depth' : Nat} (h : Bit.depth? depth (.solid c) = some depth') (s : Text) :
    closeBlock 0 depth (c :: s) = c :: closeBlock 0 depth' s := by
  rw [closeBlock.eq_def]
  simp only [docRest?_eq_none hcomment hquote]
  simp only [Bit.depth?] at h
  split_ifs at h with hopen hclose hzero
  · obtain rfl := Option.some.inj h
    simp only [if_pos hopen]
  · obtain rfl := Option.some.inj h
    obtain ⟨depth, rfl⟩ := Nat.exists_eq_succ_of_ne_zero hzero
    simp only [if_neg hopen, if_pos hclose, Nat.succ_sub_one]
  · obtain rfl := Option.some.inj h
    simp only [if_neg hopen, if_neg hclose]

/-- A bit is read in front of more text, unless a quote comes first. -/
theorem Bit.IsRead.append {b : Bit} {s t : Text} (h : b.IsRead s) (ht : t.head? ≠ some '"') :
    b.IsRead (s ++ t) := by
  cases b with
  | solid | blank | comma | block => exact h
  | comment =>
    obtain ⟨hchars, hhead⟩ := h
    exact ⟨hchars, by simp [List.head?_append, hhead]⟩
  | quoted =>
    obtain ⟨hchars, hescapes, hhead⟩ := h
    refine ⟨hchars, hescapes, ?_⟩
    cases s with
    | nil => exact ht
    | cons => exact hhead

/-- Bits that are read are closed in front of text, unless a quote comes first. -/
theorem AreRead.areClosedBefore {bits : List Bit} (h : AreRead bits) {s : Text}
    (hs : s.head? ≠ some '"') : AreClosedBefore s bits := by
  induction bits with
  | nil => trivial
  | cons b bits ih => exact ⟨(h.1.append hs).isClosed, ih h.2⟩

/-- Going through bits, a block stays open up to a brace that closes it. -/
theorem closeBlock_written_append {bits : List Bit} {s : Text} (hclosed : AreClosedBefore s bits)
    (hblanks : ∀ c, .blank c ∈ bits → isBlank c) {depth depth' : Nat}
    (hdepth : depthAfter? depth bits = some depth') :
    closeBlock 0 depth (written bits ++ s) = written bits ++ closeBlock 0 depth' s := by
  induction bits generalizing depth with
  | nil =>
    obtain rfl : depth = depth' := Option.some.inj hdepth
    rfl
  | cons b bits ih =>
    obtain ⟨hb, hbits⟩ := hclosed
    obtain ⟨middle, hstep, hrest⟩ := Option.bind_eq_some_iff.1 hdepth
    have htail := ih hbits (fun c hc => hblanks c (List.mem_cons_of_mem b hc)) hrest
    rw [written_cons, List.append_assoc, List.append_assoc, ← htail]
    -- only solid bits move the depth; documentation is gone over as a whole
    cases b with
    | solid c => exact closeBlock_brace hb.1 hb.2 hstep _
    | blank c =>
      obtain ⟨hopen, hclose, -⟩ := isBlank_brace (hblanks c List.mem_cons_self)
      refine closeBlock_brace hb.1 hb.2 ?_ _
      simpa [Bit.depth?, hopen, hclose] using hstep
    | comma => exact closeBlock_brace (by decide) (by decide) hstep _
    | comment | quoted | block =>
      obtain rfl : depth = middle := Option.some.inj hstep
      refine closeBlock_documentation ?_ (docRest?_append hb ?_) depth
      · simp [Bit.text, blockQuotes]
      · simp [Bit.isComment, Bit.isQuoted, Bit.isBlock]

/-- Bits that are read are kept, and the depth counts on behind them. -/
theorem closeBlock_written {bits : List Bit} (hread : AreRead bits) {depth depth' : Nat}
    (hdepth : depthAfter? depth bits = some depth') {s : Text} (hs : s.head? ≠ some '"') :
    closeBlock 0 depth (written bits ++ s) = written bits ++ closeBlock 0 depth' s := by
  refine closeBlock_written_append (hread.areClosedBefore hs) (fun c hc => ?_) hdepth
  obtain ⟨after, hblank⟩ := exists_isRead hread _ hc
  exact hblank

/-! ## The block of a schema text -/

/-- A word of ASCII, such as the name of a field or a type. -/
structure IsIdentifier (t : Text) : Prop where
  ne_nil : t ≠ []
  chars : ∀ c ∈ t, isAscii c && isWord c

instance (t : Text) : Decidable (IsIdentifier t) :=
  decidable_of_iff (t ≠ [] ∧ ∀ c ∈ t, isAscii c && isWord c) ⟨fun h => ⟨h.1, h.2⟩, fun h => ⟨h.1, h.2⟩⟩

/-- An identifier is a word. -/
theorem IsIdentifier.isWord {t : Text} (h : IsIdentifier t) : ∀ c ∈ t, isWord c := by
  intro c hc
  have hchar := h.chars c hc
  rw [Bool.and_eq_true] at hchar
  exact hchar.2

/-- A schema text that is one type block, with anything behind it. -/
def blockText (name interior rest : Text) : Text :=
  "type ".toList ++ (name ++ (" \x7b".toList ++ (interior ++ '}' :: rest)))

/-- The text of a block begins with its header. -/
theorem typeHeader_blockText {name : Text} (hne : name ≠ []) (hname : ∀ c ∈ name, isWord c)
    (interior rest : Text) :
    typeHeader none (blockText name interior rest) = some (name, interior ++ '}' :: rest) := by
  have hword : word? (name ++ (" \x7b".toList ++ (interior ++ '}' :: rest))) =
      some (name, " \x7b".toList ++ (interior ++ '}' :: rest)) := by
    refine word?_append hne hname ?_
    rintro c ⟨⟩
    decide
  have hdrop : ([' '] ++ (name ++ (" \x7b".toList ++ (interior ++ '}' :: rest)))).dropWhile isBlank =
      name ++ (" \x7b".toList ++ (interior ++ '}' :: rest)) := by
    obtain ⟨c, tail, rfl⟩ := List.exists_cons_of_ne_nil hne
    have hc := not_isBlank_of_isWord (hname c List.mem_cons_self)
    rw [List.dropWhile_append_of_pos (by decide), List.cons_append, List.dropWhile_cons, hc]
    rfl
  -- between the word `type` and the name stands one blank
  have hafter : after? "type".toList (blockText name interior rest) =
      some ([' '] ++ (name ++ (" \x7b".toList ++ (interior ++ '}' :: rest)))) :=
    after?_append "type".toList _
  unfold typeHeader
  rw [hafter]
  simp only [Option.bind_eq_bind, Option.bind_some, hdrop, hword]
  rfl

/-- A header at the start of a text is the first one. -/
private theorem blockFrom?_of_header {c : Char} {s name inside : Text}
    (h : typeHeader none (c :: s) = some (name, inside)) :
    blockFrom? 0 0 none (c :: s) = some inside := by
  rw [blockFrom?.eq_def]
  simp [h]

/-- The brace that closes the block ends it. -/
theorem closeBlock_closing (s : Text) : closeBlock 0 0 ('}' :: s) = [] := by
  rw [closeBlock.eq_def]
  rfl

/-- A type block opens behind its header. -/
theorem blockFrom?_blockText {name : Text} (hne : name ≠ []) (hname : ∀ c ∈ name, isWord c)
    (interior rest : Text) :
    blockFrom? 0 0 none (blockText name interior rest) = some (interior ++ '}' :: rest) :=
  blockFrom?_of_header (typeHeader_blockText hne hname interior rest)

/-- The interior of a type block is found behind the header if the block closes behind it. -/
theorem interior?_blockText_of_closeBlock {name : Text} (hname : IsIdentifier name)
    {interior rest : Text} (h : closeBlock 0 0 (interior ++ '}' :: rest) = interior) :
    interior? (blockText name interior rest) = some interior := by
  rw [interior?, blockFrom?_blockText hname.ne_nil hname.isWord, Option.map_some, h]

/-- The interior of a type block is found behind the header, however its bits are laid out. -/
theorem interior?_blockText {name : Text} (hname : IsIdentifier name) {bits : List Bit}
    (hread : AreRead bits) (hdepth : depthAfter? 0 bits = some 0) (rest : Text) :
    interior? (blockText name (written bits) rest) = some (written bits) := by
  refine interior?_blockText_of_closeBlock hname ?_
  rw [closeBlock_written hread hdepth (by simp), closeBlock_closing, List.append_nil]

end Scaffold.Schema
