import Scaffold.Proofs.Schema.Documentation
import Scaffold.Proofs.Schema.Headers
import Scaffold.Proofs.Text.Encoding
import Scaffold.Schema.ByteScan

/-!
# The byte scanner finds the interior

The scanner goes over positions in the bytes of a text, and the readers of documentation, headers and braces
go over its characters. Both stay together: a position is judged by the bytes from there on (`IsAt`), and
where a reader is in front of a text, the scanner is at a position where the bytes of that text begin. An
escape in a description can take half of a character along; the other half has no byte that means anything,
so the scanner meets the reader behind it (`isAt_descriptionEnd`).

Where documentation ends is told for each of its kinds (`docEnd?_of_docRest?`). The loop that goes on to the
next header is followed along the walk over the text, with the same two counters (`exists_firstHeader?`), and
the loop over braces along `closeBlock` (`blockBytes_eq`). So the scanner does not fail, and it cuts out the
bytes of the interior (`interiorBytes_eq`).
-/

namespace Scaffold.Schema

open Text

/-! ## Positions -/

/-- The bytes from a position on are `rest`. -/
def IsAt (bytes : List UInt8) (i : Nat) (rest : List UInt8) : Prop :=
  ∃ front, front ++ rest = bytes ∧ front.length = i

section

variable {bytes rest : List UInt8} {i j : Nat} {c : Char} {s t : Text}

/-- The whole text is behind no byte. -/
theorem isAt_zero (bytes : List UInt8) : IsAt bytes 0 bytes := ⟨[], rfl, rfl⟩

/-- Nothing is behind the last byte. -/
theorem isAt_length (bytes : List UInt8) : IsAt bytes bytes.length [] :=
  ⟨bytes, List.append_nil bytes, rfl⟩

/-- Past a run of bytes stands what follows it. -/
theorem IsAt.append {run : List UInt8} (h : IsAt bytes i (run ++ rest)) :
    IsAt bytes (i + run.length) rest := by
  obtain ⟨front, rfl, rfl⟩ := h
  exact ⟨front ++ run, List.append_assoc front run rest, List.length_append⟩

theorem IsAt.tail {b : UInt8} (h : IsAt bytes i (b :: rest)) : IsAt bytes (i + 1) rest := by
  rw [← List.singleton_append] at h
  exact h.append

/-- The bytes passed and those ahead are all there are. -/
theorem IsAt.length_eq (h : IsAt bytes i rest) : i + rest.length = bytes.length := by
  obtain ⟨front, rfl, rfl⟩ := h
  exact List.length_append.symm

/-- One text is at one position only. -/
theorem IsAt.unique (h : IsAt bytes i rest) (h' : IsAt bytes j rest) : i = j := by
  have := h.length_eq
  have := h'.length_eq
  omega

/-- Past a text stands what follows it. -/
theorem IsAt.behind (h : IsAt bytes i (bytesOf (s ++ t))) : IsAt bytes (i + byteSize s) (bytesOf t) := by
  rw [bytesOf_append] at h
  exact h.append

theorem IsAt.behind_cons (h : IsAt bytes i (bytesOf (c :: s))) :
    IsAt bytes (i + byteSize [c]) (bytesOf s) :=
  IsAt.behind (s := [c]) h

/-- What a text ends with begins behind it, or where it begins. -/
theorem IsAt.le_of_suffix (h : IsAt bytes i (bytesOf s)) (h' : IsAt bytes j (bytesOf t)) (hsuffix : t <:+ s) :
    i ≤ j := by
  obtain ⟨front, rfl⟩ := hsuffix
  rw [h'.unique h.behind]
  exact Nat.le_add_right i _

/-- A loop goes over a run of bytes if it goes over each of them. -/
theorem IsAt.over_run {α : Type} {f : Nat → α} {run : List UInt8} (h : IsAt bytes i (run ++ rest))
    (hstep : ∀ j b back, b ∈ run → j < i + run.length → IsAt bytes j (b :: back) → f j = f (j + 1)) :
    f i = f (i + run.length) := by
  induction run generalizing i with
  | nil => rfl
  | cons b run ih =>
    have hlength : i + (b :: run).length = i + 1 + run.length := by
      rw [List.length_cons]
      omega
    rw [hlength] at hstep ⊢
    rw [hstep i b (run ++ rest) List.mem_cons_self (by omega) h]
    apply ih h.tail
    intro j d back hd
    exact hstep j d back (List.mem_cons_of_mem b hd)

/-- The same for the bytes of a character. -/
theorem IsAt.over {α : Type} {f : Nat → α} (h : IsAt bytes i (bytesOf (c :: s)))
    (hstep : ∀ j b back, b ∈ String.utf8EncodeChar c → j < i + byteSize [c] → IsAt bytes j (b :: back) →
      f j = f (j + 1)) : f i = f (i + byteSize [c]) := by
  rw [byteSize_singleton] at hstep ⊢
  exact IsAt.over_run h hstep

/-- A byte that is ahead can be read. -/
theorem byteAt_of_isAt {b : UInt8} (h : IsAt bytes i (b :: rest)) : byteAt bytes i = .ok b := by
  obtain ⟨front, rfl, rfl⟩ := h
  simp [byteAt]

/-- The bytes ahead can be cut off. -/
theorem bytesFrom_of_isAt (h : IsAt bytes i rest) : bytesFrom bytes i = .ok rest := by
  obtain ⟨front, rfl, rfl⟩ := h
  simp [bytesFrom]

/-- No character is cut where a text begins. -/
theorem isBoundary_of_isAt (h : IsAt bytes i (bytesOf s)) : isBoundary bytes i := by
  unfold isBoundary
  cases s with
  | nil =>
    have hend : i = bytes.length := h.length_eq
    simp [hend]
  | cons c s =>
    obtain ⟨b, run, hencode, hb, -⟩ := exists_utf8EncodeChar c
    rw [bytesOf_cons, hencode, List.cons_append] at h
    obtain ⟨front, rfl, rfl⟩ := h
    simp [hb]

/-- A text is cut out between where it begins and where the text behind it begins. -/
theorem slice_of_isAt (h : IsAt bytes i (bytesOf (s ++ t))) :
    slice bytes i (i + byteSize s) = .ok (bytesOf s) := by
  have hstart := isBoundary_of_isAt h
  have hstop := isBoundary_of_isAt h.behind
  have hrange : i ≤ i + byteSize s ∧ i + byteSize s ≤ bytes.length := by
    have := h.behind.length_eq
    omega
  have hcut : (bytes.drop i).take (i + byteSize s - i) = bytesOf s := by
    rw [bytesOf_append] at h
    obtain ⟨front, rfl, rfl⟩ := h
    rw [List.drop_left, Nat.add_sub_cancel_left]
    exact List.take_left
  rw [slice, if_neg (not_not_intro hrange), hstart, hcut]
  exact if_pos hstop

end

/-! ## Descriptions -/

section

variable {bytes rest : List UInt8} {j : Nat}

/-- What a byte inside a description does. -/
theorem descriptionEnd_of_isAt {b : UInt8} (h : IsAt bytes j (b :: rest)) :
    descriptionEnd bytes j =
      if b = '\\'.toUInt8 then descriptionEnd bytes (j + 2)
      else if b = '"'.toUInt8 then j + 1
      else if b = '\n'.toUInt8 then j
      else descriptionEnd bytes (j + 1) := by
  obtain ⟨front, rfl, rfl⟩ := h
  rw [descriptionEnd]
  simp

/-- Beyond the last byte, a description has ended. -/
theorem descriptionEnd_of_le (h : bytes.length ≤ j) : descriptionEnd bytes j = bytes.length := by
  rw [descriptionEnd, dif_neg (Nat.not_lt.2 h)]

/-- A byte inside a description that is nothing special is gone over. -/
theorem descriptionEnd_of_ne {b : UInt8} (hbackslash : b ≠ '\\'.toUInt8) (hquote : b ≠ '"'.toUInt8)
    (hnewline : b ≠ '\n'.toUInt8) (h : IsAt bytes j (b :: rest)) :
    descriptionEnd bytes j = descriptionEnd bytes (j + 1) := by
  rw [descriptionEnd_of_isAt h, if_neg hbackslash, if_neg hquote, if_neg hnewline]

/-- A description ends in the bytes where it ends in the text. -/
theorem isAt_descriptionEnd {s : Text} (h : IsAt bytes j (bytesOf s)) :
    IsAt bytes (descriptionEnd bytes j) (bytesOf (descriptionRest s)) := by
  fun_induction descriptionRest s generalizing j with
  | case1 =>
    have hend : bytes.length ≤ j := Nat.le_of_eq h.length_eq.symm
    rw [descriptionEnd_of_le hend]
    exact isAt_length bytes
  | case2 =>
    rw [bytesOf_cons_of_ascii (by decide)] at h
    have hend : bytes.length = j + 1 := h.length_eq.symm
    rw [descriptionEnd_of_isAt h, if_pos rfl, descriptionEnd_of_le (by omega)]
    exact isAt_length bytes
  | case3 c s ih =>
    -- an escaped character can be cut into: what is left of it is gone over
    obtain ⟨b, run, hencode, -, hrun⟩ := exists_utf8EncodeChar c
    rw [bytesOf_cons_of_ascii (by decide), bytesOf_cons, hencode, List.cons_append] at h
    have hover : descriptionEnd bytes (j + 1 + 1) = descriptionEnd bytes (j + 1 + 1 + run.length) := by
      apply h.tail.tail.over_run
      intro i d back hd _ hi
      have hlarge := hrun d hd
      exact descriptionEnd_of_ne (ne_toUInt8_of_le (by decide) hlarge)
        (ne_toUInt8_of_le (by decide) hlarge) (ne_toUInt8_of_le (by decide) hlarge) hi
    rw [descriptionEnd_of_isAt h, if_pos rfl, hover]
    exact ih h.tail.tail.append
  | case4 s =>
    rw [bytesOf_cons_of_ascii (by decide)] at h
    rw [descriptionEnd_of_isAt h, if_neg (by decide), if_pos rfl]
    exact h.tail
  | case5 s =>
    have hnewline := h
    rw [bytesOf_cons_of_ascii (by decide)] at hnewline
    rwa [descriptionEnd_of_isAt hnewline, if_neg (by decide), if_neg (by decide), if_pos rfl]
  | case6 c s hlone hescape hquote hnewline ih =>
    have hbackslash := ne_backslash hlone hescape
    have hover : descriptionEnd bytes j = descriptionEnd bytes (j + byteSize [c]) := by
      apply h.over
      intro i d back hd _ hi
      exact descriptionEnd_of_ne (ne_toUInt8_of_mem (by decide) hbackslash hd)
        (ne_toUInt8_of_mem (by decide) hquote hd) (ne_toUInt8_of_mem (by decide) hnewline hd) hi
    rw [hover]
    exact ih h.behind_cons

end

/-! ## Block strings -/

/-- A pattern whose first byte is not in a run is found behind the run. -/
theorem positionOf?_run {a : UInt8} {run : List UInt8} (h : ∀ b ∈ run, b ≠ a) (p rest : List UInt8) :
    positionOf? (a :: p) (run ++ rest) = (positionOf? (a :: p) rest).map (· + run.length) := by
  induction run with
  | nil => simp
  | cons b run ih =>
    obtain ⟨hb, hrun⟩ := List.forall_mem_cons.1 h
    have hfirst : (a :: p).isPrefixOf (b :: (run ++ rest)) = false := by
      rw [List.isPrefixOf_cons_cons, beq_false_of_ne hb.symm, Bool.false_and]
    rw [List.cons_append, positionOf?, hfirst, ih hrun]
    simp [Function.comp_def, Nat.add_assoc]

/-- A text of ASCII comes first in the bytes where it comes first in the text. -/
theorem positionOf?_bytesOf {p : Text} (hne : p ≠ []) (hp : ∀ c ∈ p, isAscii c) (s : Text) :
    positionOf? (bytesOf p) (bytesOf s) = (cutAt? p s).map fun cut => byteSize cut.1 := by
  have hbytes : bytesOf p ≠ [] := by
    obtain ⟨a, p, rfl⟩ := List.exists_cons_of_ne_nil hne
    simp [bytesOf_cons, String.utf8EncodeChar_ne_nil]
  induction s with
  | nil =>
    have hnone : after? p [] = none := by
      obtain ⟨a, p, rfl⟩ := List.exists_cons_of_ne_nil hne
      rfl
    simp [positionOf?, cutAt?, hbytes, hnone]
  | cons c s ih =>
    obtain ⟨b, run, hencode, -, hrun⟩ := exists_utf8EncodeChar c
    have hprefix := isPrefixOf_bytesOf hp (c :: s)
    have hcons : bytesOf (c :: s) = b :: (run ++ bytesOf s) := by
      rw [bytesOf_cons, hencode, List.cons_append]
    rw [hcons] at hprefix ⊢
    rw [positionOf?, hprefix]
    cases hafter : after? p (c :: s) with
    | some rest =>
      rw [cutAt?_cons_of_some hafter]
      rfl
    | none =>
      have hskip : positionOf? (bytesOf p) (run ++ bytesOf s) =
          (positionOf? (bytesOf p) (bytesOf s)).map (· + run.length) := by
        obtain ⟨a, p, rfl⟩ := List.exists_cons_of_ne_nil hne
        have ha := hp a List.mem_cons_self
        rw [bytesOf_cons_of_ascii ha]
        exact positionOf?_run (fun d hd => ne_toUInt8_of_le ha (hrun d hd)) _ _
      have hsize : byteSize [c] = run.length + 1 := by
        rw [byteSize_singleton, hencode, List.length_cons]
      rw [cutAt?_cons_of_none hafter, hskip, ih]
      cases cutAt? p s with
      | none => rfl
      | some cut =>
        simp [byteSize_cons c cut.1, hsize]
        omega

/-! ## Documentation -/

section

variable {bytes rest : List UInt8} {i : Nat}

/-- At a byte that opens no documentation, none ends. -/
theorem docEnd?_of_ne {b : UInt8} (hcomment : b ≠ '#'.toUInt8) (hquote : b ≠ '"'.toUInt8)
    (h : IsAt bytes i (b :: rest)) : docEnd? bytes i = .ok none := by
  simp [docEnd?, byteAt_of_isAt h, hcomment, hquote, bind, Except.bind, pure, Except.pure]

/-- A comment ends in front of the end of its line. -/
theorem docEnd?_comment {s : Text} (h : IsAt bytes i (bytesOf ('#' :: s))) :
    ∃ stop, docEnd? bytes i = .ok (some stop) ∧ IsAt bytes stop (bytesOf (s.dropWhile (· ≠ '\n'))) := by
  have hfirst := h
  rw [bytesOf_cons_of_ascii (by decide)] at hfirst
  have hline : ('#' :: s).takeWhile (· ≠ '\n') ++ s.dropWhile (· ≠ '\n') = '#' :: s :=
    List.takeWhile_append_dropWhile (p := (· ≠ '\n')) (l := '#' :: s)
  have hstop : ((bytesOf ('#' :: s)).findIdx? (· == '\n'.toUInt8)).elim bytes.length (i + ·) =
      i + byteSize (('#' :: s).takeWhile (· ≠ '\n')) := by
    rw [← findIdx?_bytesOf (by decide), ← h.length_eq]
    cases (bytesOf ('#' :: s)).findIdx? (· == '\n'.toUInt8) <;> rfl
  refine ⟨i + byteSize (('#' :: s).takeWhile (· ≠ '\n')), ?_, ?_⟩
  · rw [docEnd?, byteAt_of_isAt hfirst, bytesFrom_of_isAt h, ← hstop]
    rfl
  · rw [← hline, bytesOf_append] at h
    exact h.append

/-- A block string ends behind its closing quotes, or with the text. -/
theorem docEnd?_blockString {inside : Text} (h : IsAt bytes i (bytesOf (blockQuotes ++ inside))) :
    ∃ stop, docEnd? bytes i = .ok (some stop) ∧
      IsAt bytes stop (bytesOf (((cutAt? blockQuotes inside).map Prod.snd).getD [])) := by
  have hascii : ∀ c ∈ blockQuotes, isAscii c := by decide
  have hprefix : (bytesOf blockQuotes).isPrefixOf (bytesOf (blockQuotes ++ inside)) := by
    rw [isPrefixOf_bytesOf hascii, after?_append]
    rfl
  have hinside : IsAt bytes (i + 3) (bytesOf inside) := by
    rw [bytesOf_append] at h
    exact h.append
  have hfirst : IsAt bytes i ('"'.toUInt8 :: bytesOf ("\"\"".toList ++ inside)) := h
  have hdoc : docEnd? bytes i = .ok (some (((cutAt? blockQuotes inside).map fun cut =>
      byteSize cut.1).elim bytes.length (i + 3 + · + 3))) := by
    rw [docEnd?, byteAt_of_isAt hfirst, bytesFrom_of_isAt h, bytesFrom_of_isAt hinside,
      ← positionOf?_bytesOf (by decide) hascii]
    simp only [bind, Except.bind, pure, Except.pure, hprefix, if_true]
    rfl
  refine ⟨_, hdoc, ?_⟩
  cases hcut : cutAt? blockQuotes inside with
  | none => exact isAt_length bytes
  | some cut =>
    rw [cutAt?_eq_some hcut, bytesOf_append, bytesOf_append, List.append_assoc] at hinside
    exact hinside.append.append

/-- A description ends in the bytes behind its closing quote, or in front of the end of its line. -/
theorem docEnd?_description {s : Text} (hnone : after? blockQuotes ('"' :: s) = none)
    (h : IsAt bytes i (bytesOf ('"' :: s))) :
    ∃ stop, docEnd? bytes i = .ok (some stop) ∧ IsAt bytes stop (bytesOf (descriptionRest s)) := by
  have hprefix : (bytesOf blockQuotes).isPrefixOf (bytesOf ('"' :: s)) = false := by
    rw [isPrefixOf_bytesOf (by decide), hnone]
    rfl
  have hfirst := h
  rw [bytesOf_cons_of_ascii (by decide)] at hfirst
  refine ⟨descriptionEnd bytes (i + 1), ?_, isAt_descriptionEnd hfirst.tail⟩
  rw [docEnd?, byteAt_of_isAt hfirst, bytesFrom_of_isAt h]
  simp only [bind, Except.bind, pure, Except.pure, hprefix, Bool.false_eq_true, if_false]
  rfl

/-- Documentation ends in the bytes where it ends in the text. -/
theorem docEnd?_of_docRest? {c : Char} {s rest : Text} (h : IsAt bytes i (bytesOf (c :: s)))
    (hdoc : docRest? (c :: s) = some rest) :
    ∃ stop, docEnd? bytes i = .ok (some stop) ∧ IsAt bytes stop (bytesOf rest) := by
  by_cases hcomment : c = '#'
  · subst hcomment
    obtain rfl := Option.some.inj hdoc
    exact docEnd?_comment h
  by_cases hquote : c = '"'
  · subst hquote
    rw [docRest?_quote_eq] at hdoc
    obtain rfl := Option.some.inj hdoc
    -- three quotes open a block string, fewer open a description
    cases hafter : after? blockQuotes ('"' :: s) with
    | some inside =>
      rw [after?_eq_some hafter] at h
      exact docEnd?_blockString h
    | none => exact docEnd?_description hafter h
  · rw [docRest?_eq_none hcomment hquote] at hdoc
    cases hdoc

end

/-! ## The first header -/

section

variable {bytes rest : List UInt8} {pos start next : Nat}

/-- One turn of the loop that goes on to a header. -/
theorem advance_eq (bytes : List UInt8) (pos start : Nat) : advance bytes pos start =
    if pos < start then (docEnd? bytes pos).bind fun stop? => advance bytes (stop?.getD (pos + 1)) start
    else .ok pos := by
  rw [advance]
  split
  · split <;> simp_all [Except.bind]
  · rfl

/-- A position that has been passed is not gone to. -/
theorem advance_of_le (h : start ≤ pos) : advance bytes pos start = .ok pos := by
  rw [advance_eq, if_neg (Nat.not_lt.2 h)]

/-- The way to a position is part of the way to a later one. -/
theorem advance_advance {start' : Nat} (hle : start ≤ start') (h : advance bytes pos start = .ok next) :
    advance bytes pos start' = advance bytes next start' := by
  fun_induction advance bytes pos start with
  | case1 => cases h
  | case2 pos hlt next' hdoc ih =>
    rw [advance_eq, if_pos (by omega), hdoc]
    exact ih h
  | case3 pos hlt hdoc ih =>
    rw [advance_eq, if_pos (by omega), hdoc]
    exact ih h
  | case4 pos hlt =>
    obtain rfl := Except.ok.inj h
    rfl

/-- A character begins documentation, or none of its bytes does. -/
theorem ne_of_docRest?_eq_none {c : Char} {s : Text} (h : docRest? (c :: s) = none) :
    c ≠ '#' ∧ c ≠ '"' := by
  constructor
  · rintro rfl
    cases h
  · rintro rfl
    rw [docRest?_quote_eq] at h
    cases h

/-- Where a loop that has gone on to a character goes on to behind it. The first `doc` characters belong to
documentation that began earlier. -/
theorem exists_advance_cons {c : Char} {s : Text} {doc i : Nat} (hi : IsAt bytes i (bytesOf (c :: s)))
    (hadvance : advance bytes pos i = .ok next) (hnext : IsAt bytes next (bytesOf ((c :: s).drop doc))) :
    ∃ next', advance bytes pos (i + byteSize [c]) = .ok next' ∧
      IsAt bytes next' (bytesOf (s.drop (docBehind doc c s))) := by
  have hbehind := hi.behind_cons
  rw [advance_advance (Nat.le_add_right i _) hadvance]
  cases doc with
  | succ doc =>
    have hle := hbehind.le_of_suffix hnext (List.drop_suffix doc s)
    exact ⟨next, advance_of_le hle, hnext⟩
  | zero =>
    obtain rfl := hnext.unique hi
    cases hdoc : docRest? (c :: s) with
    | none =>
      obtain ⟨hcomment, hquote⟩ := ne_of_docRest?_eq_none hdoc
      have hover : advance bytes next (next + byteSize [c]) =
          advance bytes (next + byteSize [c]) (next + byteSize [c]) := by
        apply hi.over (f := fun j => advance bytes j (next + byteSize [c]))
        intro j b back hb hj hat
        rw [advance_eq, if_pos hj, docEnd?_of_ne (ne_toUInt8_of_mem (by decide) hcomment hb)
          (ne_toUInt8_of_mem (by decide) hquote hb) hat]
        rfl
      refine ⟨next + byteSize [c], hover.trans (advance_of_le (Nat.le_refl _)), ?_⟩
      rw [docBehind_of_plain hcomment hquote]
      exact hbehind
    | some rest =>
      obtain ⟨stop, hstop, hrest⟩ := docEnd?_of_docRest? hi hdoc
      have hsuffix := docRest?_suffix hdoc
      have hdrop : s.drop (docBehind 0 c s) = rest := by
        rw [List.suffix_iff_eq_drop.1 hsuffix]
        simp [docBehind, hdoc]
      refine ⟨stop, ?_, hdrop ▸ hrest⟩
      rw [advance_eq, if_pos (Nat.lt_add_of_pos_right (byteSize_singleton_pos c)), hstop]
      exact advance_of_le (hbehind.le_of_suffix hrest hsuffix)

/-- The inside of a block stands behind the first character of its header. -/
theorem suffix_of_typeHeader {before : Option Char} {c : Char} {s name inside : Text}
    (h : typeHeader before (c :: s) = some (name, inside)) : inside <:+ s := by
  have hdrop := List.dropWhile_suffix (l := c :: s) (· ≠ '{')
  rw [dropWhile_of_typeHeader h] at hdrop
  refine (List.suffix_cons_iff.1 ((List.suffix_cons '{' inside).trans hdrop)).resolve_left ?_
  rintro rfl
  exact Nat.lt_irrefl _ (length_of_typeHeader h)

/-- The byte positions find the header that the text has, where `header` and `doc` count the characters of
the text that belong to an earlier header and to documentation. -/
theorem exists_firstHeader? {s : Text} {header doc i j : Nat} {before : Option Char}
    (hi : IsAt bytes i (bytesOf s)) (hj : IsAt bytes j (bytesOf (s.drop header)))
    (hadvance : advance bytes pos i = .ok next) (hnext : IsAt bytes next (bytesOf (s.drop doc))) :
    ∃ start?, firstHeader? bytes pos (spans j (piecesFrom typeHeader header before s)) = .ok start? ∧
      Option.Rel (fun start inside => IsAt bytes start (bytesOf inside)) start?
        (blockFrom? header doc before s) := by
  induction s generalizing header doc i j before pos next with
  | nil =>
    rw [blockFrom?_nil]
    exact ⟨none, by rw [piecesFrom, spans, firstHeader?], .none⟩
  | cons c s ih =>
    have hbehind := hi.behind_cons
    obtain ⟨next', hadvance', hnext'⟩ := exists_advance_cons hi hadvance hnext
    cases header with
    | succ header =>
      rw [blockFrom?_succ, piecesFrom]
      exact ih hbehind hj hadvance' hnext'
    | zero =>
      obtain rfl := hj.unique hi
      cases hfound : typeHeader before (c :: s) with
      | none =>
        rw [blockFrom?_of_none doc hfound, piecesFrom, hfound]
        exact ih hbehind hbehind hadvance' hnext'
      | some found =>
        obtain ⟨name, inside⟩ := found
        have hinside : s.drop (s.length - inside.length) = inside :=
          (List.suffix_iff_eq_drop.1 (suffix_of_typeHeader hfound)).symm
        have hsplit : (c :: s).take (s.length - inside.length + 1) ++ inside = c :: s := by
          conv => lhs; rhs; rw [← hinside]
          exact List.take_append_drop (s.length - inside.length + 1) (c :: s)
        rw [piecesFrom, hfound, spans, firstHeader?, hadvance]
        generalize (c :: s).take (s.length - inside.length + 1) = taken at hsplit ⊢
        have hstop : IsAt bytes (j + byteSize taken) (bytesOf inside) := by
          rw [← hsplit] at hi
          exact hi.behind
        cases doc with
        | zero =>
          obtain rfl := hnext.unique hi
          rw [blockFrom?_of_some hfound]
          exact ⟨some (next + byteSize taken), if_pos rfl, .some hstop⟩
        | succ doc =>
          -- the header begins inside documentation, which ends behind its first character
          have hle := hbehind.le_of_suffix hnext (List.drop_suffix doc s)
          have hne : next ≠ j := by
            have := byteSize_singleton_pos c
            omega
          rw [blockFrom?_of_some_succ doc hfound]
          simp only [bind, Except.bind, hne, if_false]
          exact ih hbehind (hinside.symm ▸ hstop) (advance_of_le hle) hnext

end

/-! ## The block -/

section

variable {bytes rest : List UInt8} {start depth i : Nat}

/-- Beyond the last byte, the block is the bytes since its start. -/
theorem blockBytes_of_le (h : bytes.length ≤ i) :
    blockBytes bytes start depth i = slice bytes start bytes.length := by
  rw [blockBytes, dif_neg (Nat.not_lt.2 h)]

/-- Documentation in a block is passed over. -/
theorem blockBytes_of_docEnd? {next : Nat} (hi : i < bytes.length)
    (hdoc : docEnd? bytes i = .ok (some next)) :
    blockBytes bytes start depth i = blockBytes bytes start depth next := by
  rw [blockBytes, dif_pos hi]
  split <;> simp_all

/-- What a byte outside documentation does in an open block. -/
theorem blockBytes_of_isAt {b : UInt8} (h : IsAt bytes i (b :: rest)) (hdoc : docEnd? bytes i = .ok none) :
    blockBytes bytes start (depth + 1) i =
      if b = '{'.toUInt8 then blockBytes bytes start (depth + 2) (i + 1)
      else if b = '}'.toUInt8 then
        if depth = 0 then slice bytes start i else blockBytes bytes start depth (i + 1)
      else blockBytes bytes start (depth + 1) (i + 1) := by
  obtain ⟨front, rfl, rfl⟩ := h
  rw [blockBytes, dif_pos (by simp)]
  split
  · simp_all
  · simp_all
  · simp

/-- A region of documentation is passed over. -/
theorem blockBytes_of_docRest? {c : Char} {s back : Text} (hi : IsAt bytes i (bytesOf (c :: s)))
    (hdoc : docRest? (c :: s) = some back) :
    ∃ stop, blockBytes bytes start depth i = blockBytes bytes start depth stop ∧
      IsAt bytes stop (bytesOf back) := by
  obtain ⟨stop, hstop, hback⟩ := docEnd?_of_docRest? hi hdoc
  have hlt : i < bytes.length := by
    have hpos := byteSize_singleton_pos c
    have hlength := hi.length_eq
    rw [length_bytesOf, byteSize_cons] at hlength
    omega
  exact ⟨stop, blockBytes_of_docEnd? hlt hstop, hback⟩

/-- A character that is no brace and begins no documentation leaves the depth as it is. -/
theorem blockBytes_of_plain {c : Char} {s : Text} (hi : IsAt bytes i (bytesOf (c :: s)))
    (hdoc : docRest? (c :: s) = none) (hopen : c ≠ '{') (hclose : c ≠ '}') :
    blockBytes bytes start (depth + 1) i =
      blockBytes bytes start (depth + 1) (i + byteSize [c]) := by
  obtain ⟨hcomment, hquote⟩ := ne_of_docRest?_eq_none hdoc
  apply hi.over
  intro j b back hb _ hj
  have hnone := docEnd?_of_ne (ne_toUInt8_of_mem (by decide) hcomment hb)
    (ne_toUInt8_of_mem (by decide) hquote hb) hj
  rw [blockBytes_of_isAt hj hnone, if_neg (ne_toUInt8_of_mem (by decide) hopen hb),
    if_neg (ne_toUInt8_of_mem (by decide) hclose hb)]

/-- The bytes of a block are those of its text. Its depth counts the block itself, so that it is never zero
at a brace. -/
theorem blockBytes_eq (front : Text) {s : Text} (h : IsAt bytes start (bytesOf (front ++ s))) (depth : Nat) :
    blockBytes bytes start (depth + 1) (start + byteSize front) =
      .ok (bytesOf (front ++ closeBlock 0 depth s)) := by
  -- on the length, since a region takes more than one character
  induction hlength : s.length using Nat.strongRecOn generalizing front s depth with
  | ind n ih =>
  subst hlength
  have hs := h.behind
  cases s with
  | nil =>
    have hend : bytes.length = start + byteSize front := hs.length_eq.symm
    rw [blockBytes_of_le (Nat.le_of_eq hend), hend, slice_of_isAt h, closeBlock.eq_def, List.append_nil]
  | cons c s =>
    cases hdoc : docRest? (c :: s) with
    | some rest =>
      obtain ⟨stop, hover, hrest⟩ := blockBytes_of_docRest? hs hdoc
      obtain ⟨doc, hsplit⟩ := docRest?_suffix hdoc
      rw [← hsplit, ← List.cons_append] at h hs hdoc ⊢
      have hposition : stop = start + byteSize (front ++ c :: doc) := by
        rw [hrest.unique hs.behind, byteSize_append, Nat.add_assoc]
      rw [← List.append_assoc] at h
      have hshorter : rest.length < (c :: s).length := by
        rw [← hsplit, List.length_cons, List.length_append]
        omega
      have hbehind := ih rest.length hshorter _ h depth rfl
      rw [hover, closeBlock_documentation (List.cons_ne_nil c doc) hdoc, hposition, hbehind,
        List.append_assoc]
    | none =>
      obtain ⟨hcomment, hquote⟩ := ne_of_docRest?_eq_none hdoc
      -- behind a character that leaves the block open
      have hbehind {depth' : Nat} (hdepth : Bit.depth? depth (.solid c) = some depth') :
          blockBytes bytes start (depth' + 1) (start + byteSize front + byteSize [c]) =
            .ok (bytesOf (front ++ closeBlock 0 depth (c :: s))) := by
        have hrest := ih s.length (by simp) (front ++ [c]) (by simpa using h) depth' rfl
        rw [byteSize_append, ← Nat.add_assoc] at hrest
        rw [hrest, closeBlock_brace hcomment hquote hdepth, List.append_assoc]
        rfl
      by_cases hopen : c = '{'
      · subst hopen
        rw [bytesOf_cons_of_ascii (by decide)] at hs
        rw [blockBytes_of_isAt hs (docEnd?_of_ne (by decide) (by decide) hs), if_pos rfl]
        exact hbehind rfl
      by_cases hclose : c = '}'
      · subst hclose
        rw [bytesOf_cons_of_ascii (by decide)] at hs
        rw [blockBytes_of_isAt hs (docEnd?_of_ne (by decide) (by decide) hs), if_neg (by decide), if_pos rfl]
        cases depth with
        | zero => rw [if_pos rfl, slice_of_isAt h, closeBlock_closing, List.append_nil]
        | succ depth => exact hbehind rfl
      rw [blockBytes_of_plain hs hdoc hopen hclose]
      exact hbehind (by simp [Bit.depth?, hopen, hclose])

end

/-- The scanner goes through without a fault, and cuts out the bytes of the interior. -/
theorem interiorBytes_eq (s : Text) : interiorBytes s = .ok ((interior? s).map bytesOf) := by
  have hstart := isAt_zero (bytesOf s)
  obtain ⟨start?, hheader, hrel⟩ :
      ∃ start?, firstHeader? (bytesOf s) 0 (spans 0 (pieces typeHeader s)) = .ok start? ∧
        Option.Rel (fun start inside => IsAt (bytesOf s) start (bytesOf inside)) start?
          (blockFrom? 0 0 none s) :=
    exists_firstHeader? hstart hstart (advance_of_le (Nat.le_refl 0)) hstart
  unfold interiorBytes interior?
  generalize blockFrom? 0 0 none s = inside? at hrel ⊢
  dsimp only
  rw [hheader]
  cases hrel with
  | none => rfl
  | @some start inside h =>
    have hblock : blockBytes (bytesOf s) start 1 start = .ok (bytesOf (closeBlock 0 0 inside)) :=
      blockBytes_eq [] h 0
    simp only [bind, Except.bind, hblock]
    rfl

end Scaffold.Schema
