import Scaffold.Proofs.Text.Cutting
import Scaffold.Text.Scan

/-!
# Scanning with forward patterns

A pattern is *forward* if it looks only at what follows the cursor. Scanning with a forward pattern goes
by concatenation: a stretch that the pattern refuses stays as it is (`replaceAll_append_of_refuses`,
`findAll_append_of_refuses`), a stretch that it takes is one match (`replaceAll_append_of_takes`,
`findAll_append_of_takes`), and two texts are scanned apart if no match reaches from one into the other
(`pieces_append_of_apart`).
-/

namespace Scaffold.Text

variable {α : Type} {p : Pattern α}

/-- The pattern does not look at what stands before the cursor. -/
def Pattern.IsForward (p : Pattern α) : Prop := ∀ before s, p before s = p none s

/-- At the start of `t ++ s` the pattern takes all of `t`, with a value. -/
def Pattern.Takes (p : Pattern α) (t s : Text) (value : α) : Prop :=
  t ≠ [] ∧ p none (t ++ s) = some (value, s)

/-- The pattern refuses at every cursor in `t`, when `s` follows. -/
def Pattern.Refuses (p : Pattern α) : (t s : Text) → Prop
  | [], _ => True
  | c :: t, s => p none (c :: (t ++ s)) = none ∧ p.Refuses t s

@[simp] theorem Pattern.refuses_nil (s : Text) : p.Refuses [] s := trivial

@[simp] theorem Pattern.refuses_cons {c : Char} {t s : Text} :
    p.Refuses (c :: t) s ↔ p none (c :: (t ++ s)) = none ∧ p.Refuses t s := Iff.rfl

/-- A pattern refuses all along two texts if it does along either, with what follows there. -/
theorem Pattern.refuses_append {t u s : Text} :
    p.Refuses (t ++ u) s ↔ p.Refuses t (u ++ s) ∧ p.Refuses u s := by
  induction t with
  | nil => simp
  | cons c t ih => simp [ih, and_assoc]

/-- What stands for a piece when matches are replaced. -/
def Piece.replaced (f : α → Text) : Piece α → Text
  | .loose c => [c]
  | .found value _ => f value

/-- Replacing goes piece by piece. -/
theorem replaceAll_eq (p : Pattern α) (f : α → Text) (s : Text) :
    replaceAll p f s = (pieces p s).flatMap (Piece.replaced f) := by
  unfold replaceAll
  congr

/-- A text in which nothing matches is its own replacement. -/
theorem flatMap_replaced_map_loose (f : α → Text) (t : Text) :
    (t.map Piece.loose).flatMap (Piece.replaced f) = t := by
  rw [List.flatMap_map]
  exact List.flatMap_singleton' t

theorem filterMap_value?_map_loose (t : Text) :
    (t.map Piece.loose).filterMap (Piece.value? (α := α)) = [] := by
  simp [Piece.value?]

/-- What the pattern leaves is an end of the text, and not all of it. -/
def Pattern.Advances (p : Pattern α) : Prop :=
  ∀ s value rest, p none s = some (value, rest) → rest <:+ s ∧ rest.length < s.length

/-- What an advancing pattern matches is a stretch that it takes. -/
theorem Pattern.Advances.exists_takes (hp : p.Advances) {s rest : Text} {value : α}
    (h : p none s = some (value, rest)) : ∃ taken, s = taken ++ rest ∧ p.Takes taken rest value := by
  obtain ⟨⟨taken, rfl⟩, hlength⟩ := hp s value rest h
  refine ⟨taken, rfl, ?_, h⟩
  rintro rfl
  exact Nat.lt_irrefl _ hlength

/-- A pattern that begins with certain characters refuses where there are none of them. -/
theorem Pattern.refuses_of_forall {t : Text} (h : ∀ c ∈ t, ∀ s, p none (c :: s) = none) (s : Text) :
    p.Refuses t s := by
  induction t with
  | nil => exact p.refuses_nil s
  | cons c t ih =>
    exact ⟨h c List.mem_cons_self _, ih fun d hd => h d (List.mem_cons_of_mem c hd)⟩

/-! ## Pieces -/

/-- Behind the match that it belongs to, a text is scanned afresh. -/
private theorem piecesFrom_forward (hp : p.IsForward) (t s : Text) (before : Option Char) :
    piecesFrom p t.length before (t ++ s) = pieces p s := by
  induction t generalizing before with
  | nil =>
    cases s with
    | nil => rfl
    | cons c s => simp only [List.length_nil, List.nil_append, piecesFrom, pieces, hp before]
  | cons c t ih => exact ih (some c)

/-- A character at which nothing matches is a piece of its own. -/
theorem pieces_cons_of_none (hp : p.IsForward) {c : Char} {s : Text} (h : p none (c :: s) = none) :
    pieces p (c :: s) = .loose c :: pieces p s := by
  unfold pieces
  rw [piecesFrom, h]
  exact congrArg _ (piecesFrom_forward hp [] s (some c))

/-- What a pattern takes is the first piece. -/
theorem pieces_append_of_takes (hp : p.IsForward) {t s : Text} {value : α} (h : p.Takes t s value) :
    pieces p (t ++ s) = .found value t :: pieces p s := by
  obtain ⟨hne, h⟩ := h
  obtain ⟨c, t, rfl⟩ := List.exists_cons_of_ne_nil hne
  rw [List.cons_append] at h ⊢
  have hlength : (t ++ s).length - s.length = t.length := by simp
  have htake : (c :: (t ++ s)).take (t.length + 1) = c :: t := by simp
  unfold pieces
  rw [piecesFrom, h]
  simp only [hlength, htake]
  exact congrArg _ (piecesFrom_forward hp t s (some c))

/-- Where the pattern refuses, all characters pass. -/
theorem pieces_append_of_refuses (hp : p.IsForward) {t s : Text} (h : p.Refuses t s) :
    pieces p (t ++ s) = t.map .loose ++ pieces p s := by
  induction t with
  | nil => rfl
  | cons c t ih => rw [List.cons_append, pieces_cons_of_none hp h.1, ih h.2]; rfl

/-- If what follows a text has no part in what is found in it, both are scanned apart. -/
theorem pieces_append_of_decided (hp : p.IsForward) {t s : Text}
    (h : ∀ c u, c :: u <:+ t → (p none (c :: u) = none ∧ p none (c :: (u ++ s)) = none) ∨
      ∃ taken rest value, c :: u = taken ++ rest ∧ p.Takes taken rest value ∧
        p.Takes taken (rest ++ s) value) :
    pieces p (t ++ s) = pieces p t ++ pieces p s := by
  -- on the length, since a match takes out more than one character
  induction hlen : t.length using Nat.strongRecOn generalizing t with
  | ind n ih =>
  subst hlen
  cases t with
  | nil => rfl
  | cons c t =>
    -- the first cursor passes one character or takes a match, and both leave a shorter end
    rcases h c t List.suffix_rfl with ⟨hnone, hnone'⟩ | ⟨taken, rest, value, hsplit, htakes, htakes'⟩
    · have htail := ih t.length (by simp)
        (fun d u hu => h d u (hu.trans (List.suffix_cons c t))) rfl
      rw [List.cons_append, pieces_cons_of_none hp hnone', pieces_cons_of_none hp hnone, htail,
        List.cons_append]
    · have hlength : rest.length < (c :: t).length := by
        rw [hsplit, List.length_append]
        exact Nat.lt_add_of_pos_left (List.length_pos_iff.2 htakes.1)
      have htail := ih rest.length hlength
        (fun d u hu => h d u (hu.trans (hsplit ▸ List.suffix_append taken rest))) rfl
      rw [hsplit, List.append_assoc, pieces_append_of_takes hp htakes',
        pieces_append_of_takes hp htakes, htail, List.cons_append]

/-- If a pattern does the same at each cursor of a text whether or not more follows, what follows is
scanned apart. -/
theorem pieces_append_of_apart (hp : p.IsForward) (hadvances : p.Advances) {t s : Text}
    (h : ∀ u, u ≠ [] → u <:+ t →
      p none (u ++ s) = (p none u).map fun (value, rest) => (value, rest ++ s)) :
    pieces p (t ++ s) = pieces p t ++ pieces p s := by
  refine pieces_append_of_decided hp fun c u hu => ?_
  have happend := h (c :: u) (List.cons_ne_nil c u) hu
  cases hfound : p none (c :: u) with
  | none => exact .inl ⟨rfl, by simpa [hfound] using happend⟩
  | some found =>
    obtain ⟨value, rest⟩ := found
    obtain ⟨taken, hsplit, htakes⟩ := hadvances.exists_takes hfound
    refine .inr ⟨taken, rest, value, hsplit, htakes, htakes.1, ?_⟩
    rw [← List.append_assoc, ← hsplit, happend, hfound, Option.map_some]

/-! ## Replacing and finding -/

section

variable (hp : p.IsForward) {t s : Text}

include hp

/-- What a pattern takes is replaced by one value. -/
theorem replaceAll_append_of_takes (f : α → Text) {value : α} (h : p.Takes t s value) :
    replaceAll p f (t ++ s) = f value ++ replaceAll p f s := by
  rw [replaceAll_eq, replaceAll_eq, pieces_append_of_takes hp h, List.flatMap_cons]
  rfl

/-- What a pattern takes gives one value. -/
theorem findAll_append_of_takes {value : α} (h : p.Takes t s value) :
    findAll p (t ++ s) = value :: findAll p s := by
  unfold findAll
  rw [pieces_append_of_takes hp h]
  rfl

/-- Where a pattern refuses, nothing is replaced. -/
theorem replaceAll_append_of_refuses (f : α → Text) (h : p.Refuses t s) :
    replaceAll p f (t ++ s) = t ++ replaceAll p f s := by
  rw [replaceAll_eq, replaceAll_eq, pieces_append_of_refuses hp h, List.flatMap_append,
    flatMap_replaced_map_loose]

/-- Where a pattern refuses, nothing is found. -/
theorem findAll_append_of_refuses (h : p.Refuses t s) : findAll p (t ++ s) = findAll p s := by
  unfold findAll
  rw [pieces_append_of_refuses hp h, List.filterMap_append, filterMap_value?_map_loose,
    List.nil_append]

/-- What a pattern takes is erased. -/
theorem eraseAll_append_of_takes {value : α} (h : p.Takes t s value) :
    eraseAll p (t ++ s) = eraseAll p s :=
  replaceAll_append_of_takes hp _ h

/-- Where a pattern refuses, nothing is erased. -/
theorem eraseAll_append_of_refuses (h : p.Refuses t s) : eraseAll p (t ++ s) = t ++ eraseAll p s :=
  replaceAll_append_of_refuses hp _ h

theorem eraseAll_cons_of_none {c : Char} (h : p none (c :: s) = none) :
    eraseAll p (c :: s) = c :: eraseAll p s :=
  eraseAll_append_of_refuses hp (t := [c]) ⟨h, trivial⟩

/-- Erasing goes side by side, if what follows a text has no part in what is found in it. -/
theorem eraseAll_append_of_decided
    (h : ∀ c u, c :: u <:+ t → (p none (c :: u) = none ∧ p none (c :: (u ++ s)) = none) ∨
      ∃ taken rest value, c :: u = taken ++ rest ∧ p.Takes taken rest value ∧
        p.Takes taken (rest ++ s) value) :
    eraseAll p (t ++ s) = eraseAll p t ++ eraseAll p s := by
  unfold eraseAll replaceAll
  rw [pieces_append_of_decided hp h, List.flatMap_append]

end

/-- A text begins as it did, or with what has been put in the place of a match. -/
theorem head?_replaceAll {f : α → Text} (hf : ∀ value, f value ≠ []) (s : Text) :
    (replaceAll p f s).head? = s.head? ∨ ∃ value, (replaceAll p f s).head? = (f value).head? := by
  rw [replaceAll_eq]
  conv => lhs; rhs; rw [← flatMap_text_pieces p s]
  cases pieces p s with
  | nil => exact .inl rfl
  | cons piece ps =>
    cases piece with
    | loose c => exact .inl rfl
    | found value taken =>
      exact .inr ⟨value, by rw [List.flatMap_cons]; exact List.head?_append_of_ne_nil _ (hf value)⟩

/-- A text ends as it did, or with what has been put in the place of a match. -/
theorem getLast?_replaceAll {f : α → Text} (hf : ∀ value, f value ≠ []) (s : Text) :
    (replaceAll p f s).getLast? = s.getLast? ∨
      ∃ value, (replaceAll p f s).getLast? = (f value).getLast? := by
  rw [replaceAll_eq]
  conv => lhs; rhs; rw [← flatMap_text_pieces p s]
  rcases List.eq_nil_or_concat (pieces p s) with hps | ⟨ps, piece, hps⟩
  · exact .inl (by rw [hps]; rfl)
  · rw [hps, List.concat_eq_append, List.flatMap_append, List.flatMap_append, List.flatMap_singleton,
      List.flatMap_singleton]
    cases piece with
    | loose c => exact .inl (by simp [Piece.text, Piece.replaced])
    | found value taken => exact .inr ⟨value, List.getLast?_append_of_ne_nil _ (hf value)⟩

/-- What is found stands somewhere in the text. -/
theorem exists_of_mem_piecesFrom {skip : Nat} {before : Option Char}
    {s : Text} {value : α} {taken : Text} (h : Piece.found value taken ∈ piecesFrom p skip before s) :
    ∃ front back rest, s = front ++ back ∧ p (front.getLast?.or before) back = some (value, rest) := by
  -- one character further on, what is found has that character in front of it
  have hcons {c : Char} {s : Text} {before : Option Char}
      (h : ∃ front back rest, s = front ++ back ∧
        p (front.getLast?.or (some c)) back = some (value, rest)) :
      ∃ front back rest, c :: s = front ++ back ∧
        p (front.getLast?.or before) back = some (value, rest) := by
    obtain ⟨front, back, rest, rfl, hp⟩ := h
    exact ⟨c :: front, back, rest, rfl, by rwa [getLast?_cons_or]⟩
  fun_induction piecesFrom p skip before s with
  | case1 => cases h
  | case2 skip before c s ih => exact hcons (ih h)
  | case3 before c s value' rest hmatch ih =>
    rcases List.mem_cons.1 h with heq | h
    · obtain ⟨rfl, -⟩ := Piece.found.inj heq
      exact ⟨[], c :: s, rest, rfl, hmatch⟩
    · exact hcons (ih h)
  | case4 before c s hmatch ih =>
    rcases List.mem_cons.1 h with heq | h
    · cases heq
    · exact hcons (ih h)

/-- The value of a match is found in what stands behind some place of the text. -/
theorem exists_of_mem_findAll {s : Text} {value : α} (h : value ∈ findAll p s) :
    ∃ before back rest, back <:+ s ∧ p before back = some (value, rest) := by
  obtain ⟨piece, hpiece, hvalue⟩ := List.mem_filterMap.1 h
  cases piece with
  | loose c => cases hvalue
  | found value' taken =>
    obtain rfl := Option.some.inj hvalue
    obtain ⟨front, back, rest, rfl, hp⟩ := exists_of_mem_piecesFrom hpiece
    exact ⟨_, back, rest, List.suffix_append front back, hp⟩

/-- What is left was there. -/
theorem mem_of_mem_eraseAll {c : Char} {s : Text} (h : c ∈ eraseAll p s) : c ∈ s := by
  obtain ⟨piece, hpiece, hc⟩ := List.mem_flatMap.1 h
  rw [← flatMap_text_pieces p s]
  refine List.mem_flatMap.2 ⟨piece, hpiece, ?_⟩
  cases piece with
  | loose => exact hc
  | found => exact absurd hc List.not_mem_nil

end Scaffold.Text
