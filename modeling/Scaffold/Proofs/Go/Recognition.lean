import Scaffold.Proofs.Go.Source

/-!
# Which declarations are recognised

The reader of files cuts a Go source into tiles in its own way. The declared functions cut it into tiles as
well, and the two ways are compared tile by tile. A function that is read where none is declared ends in
front of the next declared one or takes it in, so there are never fewer functions read than declared
(`length_le_of_tiling`); and if the functions read are those declared, each stands where it is declared
(`tiling_of_lexemes_eq`). In this way `functions_iff` finds the exact condition under which a source is read
as it is declared, and `parse_of_clear` says what is read then.
-/

namespace Scaffold.Go

open Text

/-! ## Two ways to cut lexemes into tiles -/

/-- A function is read at a keyword that a valid declaration starts with. -/
theorem Declaration.Valid.not_quiet {d : Declaration} (h : d.Valid) {inner rest more : List Lexeme}
    (htail : inner ++ rest = d.tail ++ more) : ¬Quiet 0 (funcWord :: inner) rest := by
  intro hquiet
  have hnone := hquiet.1 rfl rfl
  rw [htail, function?_append h] at hnone
  cases hnone

/-- What is read in front of a declared function ends there or takes it in. -/
theorem exists_inner {d declared : Declaration} (hd : d.Valid) (hdeclared : declared.Nests)
    (hbraceless : Braceless declared.parameters) {front gap rest more : List Lexeme}
    (hgap : Nested gap) (hmore : Nested more) (hquiet : Quiet 0 front (d.lexemes ++ rest))
    (hdepth : depthFrom 0 front = 0)
    (h : front ++ (d.lexemes ++ rest) = gap ++ (declared.lexemes ++ more)) :
    ∃ inner, gap = front ++ inner ∧
      ((∃ behind, Nested behind ∧ rest = behind ++ (declared.lexemes ++ more)) ∨
        d.lexemes = inner ++ declared.lexemes ∧ rest = more) := by
  rcases List.append_eq_append_iff.1 h with ⟨inner, rfl, hinner⟩ | ⟨inner, rfl, hinner⟩
  · refine ⟨inner, rfl, ?_⟩
    have hnested := (hgap.of_append hdepth).2
    rcases inside_or_swallowed hd hdeclared hbraceless hnested hmore hinner with
      ⟨behind, -, hbehind, hrest⟩ | hswallowed
    · exact .inl ⟨behind, hbehind, hrest⟩
    · exact .inr hswallowed
  · cases inner with
    | nil =>
      refine ⟨[], by simp, ?_⟩
      rcases inside_or_swallowed hd hdeclared hbraceless nested_nil hmore hinner.symm with
        ⟨behind, -, hbehind, hrest⟩ | hswallowed
      · exact .inl ⟨behind, hbehind, hrest⟩
      · exact .inr hswallowed
    | cons l inner =>
      -- the declared function would have been read before
      exfalso
      obtain ⟨rfl, htail⟩ := List.cons.inj hinner
      have hbehind := (quiet_append.1 hquiet).2
      rw [hgap.depthFrom] at hbehind
      exact (hdeclared.valid hbraceless).not_quiet htail.symm hbehind

/-- Tiles that hold declared functions, with nested brackets in and between them. -/
def Declares (us : List Tile) (last : List Lexeme) : Prop :=
  (∀ u ∈ us, Nested u.gap ∧ u.lead = [] ∧ u.declaration.Nests ∧ Braceless u.declaration.parameters) ∧
    Nested last

theorem Declares.tail {u : Tile} {us : List Tile} {last : List Lexeme} (h : Declares (u :: us) last) :
    Declares us last := ⟨fun v hv => h.1 v (by simp [hv]), h.2⟩

/-- Other lexemes can stand in front of a declared function. -/
theorem Declares.with_gap {u : Tile} {us : List Tile} {last gap : List Lexeme}
    (h : Declares (u :: us) last) (hgap : Nested gap) :
    Declares (⟨gap, [], u.declaration⟩ :: us) last := by
  refine ⟨fun v hv => ?_, h.2⟩
  rcases List.mem_cons.1 hv with rfl | hv
  · obtain ⟨-, -, hdeclared⟩ := h.1 u (by simp)
    exact ⟨hgap, rfl, hdeclared⟩
  · exact h.1 v (by simp [hv])

/-- Tiles that declare functions are nested. -/
theorem Declares.nested {us : List Tile} {last : List Lexeme} (h : Declares us last) :
    Nested (tiled us last) := by
  induction us with
  | nil => exact h.2
  | cons u us ih =>
    obtain ⟨hgap, hlead, hdeclared, -⟩ := h.1 u (by simp)
    rw [tiled_cons, hlead, List.append_nil]
    apply hgap.append
    apply hdeclared.lexemes.append
    exact ih h.tail

/-- No fewer functions are read than declared. -/
theorem length_le_of_tiling {ts us : List Tile} {last last' : List Lexeme} (hts : Tiling ts last)
    (hus : Declares us last') (h : tiled ts last = tiled us last') : us.length ≤ ts.length := by
  induction ts generalizing us with
  | nil =>
    cases us with
    | nil => exact Nat.le_refl 0
    | cons u us =>
      -- the first declared function would have been read
      exfalso
      obtain ⟨hgap, hlead, hdeclared, hbraceless⟩ := hus.1 u (by simp)
      have hquiet : Quiet 0 (tiled (u :: us) last') [] := h ▸ hts
      rw [tiled_cons, hlead, List.append_nil, quiet_append, hgap.depthFrom] at hquiet
      exact (hdeclared.valid hbraceless).not_quiet (List.append_nil _) hquiet.2
  | cons t ts ih =>
    cases us with
    | nil => exact Nat.zero_le _
    | cons u us =>
      obtain ⟨hgap, hlead, hdeclared, hbraceless⟩ := hus.1 u (by simp)
      obtain ⟨hfits, hts⟩ := hts
      rw [tiled_cons, tiled_cons, hlead, List.append_nil] at h
      obtain ⟨inner, -, ⟨behind, hbehind, hrest⟩ | ⟨-, hrest⟩⟩ := exists_inner hfits.valid
        hdeclared hbraceless hgap hus.tail.nested hfits.quiet hfits.depth h
      · -- the declared function is still to be read
        have hle := ih hts (hus.with_gap hbehind) (by rw [hrest, tiled_cons, List.append_nil])
        exact Nat.le_succ_of_le hle
      · exact Nat.succ_le_succ (ih hts hus.tail hrest)

/-- Where the functions read are those declared, they are read where they are declared. -/
theorem tiling_of_lexemes_eq {ts us : List Tile} {last last' : List Lexeme} (hts : Tiling ts last)
    (hus : Declares us last') (hlead : ∀ u ∈ us, leadFrom 0 [] u.gap = [])
    (h : tiled ts last = tiled us last')
    (hlexemes : ts.map (·.declaration.lexemes) = us.map (·.declaration.lexemes)) :
    Tiling us last' := by
  induction ts generalizing us with
  | nil =>
    obtain rfl : us = [] := by simpa using hlexemes.symm
    obtain rfl : last = last' := h
    exact hts
  | cons t ts ih =>
    cases us with
    | nil => simp at hlexemes
    | cons u us =>
      obtain ⟨hgap, hnone, hdeclared, hbraceless⟩ := hus.1 u (by simp)
      have hlead' : ∀ v ∈ us, leadFrom 0 [] v.gap = [] := fun v hv => hlead v (by simp [hv])
      obtain ⟨hfits, hts⟩ := hts
      have hfirst : t.declaration.lexemes = u.declaration.lexemes := (List.cons.inj hlexemes).1
      have hothers := (List.cons.inj hlexemes).2
      rw [tiled_cons, tiled_cons, hnone, List.append_nil] at h
      -- what is read first ends in front of the declared function, or takes it in
      obtain ⟨inner, hcut, ⟨behind, hbehind, hrest⟩ | ⟨hswallowed, hrest⟩⟩ := exists_inner
        hfits.valid hdeclared hbraceless hgap hus.tail.nested hfits.quiet hfits.depth h
      · -- a function too many was read, so that there are more of them in all
        exfalso
        have hle := length_le_of_tiling hts (hus.with_gap hbehind)
          (by rw [hrest, tiled_cons, List.append_nil])
        have hlen := congrArg List.length hothers
        simp only [List.length_map, List.length_cons] at hle hlen
        omega
      · obtain rfl : inner = [] := by
          have hlen := congrArg List.length hswallowed
          rw [List.length_append, hfirst] at hlen
          exact List.length_eq_zero_iff.1 (by omega)
        rw [List.append_nil] at hcut
        refine ⟨⟨hdeclared.valid hbraceless, ?_, ?_, ?_⟩, ih hts hus.tail hlead' hrest hothers⟩
        · rw [hnone, List.append_nil, hcut, ← hrest, ← hfirst]
          exact hfits.quiet
        · rw [hnone, List.append_nil, hgap.depthFrom]
        · rw [hnone, List.append_nil]
          exact hlead u (by simp)

/-! ## Where functions start -/

/-- To be quiet, one keyword after the other. -/
theorem quiet_of_forall {depth : Nat} {ls rest : List Lexeme}
    (h : ∀ front back, ls = front ++ funcWord :: back → depthFrom depth front = 0 →
      function? [] funcWord (back ++ rest) = none) : Quiet depth ls rest := by
  induction ls generalizing depth with
  | nil => trivial
  | cons l ls ih =>
    refine ⟨fun hdepth hl => ?_, ih fun front back hcut hfront => ?_⟩
    · exact h [] ls (by rw [hl, List.nil_append]) hdepth
    · exact h (l :: front) back (by rw [hcut, List.cons_append]) hfront

/-- No function is read in nested brackets exactly if none starts there. -/
theorem quiet_iff {ls behind : List Lexeme} (hnested : Nested ls)
    (hls : ∀ l ∈ ls ++ behind, l.IsShaped) : Quiet 0 ls behind ↔ ¬StartsFunction ls behind := by
  constructor
  · rintro hquiet ⟨front, back, d, rest, rfl, hfront, hd, htail⟩
    rw [quiet_append, hfront.depthFrom] at hquiet
    exact hd.not_quiet htail hquiet.2
  · intro h
    apply quiet_of_forall
    intro front back hcut hdepth
    -- what is read is a valid declaration, whose keyword is on the surface
    by_contra hsome
    obtain ⟨⟨f, rest⟩, hread⟩ := Option.ne_none_iff_exists'.1 hsome
    have hshaped : ∀ l ∈ back ++ behind, l.IsShaped := by
      intro l hl
      apply hls
      rw [hcut, List.append_assoc, List.cons_append]
      exact List.mem_append_right _ (List.mem_cons_of_mem _ hl)
    obtain ⟨d, hd, htail, -⟩ := (function?_eq_some_iff hshaped).1 hread
    have hfront : Nested front := ((hcut ▸ hnested : Nested (front ++ _)).of_append hdepth).1
    exact h ⟨front, back, d, rest, hcut, hfront, hd, htail⟩

/-! ## The tiles of a source -/

/-- The tiles that functions among declarations are in, where `gap` stands in front. -/
def tilesFrom : (gap : List Lexeme) → List (Lexeme × Item) → List Tile
  | _, [] => []
  | gap, (space, .function d) :: items => ⟨gap ++ [space], [], d⟩ :: tilesFrom [] items
  | gap, (space, .other ls) :: items => tilesFrom (gap ++ space :: ls) items

/-- What stands behind the last function. -/
def lastFrom (last : List Lexeme) : (gap : List Lexeme) → List (Lexeme × Item) → List Lexeme
  | gap, [] => gap ++ last
  | _, (_, .function _) :: items => lastFrom last [] items
  | gap, (space, .other ls) :: items => lastFrom last (gap ++ space :: ls) items

/-- The tiles of a source are its items. -/
theorem tiled_tilesFrom (last gap : List Lexeme) (items : List (Lexeme × Item)) :
    tiled (tilesFrom gap items) (lastFrom last gap items) = gap ++ listed items last := by
  induction items generalizing gap with
  | nil => rfl
  | cons i items ih =>
    obtain ⟨space, d | ls⟩ := i
    · rw [tilesFrom, lastFrom, tiled_cons, ih, listed_cons]
      simp [Item.lexemes]
    · rw [tilesFrom, lastFrom, ih, listed_cons]
      simp [Item.lexemes]

/-- They hold its functions. -/
theorem declarations_tilesFrom (gap : List Lexeme) (items : List (Lexeme × Item)) :
    (tilesFrom gap items).map Tile.declaration = items.filterMap (Item.function? ·.2) := by
  induction items generalizing gap with
  | nil => rfl
  | cons i items ih =>
    obtain ⟨space, d | ls⟩ := i
    · rw [tilesFrom, List.map_cons, ih]
      rfl
    · rw [tilesFrom, ih]
      rfl

/-- No comment stands above a function of them. -/
theorem lead_tilesFrom {gap : List Lexeme} {items : List (Lexeme × Item)} {u : Tile}
    (hu : u ∈ tilesFrom gap items) : u.lead = [] := by
  induction items generalizing gap with
  | nil => simp [tilesFrom] at hu
  | cons i items ih =>
    obtain ⟨space, d | ls⟩ := i
    · rcases List.mem_cons.1 hu with rfl | hu
      · rfl
      · exact ih hu
    · exact ih hu

/-- Declarations that are put together as they should be, with white space in front of each and
behind the last one. -/
structure AreProper (items : List (Lexeme × Item)) (last : List Lexeme) : Prop where
  space : ∀ i ∈ items, i.1.kind = .blank
  proper : ∀ i ∈ items, i.2.IsProper
  last : ∀ l ∈ last, l.kind = .blank

theorem AreProper.tail {i : Lexeme × Item} {items : List (Lexeme × Item)} {last : List Lexeme}
    (h : AreProper (i :: items) last) : AreProper items last where
  space := fun j hj => h.space j (by simp [hj])
  proper := fun j hj => h.proper j (by simp [hj])
  last := h.last

private theorem isTrivia_of_blank {l : Lexeme} (h : l.kind = .blank) : l.isTrivia := by
  simp [Lexeme.isTrivia, h]

private theorem isTrivia_space {space : Lexeme} (h : space.kind = .blank) :
    ∀ l ∈ [space], l.isTrivia := by
  simpa using isTrivia_of_blank h

/-- A gap grows by a declaration that is no function. -/
private theorem nested_other {gap ls : List Lexeme} {space : Lexeme} (hgap : Nested gap)
    (hspace : space.kind = .blank) (hls : IsOther ls) : Nested (gap ++ space :: ls) := by
  apply hgap.append
  rw [← List.singleton_append]
  exact (nested_of_isTrivia (isTrivia_space hspace)).append hls.nested

/-- No comments stand right behind a declaration that is no function. -/
private theorem leadFrom_other {gap ls : List Lexeme} {space : Lexeme} (hls : IsOther ls) :
    leadFrom 0 [] (gap ++ space :: ls) = [] := by
  obtain ⟨front, l, rfl, hl⟩ := hls.ends
  rw [show gap ++ space :: (front ++ [l]) = (gap ++ space :: front) ++ [l] by simp,
    leadFrom_append, leadFrom, leadFrom, carry_of_code hl]

/-- White space does not change that no comments are held. -/
private theorem leadFrom_space {gap : List Lexeme} {space : Lexeme} (hspace : space.kind = .blank)
    (hnested : Nested gap) (hgap : leadFrom 0 [] gap = []) : leadFrom 0 [] (gap ++ [space]) = [] := by
  rw [leadFrom_append, hnested.depthFrom, hgap]
  simp [leadFrom, carry, hspace]

/-- Declared functions are read where they are declared exactly if nothing is mistaken. -/
theorem tiling_tilesFrom {items : List (Lexeme × Item)} {last gap : List Lexeme}
    (h : AreProper items last) (hshaped : ∀ l ∈ listed items last, l.IsShaped) (hgap : Nested gap)
    (hlead : leadFrom 0 [] gap = []) :
    Tiling (tilesFrom gap items) (lastFrom last gap items) ↔
      Quiet 0 gap (listed items last) ∧ Clear last items := by
  -- `gap` collects what stands between two functions
  induction items generalizing gap with
  | nil =>
    have hlast : Quiet 0 last [] :=
      quiet_of_isTrivia (fun l hl => isTrivia_of_blank (h.last l hl)) 0 []
    show Quiet 0 (gap ++ last) [] ↔ Quiet 0 gap last ∧ True
    rw [quiet_append, hgap.depthFrom, List.append_nil]
    exact and_congr_right fun _ => iff_of_true hlast trivial
  | cons i items ih =>
    obtain ⟨space, d | ls⟩ := i
    · have hd : d.Nests := h.proper _ List.mem_cons_self
      have hspace : space.kind = .blank := h.space _ List.mem_cons_self
      have hquietSpace (rest : List Lexeme) : Quiet 0 [space] rest :=
        quiet_of_isTrivia (isTrivia_space hspace) 0 rest
      have hrest := ih h.tail (fun l hl => hshaped l (by simp [hl])) nested_nil rfl
      rw [tilesFrom, lastFrom, Tiling, hrest, Clear, tiled_tilesFrom, listed_cons]
      constructor
      · rintro ⟨⟨hvalid, hquiet, -, -⟩, -, hclear⟩
        rw [List.append_nil, quiet_append] at hquiet
        exact ⟨hquiet.1, hd.braceless hvalid rfl, hclear⟩
      · rintro ⟨hquiet, hbraceless, hclear⟩
        refine ⟨⟨hd.valid hbraceless, ?_, ?_, ?_⟩, trivial, hclear⟩
        · rw [List.append_nil, quiet_append, hgap.depthFrom]
          exact ⟨hquiet, hquietSpace _⟩
        · rw [List.append_nil, depthFrom_append, hgap.depthFrom]
          exact depthFrom_of_isTrivia (isTrivia_space hspace) 0
        · rw [List.append_nil]
          exact leadFrom_space hspace hgap hlead
    · have hls : IsOther ls := h.proper _ List.mem_cons_self
      have hspace : space.kind = .blank := h.space _ List.mem_cons_self
      have hrest := ih h.tail (fun l hl => hshaped l (by simp [hl]))
        (nested_other hgap hspace hls) (leadFrom_other hls)
      have hbehind : ∀ l ∈ ls ++ listed items last, l.IsShaped := by
        intro l hl
        apply hshaped
        rw [listed_cons]
        exact List.mem_cons_of_mem space hl
      have hword : space = funcWord → False := by
        rintro rfl
        cases hspace
      rw [tilesFrom, lastFrom, hrest, Clear, listed_cons, quiet_append, hgap.depthFrom, Quiet,
        deeper_of_isTrivia (isTrivia_of_blank hspace), quiet_iff hls.nested hbehind]
      constructor
      · rintro ⟨⟨hquiet, -, hstarts⟩, hclear⟩
        exact ⟨hquiet, hstarts, hclear⟩
      · rintro ⟨hquiet, hstarts, hclear⟩
        exact ⟨⟨hquiet, fun _ hfunc => (hword hfunc).elim, hstarts⟩, hclear⟩

/-- The tiles of a source declare its functions. -/
theorem declares_tilesFrom {items : List (Lexeme × Item)} {last gap : List Lexeme}
    (h : AreProper items last) (hgap : Nested gap)
    (hbraceless : ∀ d ∈ items.filterMap (Item.function? ·.2), Braceless d.parameters) :
    Declares (tilesFrom gap items) (lastFrom last gap items) := by
  -- A function ends the gap and starts a new one; another declaration becomes part of the gap.
  induction items generalizing gap with
  | nil =>
    have hlast : Nested last := nested_of_isTrivia fun l hl => isTrivia_of_blank (h.last l hl)
    exact ⟨by simp [tilesFrom], hgap.append hlast⟩
  | cons i items ih =>
    obtain ⟨space, d | ls⟩ := i
    · have hd : d.Nests := h.proper _ List.mem_cons_self
      have hspace : space.kind = .blank := h.space _ List.mem_cons_self
      have hfirst : Nested (gap ++ [space]) :=
        hgap.append (nested_of_isTrivia (isTrivia_space hspace))
      have hrest := ih h.tail nested_nil fun e he => hbraceless e (List.mem_cons_of_mem d he)
      refine ⟨fun u hu => ?_, hrest.2⟩
      rcases List.mem_cons.1 hu with rfl | hu
      · exact ⟨hfirst, rfl, hd, hbraceless d List.mem_cons_self⟩
      · exact hrest.1 u hu
    · have hls : IsOther ls := h.proper _ List.mem_cons_self
      have hspace : space.kind = .blank := h.space _ List.mem_cons_self
      exact ih h.tail (nested_other hgap hspace hls) hbraceless

/-- No comments stand right above the functions of a source. -/
theorem leadFrom_tilesFrom {items : List (Lexeme × Item)} {last gap : List Lexeme}
    (h : AreProper items last) (hgap : Nested gap) (hlead : leadFrom 0 [] gap = []) :
    ∀ u ∈ tilesFrom gap items, leadFrom 0 [] u.gap = [] := by
  induction items generalizing gap with
  | nil => simp [tilesFrom]
  | cons i items ih =>
    have hspace := h.space i List.mem_cons_self
    obtain ⟨space, d | ls⟩ := i
    · intro u hu
      rcases List.mem_cons.1 hu with rfl | hu
      · exact leadFrom_space hspace hgap hlead
      · exact ih h.tail nested_nil rfl u hu
    · have hls : IsOther ls := h.proper _ List.mem_cons_self
      exact ih h.tail (nested_other hgap hspace hls) (leadFrom_other hls)

/-! ## The texts between functions -/

/-- A gap holds a run of declarations, with white space in front of the first one. -/
inductive Holds : (gap run : List Lexeme) → Prop
  | nothing : Holds [] []
  | declarations {space : Lexeme} {run : List Lexeme} (hspace : space.kind = .blank)
      (hfirst : ∃ first rest, run = first :: rest ∧ first.kind ≠ .blank)
      (hlast : ∃ front last, run = front ++ [last] ∧ last.isTrivia = false) :
      Holds (space :: run) run

/-- A gap that goes on with another declaration. -/
theorem Holds.other {gap run ls : List Lexeme} {space : Lexeme} (h : Holds gap run)
    (hspace : space.kind = .blank) (hls : IsOther ls) :
    Holds (gap ++ space :: ls) (if run = [] then ls else run ++ space :: ls) := by
  obtain ⟨word, rest, hword, hkind, -⟩ := hls.keyword
  obtain ⟨front, last, hends, hlast⟩ := hls.ends
  cases h with
  | nothing => exact .declarations hspace ⟨word, rest, hword, by simp [hkind]⟩ ⟨front, last, hends, hlast⟩
  | @declarations space' run hspace' hfirst _ =>
    obtain ⟨first, rest', rfl, hkind'⟩ := hfirst
    rw [if_neg (List.cons_ne_nil _ _), List.cons_append]
    refine .declarations hspace' ⟨first, _, rfl, hkind'⟩ ⟨first :: rest' ++ space :: front, last, ?_, hlast⟩
    simp [hends]

/-- Without the white space around it, a gap has the text of the run that it holds. -/
theorem Holds.trim {gap run blanks : List Lexeme} {s : Text} (h : Holds gap run)
    (hblanks : ∀ l ∈ blanks, l.kind = .blank) (hreads : Reads (gap ++ blanks) s)
    (hsturdy : Sturdy (gap ++ blanks)) : Text.trim (textOf (gap ++ blanks)) = textOf run := by
  have hblank : ∀ c ∈ textOf blanks, isBlank c := by
    intro c hc
    obtain ⟨l, hl, hc⟩ := List.mem_flatMap.1 hc
    obtain ⟨s', hl'⟩ := hreads.exists_endsBefore l (List.mem_append_right gap hl)
    exact isBlank_of_isGap (hl'.blank_chars (hblanks l hl) c hc)
  cases h with
  | nothing => exact trim_eq_nil_iff.2 hblank
  | @declarations space run hspace hfirst hlast =>
    obtain ⟨first, rest, rfl, hkind⟩ := hfirst
    obtain ⟨front, last, hends, hcode⟩ := hlast
    -- the run begins behind one blank lexeme, and ends with code, which trimming leaves
    have hdrop : (space :: first :: rest ++ blanks).dropWhile (·.kind = .blank) =
        first :: rest ++ blanks := by
      rw [List.cons_append, List.dropWhile_cons_of_pos (by simpa using hspace), List.cons_append,
        List.dropWhile_cons_of_neg (by simpa using hkind)]
    have hmem : last ∈ space :: first :: rest ++ blanks := by
      rw [hends]
      simp
    obtain ⟨s', hreadsLast⟩ := hreads.exists_endsBefore last hmem
    have htrimmed : trimEnd last.text = last.text := by
      have hkindLast : last.kind ≠ .blank ∧ last.kind ≠ .comment := by
        simpa [Lexeme.isTrivia] using hcode
      obtain ⟨hclosed, hsolid⟩ := hsturdy last hmem
      rcases hreadsLast.trimEnd_text hclosed hsolid hkindLast.1 with ⟨tail, rfl, -⟩ | htrimmed
      · exact absurd rfl hkindLast.2
      · exact htrimmed
    have hne : trimEnd last.text ≠ [] := by
      rw [htrimmed]
      exact hreadsLast.text_ne_nil
    rw [Text.trim, trimStart_textOf hreads hsturdy, hdrop, textOf_append,
      trimEnd_append_of_blank hblank, hends, textOf_append, textOf_cons, textOf_nil,
      List.append_nil, trimEnd_append_of_ne_nil hne, htrimmed]

/-- The texts of the gaps of a source are those of its runs. -/
theorem trim_gaps {items : List (Lexeme × Item)} {last gap run : List Lexeme} {s : Text}
    (h : AreProper items last) (hholds : Holds gap run) (hreads : Reads (gap ++ listed items last) s)
    (hsturdy : Sturdy (gap ++ listed items last)) :
    (gaps (tilesFrom gap items) (lastFrom last gap items)).map (fun ls => Text.trim (textOf ls)) =
      (runs run items).map textOf := by
  -- `gap` and `run` hold the same declarations; a function ends both
  induction items generalizing gap run with
  | nil =>
    show [Text.trim (textOf (gap ++ last))] = [textOf run]
    rw [hholds.trim h.last hreads hsturdy]
  | cons i items ih =>
    obtain ⟨space, d | ls⟩ := i
    · have hspace : space.kind = .blank := h.space _ List.mem_cons_self
      have hcut : gap ++ listed ((space, .function d) :: items) last =
          (gap ++ [space]) ++ (d.lexemes ++ listed items last) := by
        simp [Item.lexemes]
      rw [hcut] at hreads hsturdy
      obtain ⟨hreadsGap, hreadsRest⟩ := reads_append.1 hreads
      have hrest := ih h.tail .nothing (reads_append.1 hreadsRest).2
        (hsturdy.subset fun l hl => by simp_all)
      have hfirst := hholds.trim (by simpa using hspace) hreadsGap
        (hsturdy.subset (List.subset_append_left _ _))
      rw [runs, List.map_cons, ← hfirst, ← hrest]
      rfl
    · have hls : IsOther ls := h.proper _ List.mem_cons_self
      have hspace : space.kind = .blank := h.space _ List.mem_cons_self
      have hcut : gap ++ listed ((space, .other ls) :: items) last =
          (gap ++ space :: ls) ++ listed items last := by
        simp [Item.lexemes]
      rw [hcut] at hreads hsturdy
      exact ih h.tail (hholds.other hspace hls) hreads hsturdy

/-! ## Sources -/

/-- A declaration starts with a keyword that is not that of imports. -/
theorem Item.IsProper.keyword {item : Item} (h : item.IsProper) :
    ∃ word rest, item.lexemes = word :: rest ∧ word.kind = .word ∧
      word.isWord "import".toList = false := by
  cases item with
  | function d => exact ⟨funcWord, d.tail, rfl, rfl, rfl⟩
  | other ls =>
    obtain ⟨word, rest, hcut, hkind, htext⟩ := IsOther.keyword h
    have hne : word.text ≠ "import".toList := by
      intro heq
      rw [heq] at htext
      exact absurd htext (by decide)
    exact ⟨word, rest, hcut, hkind, by rw [Lexeme.isWord, decide_eq_false hne, Bool.and_false]⟩

namespace Source.Spells

variable {src : Source} {s : Text} (h : src.Spells s)
include h

theorem areProper : AreProper src.items src.last := ⟨h.space, h.proper, h.last⟩

/-- What stands behind the clauses is read there. -/
theorem reads : Reads (listed src.items src.last) [] := by
  have hreads := reads_lex s
  rw [h.lex] at hreads
  exact (reads_append.1 hreads).2

theorem sturdy_listed : Sturdy (listed src.items src.last) := by
  apply h.sturdy.subset
  rw [h.lex]
  exact List.subset_append_right _ _

/-- No import stands behind the clauses. -/
theorem not_import :
    ∀ l ∈ (code (listed src.items src.last)).head?, l.isWord "import".toList = false := by
  have hlast : code src.last = [] := code_eq_nil_iff.2 fun l hl => isTrivia_of_blank (h.last l hl)
  cases hitems : src.items with
  | nil => simp [hlast]
  | cons i items =>
    have hspace := h.space i (by simp [hitems])
    obtain ⟨word, rest, hitem, hkind, hword⟩ := (h.proper i (by simp [hitems])).keyword
    have hcode : code (listed (i :: items) src.last) =
        word :: code (rest ++ listed items src.last) := by
      rw [listed_cons, code_cons, if_pos (isTrivia_of_blank hspace), hitem, List.cons_append,
        code_cons, word_not_isTrivia hkind]
      rfl
    intro l hl
    rw [hcode] at hl
    obtain rfl : word = l := by simpa using hl
    exact hword

/-- Where nothing is mistaken, a source is read as it is declared. -/
theorem parse_of_clear (hclear : Clear src.last src.items) :
    File.parse s =
      { header := some (textOf src.header), package := some src.package
        functions := src.functions.map (·.function none), declarations := src.texts } := by
  have himport := h.not_import
  have htiles := tiled_tilesFrom src.last [] src.items
  have htiling := (tiling_tilesFrom h.areProper h.reads.isShaped nested_nil rfl).2 ⟨trivial, hclear⟩
  have htexts := trim_gaps h.areProper .nothing h.reads h.sturdy_listed
  have hfunctions : (tilesFrom [] src.items).map Tile.function =
      src.functions.map (·.function none) := by
    rw [functions, ← declarations_tilesFrom [], List.map_map]
    refine List.map_congr_left fun u hu => ?_
    rw [Tile.function, lead_tilesFrom hu]
    rfl
  rw [List.nil_append] at htiles
  rw [← htiles] at himport
  rw [File.parse, h.lex, ← htiles,
    ofLexemes_tiled h.header.isHeader himport (h.header.loose.quiet _) h.header.loose.nested.depthFrom
      htiling, hfunctions, texts, ← htexts]
  simp [gaps, Function.comp_def]

/-- The functions of a file are read behind the clauses. -/
private theorem exists_functions : ∃ ts last, listed src.items src.last = tiled ts last ∧
    Tiling ts last ∧ (File.parse s).functions = ts.map Tile.function := by
  obtain ⟨ts, last, htiles, hts⟩ := exists_tiles _ h.reads.isShaped
  refine ⟨ts, last, htiles, hts, ?_⟩
  show (placed (Go.lex s)).map Placed.function = _
  rw [h.lex, htiles, placed_tiled h.header.isHeader (h.header.loose.quiet _)
    h.header.loose.nested.depthFrom hts, placedTiles_function]

/-- A declared function nests. -/
theorem nests {d : Declaration} (hd : d ∈ src.functions) : d.Nests := by
  obtain ⟨⟨space, item⟩, hitem, hd⟩ := List.mem_filterMap.1 hd
  cases item with
  | function e =>
    obtain rfl : e = d := Option.some.inj hd
    exact h.proper _ hitem
  | other ls => cases hd

/-- A declared function is read off its text. -/
private theorem lex_declared {d : Declaration} (hd : d ∈ src.functions) :
    Go.lex (textOf d.lexemes) = d.lexemes := by
  have htiles := tiled_tilesFrom src.last [] src.items
  have hreads := h.reads
  rw [← List.nil_append (listed _ _), ← htiles] at hreads
  rw [functions, ← declarations_tilesFrom []] at hd
  obtain ⟨u, hu, rfl⟩ := List.mem_map.1 hd
  obtain ⟨s', hreadsDecl⟩ := reads_declaration hreads hu
  rw [u.declaration.textOf_lexemes none]
  exact Declaration.lex_text hreadsDecl none

/-- The functions that are read have the texts of those declared exactly if nothing is mistaken. -/
theorem functions_iff :
    (File.parse s).functions.map (fun f => (f.name, f.text)) =
        src.functions.map (fun d => (d.name.text, textOf d.lexemes)) ↔
      Clear src.last src.items := by
  constructor
  · intro heq
    obtain ⟨ts, last, htiles, hts, hfunctions⟩ := h.exists_functions
    have hreads := htiles ▸ h.reads
    -- the tiles that were read have the texts of the declared functions, and so their lexemes
    have htexts : ts.map (·.function.text) = src.functions.map fun d => textOf d.lexemes := by
      have hsecond := congrArg (List.map Prod.snd) heq
      rw [hfunctions] at hsecond
      simpa [Function.comp_def] using hsecond
    have hlexemes : ts.map (·.declaration.lexemes) = src.functions.map Declaration.lexemes := by
      calc ts.map (·.declaration.lexemes)
          = (ts.map (·.function.text)).map Go.lex := by
            rw [List.map_map]
            refine List.map_congr_left fun t ht => ?_
            obtain ⟨s', hreadsDecl⟩ := reads_declaration hreads ht
            exact (Declaration.lex_text hreadsDecl _).symm
        _ = src.functions.map Declaration.lexemes := by
            rw [htexts, List.map_map]
            exact List.map_congr_left fun d hd => h.lex_declared hd
    -- a declared function with a brace among its parameters would be read with another end
    have hbraceless : ∀ d ∈ src.functions, Braceless d.parameters := by
      intro d hd
      have hmem : d.lexemes ∈ ts.map (·.declaration.lexemes) :=
        hlexemes ▸ List.mem_map_of_mem hd
      obtain ⟨t, ht, heqLexemes⟩ := List.mem_map.1 hmem
      exact (h.nests hd).braceless (hts.valid t ht) heqLexemes
    have hsource := tiled_tilesFrom src.last [] src.items
    rw [List.nil_append, htiles] at hsource
    have hdeclared : (tilesFrom [] src.items).map (·.declaration.lexemes) =
        src.functions.map Declaration.lexemes := by
      rw [functions, ← declarations_tilesFrom [], List.map_map]
      rfl
    have htiling := tiling_of_lexemes_eq hts (declares_tilesFrom h.areProper nested_nil hbraceless)
      (leadFrom_tilesFrom h.areProper nested_nil rfl) hsource.symm (hlexemes.trans hdeclared.symm)
    exact ((tiling_tilesFrom h.areProper h.reads.isShaped nested_nil rfl).1 htiling).2
  · intro hclear
    rw [h.parse_of_clear hclear, List.map_map]
    refine List.map_congr_left fun d _ => ?_
    exact congrArg _ (d.textOf_lexemes none).symm

end Source.Spells

end Scaffold.Go
