import Scaffold.Proofs.Go.Loose

/-!
# Where the body of a function opens

The reader takes the first brace outside parentheses and brackets for the start of a body. Where all
brackets are nested, this is the first brace outside all brackets (`opening_unique`), and the body ends
where nesting says that it ends (`exists_close`). So what the reader takes for a function can be compared
with what was declared, bracket by bracket.
-/

namespace Scaffold.Go

/-! ## Groups in nested brackets -/

/-- With more groups open in front, more are open behind. -/
theorem rise_succ {opening closing : Char} {depth depth' : Nat} {ls : List Lexeme}
    (h : rise opening closing depth ls = some depth') :
    rise opening closing (depth + 1) ls = some (depth' + 1) := by
  induction ls generalizing depth with
  | nil =>
    obtain rfl : depth = depth' := Option.some.inj h
    rfl
  | cons l ls ih =>
    simp only [rise] at h ⊢
    by_cases hclose : l.kind = .mark closing
    · rw [if_pos hclose] at h ⊢
      cases depth with
      | zero => cases h
      | succ depth => exact ih h
    · rw [if_neg hclose] at h ⊢
      have hdepth : (if l.kind = .mark opening then depth + 1 + 1 else depth + 1) =
          (if l.kind = .mark opening then depth + 1 else depth) + 1 := by
        split_ifs <;> rfl
      rw [hdepth]
      exact ih h

/-- A closing mark takes off the bracket that it belongs to. -/
private theorem nestStep_close {opening closing : Char} (hpair : IsPair opening closing)
    {l : Lexeme} (hl : l.kind = .mark closing) (c : Char) (pending : List Char) :
    nestStep (c :: pending) l = if closing = c then some pending else none := by
  unfold nestStep
  rw [hl]
  rcases hpair.cases with ⟨-, rfl⟩ | ⟨-, rfl⟩ | ⟨-, rfl⟩ <;> simp [closing?, isClosing]

/-- A bracket that its own count never closes stays pending under all that opens later. -/
private theorem nestStep_base {opening closing : Char} {inner pending : List Char} {l : Lexeme}
    {depth : Nat}
    (hnest : nestStep (inner ++ [closing]) l = some pending)
    (hrise : rise opening closing (inner.count closing) [l] = some depth) :
    ∃ inner', nestStep inner l = some inner' ∧ pending = inner' ++ [closing] := by
  cases inner with
  | nil =>
    cases hopen : closing? l.kind with
    | some c =>
      obtain rfl : [c, closing] = pending := by simpa [nestStep, hopen] using hnest
      exact ⟨[c], by simp [nestStep, hopen], rfl⟩
    | none =>
      by_cases hclose : isClosing l.kind
      · -- the only mark that nesting lets through here is the one that the count refuses
        have hkind : l.kind = .mark closing := by
          by_contra hne
          simp [nestStep, hopen, hclose, hne] at hnest
        simp [rise, hkind] at hrise
      · obtain rfl : [closing] = pending := by simpa [nestStep, hopen, hclose] using hnest
        exact ⟨[], by simp [nestStep, hopen, hclose], rfl⟩
  | cons c inner =>
    cases hstep : nestStep (c :: inner) l with
    | some inner' =>
      rw [nestStep_frame hstep] at hnest
      exact ⟨inner', rfl, (Option.some.inj hnest).symm⟩
    | none =>
      -- a mark that does not fit the last bracket does not fit with more brackets below
      have hopen : closing? l.kind = none := by
        by_contra hne
        obtain ⟨d, hd⟩ := Option.ne_none_iff_exists'.1 hne
        simp [nestStep, hd] at hstep
      simp only [nestStep, hopen] at hstep
      split_ifs at hstep with hclose hc
      simp [nestStep, hopen, hclose, hc] at hnest

/-- A bracket that its own count never closes stays open under all that follows. -/
theorem nest_base {opening closing : Char} (hpair : IsPair opening closing) (inner : List Char)
    {pending : List Char} {ls : List Lexeme} {depth : Nat}
    (hnest : nest (inner ++ [closing]) ls = some pending)
    (hrise : rise opening closing (inner.count closing) ls = some depth) :
    ∃ inner', nest inner ls = some inner' ∧ pending = inner' ++ [closing] := by
  induction ls generalizing inner with
  | nil => exact ⟨inner, rfl, (Option.some.inj hnest).symm⟩
  | cons l ls ih =>
    obtain ⟨next, hstep, hrest⟩ := Option.bind_eq_some_iff.1 hnest
    rw [← List.singleton_append, rise_append] at hrise
    obtain ⟨middle, hfirst, hrise⟩ := Option.bind_eq_some_iff.1 hrise
    obtain ⟨inner', hinner, rfl⟩ := nestStep_base hstep hfirst
    have hcount := rise_of_nestStep hpair hinner
    obtain rfl : inner'.count closing = middle := by
      rw [hfirst] at hcount
      exact (Option.some.inj hcount).symm
    obtain ⟨inner'', hnest', rfl⟩ := ih inner' hrest hrise
    refine ⟨inner'', ?_, rfl⟩
    rw [nest, hinner]
    exact hnest'

/-- A group that ends by its own count ends by nesting, and is nested inside. -/
theorem nested_of_close {opening closing : Char} (hpair : IsPair opening closing)
    {inside rest : List Lexeme} {l : Lexeme} {pending : List Char} (hl : l.kind = .mark closing)
    (hrise : rise opening closing 0 inside = some 0)
    (hnest : nest [closing] (inside ++ l :: rest) = some pending) :
    Nested inside ∧ nest [] rest = some pending := by
  rw [nest_append] at hnest
  obtain ⟨middle, hinside, hrest⟩ := Option.bind_eq_some_iff.1 hnest
  obtain ⟨inner, hinner, rfl⟩ := nest_base hpair [] hinside hrise
  have hcount := rise_of_nest hpair hinner
  rw [List.count_nil, hrise, Option.some.injEq] at hcount
  obtain ⟨next, hstep, hrest⟩ := Option.bind_eq_some_iff.1 hrest
  -- were another bracket pending, the closing mark would not fit
  cases inner with
  | nil =>
    rw [List.nil_append, nestStep_close hpair hl, if_pos rfl] at hstep
    obtain rfl : [] = next := Option.some.inj hstep
    exact ⟨hinner, hrest⟩
  | cons c inner =>
    rw [List.cons_append, nestStep_close hpair hl] at hstep
    split_ifs at hstep with hc
    simp [← hc] at hcount

/-- A group that nesting closes does not stay open by its own count. -/
private theorem not_nest_of_rise {opening closing : Char} (hpair : IsPair opening closing)
    {ls more : List Lexeme} {depth : Nat} (hrise : rise opening closing 0 (ls ++ more) = some depth) :
    nest [closing] ls ≠ some [] := by
  intro hnest
  rw [rise_append] at hrise
  obtain ⟨middle, hfront, -⟩ := Option.bind_eq_some_iff.1 hrise
  have hcount := rise_of_nest hpair hnest
  rw [List.count_cons_self, List.count_nil, rise_succ hfront] at hcount
  simp at hcount

/-- What a group takes in by its own count lies inside what nesting closes. -/
theorem exists_close {opening closing : Char} (hpair : IsPair opening closing)
    {ls more inside rest : List Lexeme} {l : Lexeme} (hl : l.kind = .mark closing)
    (hrise : rise opening closing 0 inside = some 0) (hnest : nest [closing] ls = some [])
    (h : inside ++ l :: rest = ls ++ more) :
    ∃ behind, ls = inside ++ l :: behind ∧ Nested inside ∧ Nested behind ∧ rest = behind ++ more := by
  rcases List.append_eq_append_iff.1 h with ⟨tail, rfl, htail⟩ | ⟨tail, rfl, -⟩
  · cases tail with
    | nil =>
      rw [List.append_nil] at hnest
      exact absurd hnest (not_nest_of_rise hpair (by rwa [List.append_nil inside]))
    | cons m behind =>
      obtain ⟨rfl, rfl⟩ := List.cons.inj htail
      obtain ⟨hinside, hbehind⟩ := nested_of_close hpair hl hrise hnest
      exact ⟨behind, rfl, hinside, hbehind, rfl⟩
  · exact absurd hnest (not_nest_of_rise hpair hrise)

/-! ## The first brace -/

/-- No brace opens outside brackets. -/
def Braceless (ls : List Lexeme) : Prop := ∀ l ∈ surface ls, l.kind ≠ .mark '{'

/-- Nested brackets have no brace on the surface, or a first one. -/
private theorem exists_brace_of_nest {pending : List Char} {ls : List Lexeme}
    (h : nest pending ls = some []) :
    (∀ l ∈ surfaceFrom pending.length ls, l.kind ≠ .mark '{') ∨
      ∃ front l behind, ls = front ++ l :: behind ∧ l.kind = .mark '{' ∧
        nest pending front = some [] ∧
        (∀ m ∈ surfaceFrom pending.length front, m.kind ≠ .mark '{') ∧
        nest ['}'] behind = some [] := by
  induction ls generalizing pending with
  | nil =>
    left
    cases pending <;> simp [surfaceFrom]
  | cons l ls ih =>
    obtain ⟨next, hstep, hrest⟩ := Option.bind_eq_some_iff.1 h
    by_cases hbrace : pending = [] ∧ l.kind = .mark '{'
    · obtain ⟨rfl, hkind⟩ := hbrace
      obtain rfl : ['}'] = next := by simpa [nestStep, hkind, closing?] using hstep
      exact .inr ⟨[], l, ls, rfl, hkind, rfl, by simp [surfaceFrom], hrest⟩
    · -- the first lexeme is not the brace that is looked for
      have hcons {ms : List Lexeme} (hms : ∀ m ∈ surfaceFrom next.length ms, m.kind ≠ .mark '{') :
          ∀ m ∈ surfaceFrom pending.length (l :: ms), m.kind ≠ .mark '{' := by
        rw [← nestStep_length hstep] at hms
        intro m hm
        cases pending with
        | nil =>
          rcases List.mem_cons.1 hm with rfl | hm
          · exact fun hkind => hbrace ⟨rfl, hkind⟩
          · exact hms m hm
        | cons c pending => exact hms m hm
      rcases ih hrest with hnone | ⟨front, m, behind, rfl, hkind, hnest, hsurface, hbehind⟩
      · exact .inl (hcons hnone)
      · refine .inr ⟨l :: front, m, behind, rfl, hkind, ?_, hcons hsurface, hbehind⟩
        rw [nest, hstep]
        exact hnest

/-- The first brace that opens outside brackets. -/
theorem exists_brace {ls : List Lexeme} (h : Nested ls) :
    Braceless ls ∨ ∃ front l behind, ls = front ++ l :: behind ∧ l.kind = .mark '{' ∧
      Nested front ∧ Braceless front ∧ nest ['}'] behind = some [] :=
  exists_brace_of_nest h

/-! ## Receivers -/

/-- Inside a bracket nothing stands outside brackets. -/
private theorem surfaceFrom_of_nest {pending pending' : List Char} {ls : List Lexeme}
    (h : nest pending ls = some pending') : surfaceFrom (pending.length + 1) ls = [] := by
  induction ls generalizing pending with
  | nil => rfl
  | cons l ls ih =>
    obtain ⟨next, hstep, hrest⟩ := Option.bind_eq_some_iff.1 h
    have hdeeper := nestStep_length (nestStep_frame hstep [')'])
    rw [List.length_append, List.length_append, List.length_singleton] at hdeeper
    rw [surfaceFrom, hdeeper]
    exact ih hrest

/-- A group with nested brackets inside is nested, and shows only its opening bracket. -/
theorem nested_group {inside : List Lexeme} (h : Nested inside) :
    Nested (markOf '(' :: inside ++ [markOf ')']) ∧
      surface (markOf '(' :: inside ++ [markOf ')']) = [markOf '('] := by
  have hframe : nest [')'] inside = some [')'] := nest_frame h [')']
  have hdepth : depthFrom 1 inside = 1 := depthFrom_of_nest hframe
  constructor
  · show nest [')'] (inside ++ [markOf ')']) = some []
    rw [nest_append, hframe]
    rfl
  · show markOf '(' :: surfaceFrom 1 (inside ++ [markOf ')']) = _
    rw [surfaceFrom_append, hdepth, show surfaceFrom 1 inside = [] from surfaceFrom_of_nest h]
    rfl

/-- In nested brackets a receiver is nested, and no brace opens in it. -/
theorem IsReceiver.nested {receiver rest : List Lexeme} (h : IsReceiver receiver)
    {pending : List Char} (hnest : nest [] (receiver ++ rest) = some pending) :
    Nested receiver ∧ Braceless receiver := by
  have htrivia {space : List Lexeme} (hspace : ∀ l ∈ space, l.isTrivia) : Braceless space :=
    fun l hl => isTrivia_kind (hspace l (mem_of_mem_surfaceFrom hl)) '{'
  cases h with
  | none hspace => exact ⟨nested_of_isTrivia hspace, htrivia hspace⟩
  -- the parentheses of the receiver hide what is inside
  | @group space inside after hspace hinside hafter =>
    have hnestedSpace := nested_of_isTrivia hspace
    have hgroup : nest [')'] (inside ++ markOf ')' :: (after ++ rest)) = some pending := by
      simp only [List.append_assoc, List.cons_append] at hnest
      rw [nest_append, hnestedSpace] at hnest
      exact hnest
    obtain ⟨hnested, -⟩ := nested_of_close (show IsPair '(' ')' from rfl) rfl hinside hgroup
    obtain ⟨hclosed, hsurface⟩ := nested_group hnested
    have hcut : space ++ markOf '(' :: inside ++ markOf ')' :: after =
        space ++ ((markOf '(' :: inside ++ [markOf ')']) ++ after) := by simp
    rw [hcut]
    refine ⟨hnestedSpace.append (hclosed.append (nested_of_isTrivia hafter)), ?_⟩
    intro l hl
    rw [hnestedSpace.surface_append, hclosed.surface_append, hsurface] at hl
    rcases List.mem_append.1 hl with hl | hl
    · exact htrivia hspace l hl
    · rcases List.mem_append.1 hl with hl | hl
      · obtain rfl := List.mem_singleton.1 hl
        decide
      · exact htrivia hafter l hl

/-! ## Openings -/

/-- Behind nested brackets, no brace opens in both lists or in neither. -/
theorem braceless_append {ls ms : List Lexeme} (hls : Nested ls) :
    Braceless (ls ++ ms) ↔ Braceless ls ∧ Braceless ms := by
  rw [Braceless, hls.surface_append, List.forall_mem_append]
  rfl

/-- A lexeme behind nested brackets stands outside brackets. -/
theorem mem_surface_append {front behind : List Lexeme} (h : Nested front) (l : Lexeme) :
    l ∈ surface (front ++ l :: behind) := by
  rw [h.surface_append]
  exact List.mem_append_right _ (by simp [surface, surfaceFrom])

/-- A word opens and closes nothing. -/
private theorem nested_cons_word {l : Lexeme} (hl : l.kind = .word) (ls : List Lexeme) :
    (Nested (l :: ls) ↔ Nested ls) ∧ (Braceless (l :: ls) ↔ Braceless ls) := by
  have hone : Nested [l] := by simp [Nested, nest, nestStep, hl, closing?, isClosing]
  have hdeeper : deeper 0 l = 0 := by simp [deeper, hl, closing?, isClosing]
  constructor
  · rw [Nested, ← List.singleton_append, nest_append, hone]
    rfl
  · rw [Braceless, surface, surfaceFrom, hdeeper, List.forall_mem_cons]
    exact and_iff_right (by simp [hl])

/-- In nested brackets the body of a function opens at the first brace outside brackets. -/
theorem opening_unique {d : Declaration} (hreceiver : IsReceiver d.receiver)
    (hname : d.name.kind = .word) (hsink : sink 0 d.parameters = some 0)
    {front rest behind : List Lexeme} {l : Lexeme} {pending : List Char}
    (hnest : nest [] (d.opening ++ markOf '{' :: rest) = some pending) (hfront : Nested front)
    (hbraceless : Braceless front) (hl : l.kind = .mark '{')
    (h : d.opening ++ markOf '{' :: rest = front ++ l :: behind) :
    d.opening = front ∧ rest = behind := by
  have hword {m : Lexeme} (hm : m.kind = .word) : m ≠ l := by
    rintro rfl
    simp [hm] at hl
  cases front with
  | nil => exact absurd (List.cons.inj h).1 (hword rfl)
  | cons func front =>
    obtain ⟨rfl, htail⟩ := List.cons.inj h
    obtain ⟨hnestedFront, hbracelessFront⟩ := nested_cons_word (show funcWord.kind = .word from rfl) front
    have hfront' := hnestedFront.1 hfront
    have hbraceless' := hbracelessFront.1 hbraceless
    have hcut : d.receiver ++ d.name :: (d.parameters ++ markOf '{' :: rest) =
        front ++ l :: behind := by
      rw [← List.cons_append, ← List.append_assoc]
      exact htail
    have hnest' : nest [] (d.receiver ++ d.name :: (d.parameters ++ markOf '{' :: rest)) =
        some pending := by
      rw [← hnest, Declaration.opening, List.cons_append, List.append_assoc, List.cons_append]
      rfl
    obtain ⟨hnestedReceiver, hbracelessReceiver⟩ := hreceiver.nested hnest'
    -- the brace of `front` stands behind the receiver, or inside it, which has no brace on its surface
    rcases List.append_eq_append_iff.1 hcut with ⟨tail, rfl, hrest⟩ | ⟨tail, hinside, hrest⟩
    · cases tail with
      | nil => exact absurd (List.cons.inj hrest).1 (hword hname)
      | cons name parameters =>
        obtain ⟨rfl, hparameters⟩ := List.cons.inj hrest
        obtain ⟨hnestedName, hbracelessName⟩ :=
          nested_cons_word hname parameters
        have hnested : Nested parameters :=
          hnestedName.1 (hfront'.of_append hnestedReceiver.depthFrom).2
        have hsurface : Braceless parameters := by
          refine hbracelessName.1 fun m hm => hbraceless' m ?_
          rw [hnestedReceiver.surface_append]
          exact List.mem_append_right _ hm
        have hsplit : splitBody 0 (d.parameters ++ markOf '{' :: rest) =
            some (d.parameters, rest) := splitBody_eq_some_iff.2 ⟨_, rfl, rfl, hsink⟩
        have hsplit' : splitBody 0 (d.parameters ++ markOf '{' :: rest) =
            some (parameters, behind) :=
          splitBody_eq_some_iff.2 ⟨l, hparameters, hl, sink_of_nested hnested hsurface⟩
        rw [hsplit, Option.some.injEq, Prod.mk.injEq] at hsplit'
        obtain ⟨hparams, rfl⟩ := hsplit'
        exact ⟨by rw [Declaration.opening, hparams], rfl⟩
    · cases tail with
      | nil => exact absurd (List.cons.inj hrest).1.symm (hword hname)
      | cons m tail =>
        obtain ⟨rfl, -⟩ := List.cons.inj hrest
        apply absurd hl
        apply hbracelessReceiver
        rw [hinside]
        exact mem_surface_append hfront' l

/-! ## Declared functions -/

/-- A function with nested brackets. -/
structure Declaration.Nests (d : Declaration) : Prop where
  receiver : IsReceiver d.receiver
  receiver_nested : Nested d.receiver
  name : d.name.kind = .word
  parameters : Nested d.parameters
  body : Nested d.body

namespace Declaration.Nests

variable {d : Declaration} (h : d.Nests)
include h

/-- What opens a declaration is nested. -/
theorem opening : Nested d.opening := by
  apply (nested_cons_word rfl _).1.2
  apply h.receiver_nested.append
  exact (nested_cons_word h.name _).1.2 h.parameters

/-- A brace opens in front of the body only among the parameters and results. -/
theorem braceless_opening : Braceless d.opening ↔ Braceless d.parameters := by
  have hreceiver : Braceless d.receiver := by
    have hnest : nest [] (d.receiver ++ []) = some [] := by
      rw [List.append_nil]
      exact h.receiver_nested
    exact (h.receiver.nested hnest).2
  rw [Declaration.opening, (nested_cons_word rfl _).2, braceless_append h.receiver_nested,
    (nested_cons_word h.name _).2]
  exact and_iff_right hreceiver

/-- The body in its braces is nested. -/
theorem block : Nested (markOf '{' :: (d.body ++ [markOf '}'])) := by
  show nest ['}'] (d.body ++ [markOf '}']) = some []
  rw [nest_append, show nest ['}'] d.body = some ['}'] from nest_frame h.body ['}']]
  rfl

/-- A declaration is nested. -/
theorem lexemes : Nested d.lexemes := by
  rw [d.lexemes_eq]
  exact h.opening.append h.block

/-- A function is read if no brace opens outside brackets in front of its body. -/
theorem valid (hbraceless : Braceless d.parameters) : d.Valid where
  receiver := h.receiver
  name := h.name
  parameters := sink_of_nested h.parameters hbraceless
  body := rise_of_nest (show IsPair '{' '}' from rfl) h.body

end Declaration.Nests

/-- Where a function is read in nested brackets, its body opens at the first brace. -/
theorem Declaration.Valid.opening_unique {d : Declaration} (hd : d.Valid)
    {front rest behind : List Lexeme} {l : Lexeme} (hnest : Nested (d.lexemes ++ rest))
    (hfront : Nested front) (hbraceless : Braceless front) (hl : l.kind = .mark '{')
    (h : d.lexemes ++ rest = front ++ l :: behind) :
    d.opening = front ∧ markOf '{' = l ∧ d.body ++ markOf '}' :: rest = behind := by
  have hcut : d.lexemes ++ rest = d.opening ++ markOf '{' :: (d.body ++ markOf '}' :: rest) := by
    rw [d.lexemes_eq]
    simp
  rw [hcut] at hnest h
  obtain ⟨rfl, -⟩ :=
    Go.opening_unique hd.receiver hd.name hd.parameters hnest hfront hbraceless hl h
  exact ⟨rfl, List.cons.inj (List.append_cancel_left h)⟩

/-- A function that is read where nested brackets stand in front of a declared one either ends inside
these brackets or takes them and the declared function in. -/
theorem inside_or_swallowed {d declared : Declaration} (hd : d.Valid) (hdeclared : declared.Nests)
    (hbraceless : Braceless declared.parameters) {gap rest more : List Lexeme} (hgap : Nested gap)
    (hmore : Nested more) (h : d.lexemes ++ rest = gap ++ (declared.lexemes ++ more)) :
    (∃ behind, gap = d.lexemes ++ behind ∧ Nested behind ∧
        rest = behind ++ (declared.lexemes ++ more)) ∨
      d.lexemes = gap ++ declared.lexemes ∧ rest = more := by
  have hnest : Nested (d.lexemes ++ rest) := by
    rw [h]
    exact hgap.append (hdeclared.lexemes.append hmore)
  rcases exists_brace hgap with hnone | ⟨front, l, behind, rfl, hl, hfront, hfirst, hclose⟩
  · -- the first brace is the one that opens the declared body
    right
    have hcut : d.lexemes ++ rest = (gap ++ declared.opening) ++
        markOf '{' :: (declared.body ++ markOf '}' :: more) := by
      rw [h, declared.lexemes_eq]
      simp
    have hopening : Braceless (gap ++ declared.opening) :=
      (braceless_append hgap).2 ⟨hnone, hdeclared.braceless_opening.2 hbraceless⟩
    obtain ⟨heq, -, hbody⟩ :=
      hd.opening_unique hnest (hgap.append hdeclared.opening) hopening rfl hcut
    have hread : splitClose '{' '}' 0 (d.body ++ markOf '}' :: rest) = some (d.body, rest) :=
      splitClose_eq_some_iff.2 ⟨_, rfl, rfl, hd.body⟩
    have hrise := (hdeclared.valid hbraceless).body
    rw [hbody, splitClose_eq_some_iff.2 ⟨_, rfl, rfl, hrise⟩, Option.some.injEq,
      Prod.mk.injEq] at hread
    refine ⟨?_, hread.2.symm⟩
    rw [d.lexemes_eq, declared.lexemes_eq, heq, ← hread.1, List.append_assoc]
  · -- a brace opens in front of the declared function, and closes there
    left
    have hcut : d.lexemes ++ rest = front ++ l :: (behind ++ (declared.lexemes ++ more)) := by
      rw [h]
      simp
    obtain ⟨rfl, rfl, hbody⟩ := hd.opening_unique hnest hfront hfirst hl hcut
    obtain ⟨behind', rfl, -, hbehind, hrest⟩ :=
      exists_close (show IsPair '{' '}' from rfl) rfl hd.body hclose hbody
    refine ⟨behind', ?_, hbehind, hrest⟩
    rw [d.lexemes_eq]
    simp

/-- A declared function is read as a whole only if no brace opens outside brackets in front of its
body. -/
theorem Declaration.Nests.braceless {d declared : Declaration} (h : declared.Nests) (hd : d.Valid)
    (heq : d.lexemes = declared.lexemes) : Braceless declared.parameters := by
  rw [← h.braceless_opening]
  rcases exists_brace h.opening with hnone | ⟨front, l, behind, hcut, hl, hfront, hfirst, hclose⟩
  · exact hnone
  · exfalso
    have hnest : Nested (d.lexemes ++ []) := by
      rw [List.append_nil, heq]
      exact h.lexemes
    have hlexemes : d.lexemes ++ [] =
        front ++ l :: (behind ++ markOf '{' :: (declared.body ++ [markOf '}'])) := by
      rw [heq, declared.lexemes_eq, hcut]
      simp
    obtain ⟨-, -, hbody⟩ := hd.opening_unique hnest hfront hfirst hl hlexemes
    obtain ⟨behind', -, -, -, hrest⟩ :=
      exists_close (show IsPair '{' '}' from rfl) rfl hd.body hclose hbody
    simp at hrest

end Scaffold.Go
