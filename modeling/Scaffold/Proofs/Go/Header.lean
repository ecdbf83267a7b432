import Scaffold.Proofs.Go.Tiling

/-!
# Headers

The lexemes of a header are read as one again, whatever follows them but another import
(`IsHeader.headerLength?_append`), and the reader of a file that starts with a header finds the functions
and texts of the tiles behind it (`ofLexemes_tiled`). Where brackets outside functions are nested, a
header ends before the first function (`headerLength?_le`).
-/

namespace Scaffold.Go

open Text

/-! ## Reading a header again -/

/-- Where the reader of a header stands behind a lexeme that is neither white space nor a comment; it
stops where there is no next state. -/
def headerStep : HeaderState → Lexeme → Option HeaderState
  | .start, l => if l.isWord "package".toList then some .package else none
  | .package, l => if l.kind = .word then some .clause else none
  | .clause, l => if l.isWord "import".toList then some .keyword else none
  | .keyword, l =>
    if l.kind = .mark '(' then some (.list 0) else if l.kind = .literal then some .clause
    else some .name
  | .name, l => if l.kind = .literal then some .clause else none
  | .list depth, l =>
    if l.kind = .mark '(' then some (.list (depth + 1))
    else if l.kind = .mark ')' then
      match depth with
      | 0 => some .clause
      | depth + 1 => some (.list depth)
    else some (.list depth)

/-- Only behind a clause does an import start. -/
theorem eq_clause_of_headerStep {state : HeaderState} {l : Lexeme}
    (h : headerStep state l = some .keyword) : state = .clause := by
  cases state with
  | clause => rfl
  | start | package | keyword | name => simp only [headerStep] at h; split_ifs at h <;> cases h
  | list depth => cases depth <;> simp only [headerStep] at h <;> split_ifs at h <;> cases h

/-- White space and comments are passed. -/
theorem headerLength?_cons_trivia {l : Lexeme} (h : l.isTrivia) (state : HeaderState)
    (seen done : Nat) (ls : List Lexeme) :
    headerLength? state seen done (l :: ls) = headerLength? state (seen + 1) done ls := by
  rw [headerLength?.eq_def]
  simp only [h, if_true]

/-- A lexeme of code takes the header one step on, or ends it. -/
theorem headerLength?_cons {l : Lexeme} (h : l.isTrivia = false) (state : HeaderState)
    (seen done : Nat) (ls : List Lexeme) :
    headerLength? state seen done (l :: ls) =
      match headerStep state l with
      | some next =>
        headerLength? next (seen + 1) (if next = .clause then seen + 1 else done) ls
      | none => if state = .clause then some done else none := by
  rw [headerLength?.eq_def]
  simp only [h, Bool.false_eq_true, if_false]
  cases state with
  | start | package | clause | keyword | name => simp only [headerStep]; split_ifs <;> simp_all
  | list depth => cases depth <;> simp only [headerStep] <;> split_ifs <;> simp_all

/-- Any white space and comments are passed. -/
theorem headerLength?_trivia_append {ts : List Lexeme} (hts : ∀ l ∈ ts, l.isTrivia)
    (state : HeaderState) (seen done : Nat) (rest : List Lexeme) :
    headerLength? state seen done (ts ++ rest) =
      headerLength? state (seen + ts.length) done rest := by
  induction ts generalizing seen with
  | nil => rfl
  | cons l ts ih =>
    rw [List.cons_append, headerLength?_cons_trivia (hts l (by simp)),
      ih (fun m hm => hts m (by simp [hm])), List.length_cons, Nat.add_assoc, Nat.add_comm 1]

theorem headerLength?_trivia {space : List Lexeme} (hspace : ∀ l ∈ space, l.isTrivia) (state : HeaderState)
    (seen done : Nat) :
    headerLength? state seen done space = headerLength? state (seen + space.length) done [] := by
  rw [← headerLength?_trivia_append hspace, List.append_nil]

/-- A list of imports goes up to the parenthesis that closes it. -/
theorem headerLength?_list_eq (depth seen done : Nat) (ls : List Lexeme) :
    headerLength? (.list depth) seen done ls =
      (splitClose '(' ')' depth ls).bind fun (inside, rest) =>
        headerLength? .clause (seen + inside.length + 1) (seen + inside.length + 1) rest := by
  -- the depth of the state is that of the split, step by step
  induction ls generalizing depth seen with
  | nil => rfl
  | cons l ls ih =>
    have hlen (inside : List Lexeme) : seen + (l :: inside).length + 1 = seen + 1 + inside.length + 1 := by
      rw [List.length_cons]
      omega
    by_cases hl : l.isTrivia
    · rw [headerLength?_cons_trivia hl, ih, splitClose_cons_of_ne (isTrivia_kind hl ')'),
        if_neg (isTrivia_kind hl '('), Option.bind_map]
      simp only [Function.comp_def, hlen]
    · rw [headerLength?_cons (by simpa using hl)]
      by_cases hclose : l.kind = .mark ')'
      · cases depth with
        | zero =>
          rw [splitClose_cons_zero hclose]
          simp [headerStep, hclose]
        | succ depth =>
          rw [splitClose_cons_succ hclose, Option.bind_map]
          simp only [headerStep, hclose, Function.comp_def, hlen]
          simp [ih]
      · rw [splitClose_cons_of_ne hclose, Option.bind_map]
        simp only [headerStep, hclose, Function.comp_def, hlen, if_false]
        split_ifs <;> simp [ih]

/-- Behind a clause the header goes on only with another import. -/
theorem headerLength?_clause {rest : List Lexeme}
    (h : ∀ l ∈ (code rest).head?, l.isWord "import".toList = false) (seen done : Nat) :
    headerLength? .clause seen done rest = some done := by
  induction rest generalizing seen with
  | nil => rfl
  | cons l rest ih =>
    rw [code_cons] at h
    by_cases hl : l.isTrivia
    · rw [headerLength?_cons_trivia hl]
      exact ih (by simpa [hl] using h) (seen + 1)
    · have hword : l.isWord "import".toList = false := h l (by simp [hl])
      have hstep : headerStep .clause l = none := by
        rw [headerStep, hword]
        rfl
      rw [headerLength?_cons (by simpa using hl), hstep]
      rfl

/-- What was read of a header, up to the lexeme that completes its last clause, is read again whatever
follows. -/
theorem headerLength?_cut {state : HeaderState} {seen done n : Nat} {ls : List Lexeme}
    (h : headerLength? state seen done ls = some n) :
    (n = done ∧ (state = .clause ∨ state = .keyword)) ∨
      ∃ front l rest, ls = front ++ l :: rest ∧ l.isTrivia = false ∧ n = seen + front.length + 1 ∧
        ∀ rest', headerLength? state seen done (front ++ l :: rest') =
          headerLength? .clause n n rest' := by
  -- a lexeme either completes a clause, and what is behind it does not matter, or the cut lies behind it
  induction ls generalizing state seen done with
  | nil =>
    cases state <;> simp [headerLength?] at h <;> simp [h]
  | cons l ls ih =>
    by_cases hl : l.isTrivia
    · rw [headerLength?_cons_trivia hl] at h
      rcases ih h with hdone | ⟨front, m, rest, rfl, hm, rfl, hread⟩
      · exact .inl hdone
      · refine .inr ⟨l :: front, m, rest, rfl, hm, by rw [List.length_cons]; omega, ?_⟩
        intro rest'
        rw [List.cons_append, headerLength?_cons_trivia hl, hread]
    · have hl' : l.isTrivia = false := by simpa using hl
      rw [headerLength?_cons hl'] at h
      cases hstep : headerStep state l with
      | none =>
        simp only [hstep] at h
        split_ifs at h with hstate
        exact .inl ⟨(Option.some.inj h).symm, .inl hstate⟩
      | some next =>
        simp only [hstep] at h
        rcases ih h with ⟨hdone, hnext⟩ | ⟨front, m, rest, rfl, hm, rfl, hread⟩
        · by_cases hclause : next = .clause
          · -- this lexeme completes the last clause
            subst hclause
            simp only [if_true] at hdone
            refine .inr ⟨[], l, ls, rfl, hl', by simpa using hdone, fun rest' => ?_⟩
            rw [List.nil_append, headerLength?_cons hl', hstep, hdone]
            simp
          · rw [if_neg hclause] at hdone
            refine .inl ⟨hdone, .inl ?_⟩
            obtain rfl : next = .keyword := hnext.resolve_left hclause
            exact eq_clause_of_headerStep hstep
        · refine .inr ⟨l :: front, m, rest, rfl, hm, by rw [List.length_cons]; omega, ?_⟩
          intro rest'
          rw [List.cons_append, headerLength?_cons hl', hstep]
          exact hread rest'

/-- The lexemes of a header: they are read as one, whatever follows, up to the end of the last clause,
and the second of their code names the package. -/
structure IsHeader (header : List Lexeme) (package : Text) : Prop where
  reads : ∀ rest, headerLength? .start 0 0 (header ++ rest) =
    headerLength? .clause header.length header.length rest
  names : ∃ keyword name more, code header = keyword :: name :: more ∧
    keyword.isWord "package".toList ∧ name.kind = .word ∧ name.text = package
  ends : ∃ front l, header = front ++ [l] ∧ l.isTrivia = false

/-- A header is read up to its end if no import follows. -/
theorem IsHeader.headerLength?_append {header rest : List Lexeme} {package : Text}
    (h : IsHeader header package)
    (hrest : ∀ l ∈ (code rest).head?, l.isWord "import".toList = false) :
    headerLength? .start 0 0 (header ++ rest) = some header.length := by
  rw [h.reads, headerLength?_clause hrest]

/-- Behind the keyword of a package stands its name. -/
private theorem name_of_headerLength? {ls : List Lexeme} {seen n : Nat}
    (h : headerLength? .package seen 0 ls = some n) :
    ∃ name more, code ls = name :: more ∧ name.kind = .word := by
  induction ls generalizing seen with
  | nil => simp [headerLength?] at h
  | cons l ls ih =>
    by_cases hl : l.isTrivia
    · rw [headerLength?_cons_trivia hl] at h
      simpa [code_cons, hl] using ih h
    · by_cases hword : l.kind = .word
      · exact ⟨l, code ls, by simp [code_cons, hl], hword⟩
      · rw [headerLength?_cons (by simpa using hl)] at h
        simp [headerStep, hword] at h

/-- A header starts with the word `package` and a name. -/
theorem names_of_headerLength? {ls : List Lexeme} {seen n : Nat}
    (h : headerLength? .start seen 0 ls = some n) :
    ∃ keyword name more, code ls = keyword :: name :: more ∧ keyword.isWord "package".toList ∧
      name.kind = .word := by
  induction ls generalizing seen with
  | nil => simp [headerLength?] at h
  | cons l ls ih =>
    by_cases hl : l.isTrivia
    · rw [headerLength?_cons_trivia hl] at h
      simpa [code_cons, hl] using ih h
    · rw [headerLength?_cons (by simpa using hl)] at h
      by_cases hword : l.isWord "package".toList
      · simp only [headerStep, hword, if_true] at h
        obtain ⟨name, more, hcode, hkind⟩ := name_of_headerLength? h
        exact ⟨l, name, more, by simp [code_cons, hl, hcode], hword, hkind⟩
      · simp only [headerStep, hword] at h
        simp at h

/-- What the reader takes for a header is one. -/
theorem isHeader_of_headerLength? {ls : List Lexeme} {n : Nat}
    (h : headerLength? .start 0 0 ls = some n) :
    ∃ header rest package, ls = header ++ rest ∧ n = header.length ∧ IsHeader header package := by
  rcases headerLength?_cut h with ⟨-, hstate⟩ | ⟨front, l, rest, rfl, hl, hn, hread⟩
  · simp at hstate
  · have hlen : n = (front ++ [l]).length := by simp [hn]
    have hcut : front ++ l :: rest = (front ++ [l]) ++ rest := by simp
    have hself : headerLength? .start 0 0 (front ++ [l]) = some n := by
      rw [hread []]
      rfl
    obtain ⟨keyword, name, more, hcode, hkeyword, hkind⟩ := names_of_headerLength? hself
    refine ⟨front ++ [l], rest, name.text, hcut, hlen, ?_, ?_, ?_⟩
    · intro rest'
      rw [List.append_assoc, List.singleton_append, hread rest', ← hlen]
    · exact ⟨keyword, name, more, hcode, hkeyword, hkind, rfl⟩
    · exact ⟨front, l, rfl, hl⟩

/-! ## Files by their tiles -/

/-- The first gap of a tiling is what stands in front of the first function. -/
theorem slice_gap (front : List Lexeme) (t : Tile) (ts : List Tile) (last : List Lexeme) :
    slice (front ++ tiled (t :: ts) last) front.length (front.length + t.gap.length) = t.gap := by
  rw [slice, tiled_cons, List.append_assoc, List.take_length_add_append, List.drop_left,
    List.take_left]

/-- The texts between functions are those of the gaps. -/
theorem gapTexts_tiled (front : List Lexeme) (ts : List Tile) (last : List Lexeme) :
    gapTexts (front ++ tiled ts last) front.length (placedTiles front.length ts) =
      ts.map (fun t => textOf t.gap) ++ [textOf last] := by
  induction ts generalizing front with
  | nil => simp [placedTiles, gapTexts, tiled]
  | cons t ts ih =>
    rw [placedTiles, gapTexts, slice_gap, Nat.max_eq_right (Nat.le_add_right _ _),
      append_tiled_cons, ← List.length_append, ih]
    rfl

/-- No comment of a header belongs to what follows. -/
theorem IsHeader.leadFrom {header : List Lexeme} {package : Text} (h : IsHeader header package) :
    leadFrom 0 [] header = [] := by
  obtain ⟨front, l, rfl, hl⟩ := h.ends
  rw [leadFrom_append, Go.leadFrom, Go.leadFrom, carry_of_code hl]

/-- Behind a header the reader finds the functions of the tiles. -/
theorem placed_tiled {header : List Lexeme} {package : Text} {ts : List Tile}
    {last : List Lexeme} (hheader : IsHeader header package)
    (hquiet : Quiet 0 header (tiled ts last)) (hdepth : depthFrom 0 header = 0)
    (hts : Tiling ts last) :
    placed (header ++ tiled ts last) = placedTiles header.length ts := by
  rw [placed, placedFrom_append hquiet, hdepth, hheader.leadFrom, placedFrom_tiled hts,
    Nat.zero_add]

/-- The reader of a file finds its header, the functions of the tiles behind, and the texts of the
gaps. -/
theorem ofLexemes_tiled {header : List Lexeme} {package : Text} {ts : List Tile}
    {last : List Lexeme} (hheader : IsHeader header package)
    (himport : ∀ l ∈ (code (tiled ts last)).head?, l.isWord "import".toList = false)
    (hquiet : Quiet 0 header (tiled ts last)) (hdepth : depthFrom 0 header = 0)
    (hts : Tiling ts last) :
    File.ofLexemes (header ++ tiled ts last) =
      { header := some (textOf header), package := some package, functions := ts.map Tile.function
        declarations := ((ts.map (fun t => textOf t.gap) ++ [textOf last]).map trim).filter
          (· ≠ []) } := by
  have hlength := hheader.headerLength?_append himport
  have hplaced := placed_tiled hheader hquiet hdepth hts
  obtain ⟨keyword, name, more, hcode, -, -, rfl⟩ := hheader.names
  -- the name of the package is the second lexeme of code
  have hname : (code (header ++ tiled ts last)).map Lexeme.text =
      keyword.text :: name.text :: (more ++ code (tiled ts last)).map Lexeme.text := by
    rw [code_append, hcode]
    rfl
  rw [File.ofLexemes]
  simp only [hlength, hplaced, placedTiles_function, Option.map_some, Option.isSome_some, if_true,
    Option.getD_some, declarationTexts, gapTexts_tiled, List.take_left]
  congr 1
  exact (congrArg (·[1]?) hname)

/-! ## Headers in front of functions -/

/-- A step inside brackets either stays inside or closes the innermost of those around. -/
theorem nestStep_append {inner base pending : List Char} {l : Lexeme}
    (h : nestStep (inner ++ base) l = some pending) :
    (∃ inner', nestStep inner l = some inner' ∧ pending = inner' ++ base) ∨
      inner = [] ∧ ∃ c, base = c :: pending ∧ l.kind = .mark c := by
  -- a bracket that opens stays inside; one that closes does so for the innermost bracket
  rcases nestStep_eq_some_iff.1 h with
    ⟨c, hopen, rfl⟩ | ⟨c, hopen, hclose, hc, hcut⟩ | ⟨hopen, hclose, rfl⟩
  · exact .inl ⟨c :: inner, nestStep_eq_some_iff.2 (.inl ⟨c, hopen, rfl⟩), rfl⟩
  · cases inner with
    | nil => exact .inr ⟨rfl, c, hcut, hc⟩
    | cons d inner =>
      obtain ⟨rfl, rfl⟩ := List.cons.inj hcut
      exact .inl ⟨inner, nestStep_eq_some_iff.2 (.inr (.inl ⟨d, hopen, hclose, hc, rfl⟩)), rfl⟩
  · exact .inl ⟨inner, nestStep_eq_some_iff.2 (.inr (.inr ⟨hopen, hclose, rfl⟩)), rfl⟩

/-- Inside a list of imports its parenthesis is open, among the brackets that `pending` closes. -/
def HeaderState.Within : HeaderState → (pending : List Char) → Prop
  | .list depth, pending =>
    ∃ inner base, pending = inner ++ ')' :: base ∧ inner.count ')' = depth
  | _, _ => True

/-- A step of a header stays within the brackets that are open. -/
theorem HeaderState.Within.step {state next : HeaderState} {pending pending' : List Char}
    {l : Lexeme} (h : state.Within pending) (hnest : nestStep pending l = some pending')
    (hstep : headerStep state l = some next) : next.Within pending' := by
  -- the brackets only matter in a list, which its keyword opens
  cases next with
  | start | package | clause | keyword | name => trivial
  | list depth =>
    cases state with
    | start | package | clause | name =>
      simp only [headerStep] at hstep
      split_ifs at hstep
      all_goals cases hstep
    | keyword =>
      simp only [headerStep] at hstep
      split_ifs at hstep with hopen
      any_goals cases hstep
      obtain rfl : ')' :: pending = pending' := by
        simpa [nestStep, hopen, closing?] using hnest
      exact ⟨[], pending, rfl, rfl⟩
    | list depth' =>
      obtain ⟨inner, base, rfl, hcount⟩ := h
      rcases nestStep_append hnest with ⟨inner', hinner, rfl⟩ | ⟨rfl, c, hbase, hclose⟩
      · refine ⟨inner', base, rfl, ?_⟩
        have hrise := rise_of_nestStep (show IsPair '(' ')' from rfl) hinner
        rw [hcount] at hrise
        by_cases hclosing : l.kind = .mark ')'
        · cases depth' with
          | zero => simp [rise, hclosing] at hrise
          | succ depth' => simp_all [rise, headerStep]
        · by_cases hopening : l.kind = .mark '(' <;> simp_all [rise, headerStep]
      · -- the list itself is closed, so that its clause is complete
        obtain ⟨rfl, rfl⟩ := List.cons.inj hbase
        obtain rfl : depth' = 0 := hcount.symm
        simp [headerStep, hclose] at hstep

/-- The package that a header still has to name is not called like the keyword of functions. -/
def HeaderState.Named : HeaderState → List Lexeme → Prop
  | .start, ls => ∀ l ∈ (code ls)[1]?, l.text ≠ "func".toList
  | .package, ls => ∀ l ∈ (code ls).head?, l.text ≠ "func".toList
  | _, _ => True

/-- A step of a header keeps the name in sight. -/
theorem HeaderState.Named.step {state next : HeaderState} {l : Lexeme} {ls : List Lexeme}
    (h : state.Named (l :: ls)) (hl : l.isTrivia = false) (hstep : headerStep state l = some next) :
    next.Named ls := by
  have hcode : code (l :: ls) = l :: code ls := by rw [code_cons, if_neg (by simp [hl])]
  cases state with
  | start =>
    simp only [headerStep] at hstep
    split_ifs at hstep
    obtain rfl := Option.some.inj hstep
    simpa [HeaderState.Named, hcode, List.head?_eq_getElem?] using h
  | package | clause | keyword | name =>
    simp only [headerStep] at hstep
    split_ifs at hstep <;> obtain rfl := Option.some.inj hstep <;> trivial
  | list depth =>
    cases depth <;> simp only [headerStep] at hstep <;> split_ifs at hstep <;>
      obtain rfl := Option.some.inj hstep <;> trivial

/-- The code of a receiver is empty or starts with a parenthesis. -/
theorem IsReceiver.code {receiver : List Lexeme} (h : IsReceiver receiver) :
    code receiver = [] ∨ ∃ more, code receiver = markOf '(' :: more := by
  cases h with
  | none hspace => exact .inl (code_eq_nil_iff.2 hspace)
  | @group space inside after hspace hinside hafter =>
    have hopen : (markOf '(').isTrivia = false := rfl
    right
    rw [code_append, code_append, code_eq_nil_iff.2 hspace, code_cons, hopen]
    exact ⟨_, rfl⟩

/-- Behind `func` stands a name or a receiver, and no import path. -/
theorem Declaration.Valid.code_tail {d : Declaration} (h : d.Valid) (rest : List Lexeme) :
    ∃ l more, code (d.tail ++ rest) = l :: more ∧ l.kind ≠ .literal := by
  have htail : code (d.tail ++ rest) = code d.receiver ++ (d.name ::
      code (d.parameters ++ markOf '{' :: (d.body ++ [markOf '}']) ++ rest)) := by
    rw [Declaration.tail, List.append_assoc, List.cons_append, code_append, code_cons,
      word_not_isTrivia h.name]
    rfl
  rw [htail]
  rcases h.receiver.code with hnil | ⟨more, hmore⟩
  · rw [hnil]
    exact ⟨d.name, _, rfl, by simp [h.name]⟩
  · rw [hmore]
    exact ⟨markOf '(', _, rfl, by simp [markOf]⟩

/-- Behind the name that an import gives to its package, only a path goes on. -/
theorem headerLength?_name {ls more : List Lexeme} {l : Lexeme} (hcode : code ls = l :: more)
    (hl : l.kind ≠ .literal) (seen done : Nat) : headerLength? .name seen done ls = none := by
  induction ls generalizing seen with
  | nil => simp at hcode
  | cons m ls ih =>
    rw [code_cons] at hcode
    split_ifs at hcode with hm
    · rw [headerLength?_cons_trivia hm]
      exact ih hcode (seen + 1)
    · obtain ⟨rfl, -⟩ := List.cons.inj hcode
      rw [headerLength?_cons (by simpa using hm)]
      simp [headerStep, hl]

/-- The keyword of a function ends a header or spoils it. -/
theorem headerLength?_func {d : Declaration} (hd : d.Valid) {state : HeaderState}
    {seen done n : Nat} {rest : List Lexeme} (hwithin : state.Within [])
    (hnamed : state.Named (d.lexemes ++ rest))
    (h : headerLength? state seen done (d.lexemes ++ rest) = some n) : n = done := by
  have hcode : funcWord.isTrivia = false := rfl
  rw [Declaration.lexemes, List.cons_append, headerLength?_cons hcode] at h
  -- `func` ends a finished clause; anywhere else it spoils the header, or what follows it does
  cases state with
  | start => simp [headerStep, funcWord, Lexeme.isWord] at h
  | package =>
    refine absurd rfl (hnamed funcWord ?_)
    simp [Declaration.lexemes, code_cons, hcode]
  | clause =>
    have hdone : done = n := by simpa [headerStep, funcWord, Lexeme.isWord] using h
    exact hdone.symm
  | name => simp [headerStep, funcWord] at h
  | keyword =>
    obtain ⟨l, more, htail, hl⟩ := hd.code_tail rest
    have hstep : headerStep .keyword funcWord = some .name := rfl
    simp [hstep, headerLength?_name htail hl] at h
  | list depth =>
    obtain ⟨inner, base, heq, -⟩ := hwithin
    simp at heq

/-- A header ends in front of the first function. -/
private theorem headerLength?_le_of_within {d : Declaration} (hd : d.Valid) {state : HeaderState}
    {pending : List Char} {seen done n : Nat} {gap rest : List Lexeme}
    (hnest : nest pending gap = some []) (hwithin : state.Within pending)
    (hnamed : state.Named (gap ++ (d.lexemes ++ rest))) (hdone : done ≤ seen)
    (h : headerLength? state seen done (gap ++ (d.lexemes ++ rest)) = some n) :
    n ≤ seen + gap.length := by
  -- behind the gap no bracket is open, so that the keyword `func` is no import and ends the header
  induction gap generalizing state pending seen done with
  | nil =>
    obtain rfl : pending = [] := by simpa [nest] using hnest
    have hn := headerLength?_func hd hwithin hnamed h
    rw [List.length_nil]
    omega
  | cons l gap ih =>
    obtain ⟨pending', hstepNest, hnest'⟩ := Option.bind_eq_some_iff.1 hnest
    rw [List.cons_append] at h hnamed
    rw [List.length_cons]
    by_cases hl : l.isTrivia
    · rw [headerLength?_cons_trivia hl] at h
      obtain rfl : pending = pending' := by
        simpa [nestStep_of_isTrivia hl] using hstepNest
      have hnamed' : state.Named (gap ++ (d.lexemes ++ rest)) := by
        cases state with
        | start | package => simpa [HeaderState.Named, code_cons, hl] using hnamed
        | clause | keyword | name | list => trivial
      have hle := ih hnest' hwithin hnamed' (by omega) h
      omega
    · have hl' : l.isTrivia = false := by simpa using hl
      rw [headerLength?_cons hl'] at h
      cases hstep : headerStep state l with
      | none =>
        simp only [hstep] at h
        split_ifs at h
        obtain rfl := Option.some.inj h
        omega
      | some next =>
        simp only [hstep] at h
        have hnamed' := hnamed.step hl' hstep
        have hle := ih hnest' (hwithin.step hstepNest hstep) hnamed' (by split <;> omega) h
        omega

/-- Where the brackets in front of the first function are nested, a header ends before it. -/
theorem headerLength?_le {d : Declaration} (hd : d.Valid) {n : Nat} {gap rest : List Lexeme}
    (hnest : Nested gap)
    (hname : ∀ l ∈ (code (gap ++ (d.lexemes ++ rest)))[1]?, l.text ≠ "func".toList)
    (h : headerLength? .start 0 0 (gap ++ (d.lexemes ++ rest)) = some n) : n ≤ gap.length := by
  have hwithin : HeaderState.start.Within [] := trivial
  have hle := headerLength?_le_of_within hd hnest hwithin hname (Nat.le_refl 0) h
  omega

end Scaffold.Go
