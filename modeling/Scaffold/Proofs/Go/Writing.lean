import Scaffold.Proofs.Go.Whole
import Scaffold.Proofs.Naming.Names

/-!
# Writing code

`Writes t before after next` says that a text is read as sturdy lexemes that turn the pending brackets
`before` into `after`, wherever a character follows on which `next` holds. Generated code is put together
from such texts (`Writes.append`), and `whole_of_writes` says when parts of this kind make a whole
function.
-/

namespace Scaffold.Go

open Text Naming

/-! ## Texts that are read as they are written -/

/-- A text that is read as sturdy lexemes in front of certain characters, with its effect on the pending
brackets. -/
def Writes (t : Text) (before after : List Char) (next : Char → Bool) : Prop :=
  ∃ ls, textOf ls = t ∧ Sturdy ls ∧ nest before ls = some after ∧
    ∀ (c : Char) (s : Text), next c → Reads ls (c :: s)

/-- What is written one after the other is read so, if the second part starts as the first one
admits. -/
theorem Writes.append {t u : Text} {before middle after : List Char} {next next' : Char → Bool}
    (ht : Writes t before middle next) (hu : Writes u middle after next')
    (hhead : u.head?.any next) : Writes (t ++ u) before after next' := by
  obtain ⟨ls, rfl, hls, hnest, hreads⟩ := ht
  obtain ⟨ms, rfl, hms, hnest', hreads'⟩ := hu
  refine ⟨ls ++ ms, textOf_append ls ms, ?_, ?_, fun c s hc => ?_⟩
  · intro l hl
    rcases List.mem_append.1 hl with hl | hl
    · exact hls l hl
    · exact hms l hl
  · rw [nest_append, hnest]
    exact hnest'
  · refine reads_append.2 ⟨?_, hreads' c s hc⟩
    cases htext : textOf ms with
    | nil => simp [htext] at hhead
    | cons d rest => exact hreads d _ (by simpa [htext] using hhead)

/-- What is written can be written inside other brackets. -/
theorem Writes.frame {t : Text} {before after : List Char} {next : Char → Bool}
    (h : Writes t before after next) (base : List Char) :
    Writes t (before ++ base) (after ++ base) next := by
  obtain ⟨ls, htext, hls, hnest, hreads⟩ := h
  exact ⟨ls, htext, hls, nest_frame hnest base, hreads⟩

/-- A name is read as a word in front of anything that is not part of a word. -/
theorem endsBefore_name {name : Text} (h : IsName name) {s : Text}
    (hs : ∀ c ∈ s.head?, isWordChar c = false) : (Lexeme.mk .word name).EndsBefore s := by
  have hword : ∀ c ∈ name, isWordChar c := by
    intro c hc
    have hname := h.chars c hc
    rw [isNameChar, Bool.and_eq_true] at hname
    exact hname.1
  obtain ⟨c, tail, rfl⟩ := List.exists_cons_of_ne_nil h.ne_nil
  exact ⟨c, tail, rfl, .word (hword c (by simp)) (fun d hd => hword d (by simp [hd])) hs⟩

/-- A name is solid. -/
theorem isSolid_name {name : Text} (h : IsName name) : (Lexeme.mk .word name).isSolid := by
  refine List.all_eq_true.2 fun c hc => ?_
  have hname := h.chars c hc
  rw [isNameChar, Bool.and_eq_true] at hname
  exact hname.2

/-- A name is read as a word. -/
theorem writes_name {name : Text} (h : IsName name) :
    Writes name [] [] fun c => !isWordChar c := by
  refine ⟨[⟨.word, name⟩], by simp, ?_, rfl, fun c s hc => ⟨endsBefore_name h ?_, trivial⟩⟩
  · intro l hl
    obtain rfl := List.mem_singleton.1 hl
    exact ⟨rfl, isSolid_name h⟩
  · simpa using hc

/-- What may follow a lexeme, as far as the lexeme itself tells. -/
def Lexeme.admits (l : Lexeme) (c : Char) : Bool :=
  match l.kind with
  | .mark mark => mark ≠ '/'
  | .blank => !isGap c
  | .word => !isWordChar c
  | _ => false

/-- A lexeme ends in front of what it admits. -/
theorem Lexeme.EndsBefore.of_admits {l : Lexeme} {s : Text} {c : Char} (h : l.EndsBefore s)
    (hc : l.admits c) (s' : Text) : l.EndsBefore (c :: s') := by
  obtain ⟨kind, text⟩ := l
  obtain ⟨d, tail, rfl, hshape⟩ := h
  refine ⟨d, tail, rfl, ?_⟩
  cases hshape with
  | blank hd htail hs => exact .blank hd htail (by simpa [Lexeme.admits] using hc)
  | word hd htail hs => exact .word hd htail (by simpa [Lexeme.admits] using hc)
  | quoted | raw | line | general => simp [Lexeme.admits] at hc
  | mark hgap hword hquote hs =>
    have hne : d ≠ '/' := by simpa [Lexeme.admits] using hc
    exact .mark hgap hword hquote fun hslash => absurd hslash hne

/-- A text is read in front of what its last lexeme admits. -/
theorem reads_lex_of_admits {t : Text} {l : Lexeme} {c : Char}
    (hlast : (lex t).getLast? = some l) (hc : l.admits c) (s : Text) : Reads (lex t) (c :: s) := by
  obtain ⟨front, hfront⟩ := List.getLast?_eq_some_iff.1 hlast
  have hreads := reads_lex t
  rw [hfront, reads_append] at hreads
  rw [hfront]
  obtain ⟨hreadsFront, hl, -⟩ := hreads
  have hl' : l.EndsBefore (c :: s) := hl.of_admits hc s
  obtain ⟨d, tail, htext, -⟩ := hl
  exact reads_append.2 ⟨hreadsFront.congr (by simp [htext]), by simpa using hl', trivial⟩

/-- A fixed text, for which all of this is found by computing. -/
theorem writes_lex {t : Text} {before after : List Char} {l : Lexeme}
    (hsturdy : (lex t).all fun l => l.isClosed && l.isSolid)
    (hnest : nest before (lex t) = some after) (hlast : (lex t).getLast? = some l) :
    Writes t before after l.admits := by
  refine ⟨lex t, textOf_lex t, ?_, hnest, fun c s hc => reads_lex_of_admits hlast hc s⟩
  intro m hm
  simpa using List.all_eq_true.1 hsturdy m hm

/-- What goes on with a name goes on with no white space. -/
theorem isGap_of_name {name : Text} (h : IsName name) {c : Char} (hc : c ∈ name) :
    isGap c = false := by
  have hname := h.chars c hc
  by_contra hgap
  simp [isNameChar, isWordChar_of_isGap (Bool.of_not_eq_false hgap)] at hname

/-! ## Whole functions from parts -/

/-- The text of a body: its braces are balanced in front of the one that closes it. -/
def IsBody (body : Text) : Prop :=
  ∃ ls, textOf ls = body ∧ Sturdy ls ∧ rise '{' '}' 0 ls = some 0 ∧
    ∀ s : Text, s.head? = some '}' → Reads ls s

/-- What is written with closed brackets can be the body of a function. -/
theorem Writes.isBody {t : Text} {next : Char → Bool} (h : Writes t [] [] next) (hnext : next '}') :
    IsBody t := by
  obtain ⟨ls, htext, hls, hnest, hreads⟩ := h
  refine ⟨ls, htext, hls, rise_of_nest (show IsPair '{' '}' from rfl) hnest, fun s hs => ?_⟩
  obtain ⟨rest, rfl⟩ := List.head?_eq_some_iff.1 hs
  exact hreads '}' rest hnext

/-- The parameters and results of a function, as they can be written between its name and its body. -/
structure IsSignature (parameters : Text) : Prop where
  writes : ∃ next, Writes parameters [] [] next ∧ next '{'
  no_brace : '{' ∉ parameters
  head : parameters.head?.any fun c => !isWordChar c

/-- The declaration of a function that has no receiver. -/
def Declaration.ofParts (name : Text) (parameters body : List Lexeme) : Declaration where
  receiver := [⟨.blank, [' ']⟩]
  name := ⟨.word, name⟩
  parameters := parameters
  body := body

section

variable {name : Text} {ps bs : List Lexeme}

theorem mem_ofParts {l : Lexeme} (h : l ∈ (Declaration.ofParts name ps bs).lexemes) :
    l ∈ [funcWord, ⟨.blank, [' ']⟩, ⟨.word, name⟩, markOf '{', markOf '}'] ∨ l ∈ ps ∨ l ∈ bs := by
  simp only [Declaration.lexemes, Declaration.tail, Declaration.ofParts, List.mem_cons,
    List.mem_append, List.not_mem_nil, or_false] at h ⊢
  tauto

/-- A declaration of sturdy parts is sturdy. -/
theorem sturdy_ofParts (hname : IsName name) (hps : Sturdy ps) (hbs : Sturdy bs) :
    Sturdy (Declaration.ofParts name ps bs).lexemes := by
  intro l hl
  rcases mem_ofParts hl with hl | hl | hl
  · simp only [List.mem_cons, List.not_mem_nil, or_false] at hl
    rcases hl with rfl | rfl | rfl | rfl | rfl
    · decide
    · decide
    · exact ⟨rfl, isSolid_name hname⟩
    · decide
    · decide
  · exact hps l hl
  · exact hbs l hl

/-- A declaration whose parts are nested is valid. -/
theorem valid_ofParts (name : Text) (hnest : nest [] ps = some [])
    (hbrace : ∀ l ∈ ps, l.kind ≠ .mark '{') (hbody : rise '{' '}' 0 bs = some 0) :
    (Declaration.ofParts name ps bs).Valid :=
  ⟨.none (by simp [Lexeme.isTrivia, Declaration.ofParts]), rfl,
    sink_of_nested hnest fun l hl => hbrace l (mem_of_mem_surfaceFrom hl), hbody⟩

/-- A declaration is read if its parts are. -/
theorem reads_ofParts (hname : IsName name)
    (hhead : (textOf ps).head?.any fun c => !isWordChar c)
    (hparameters : ∀ s : Text, Reads ps ('{' :: s)) (hbody : ∀ s : Text, Reads bs ('}' :: s)) :
    Reads (Declaration.ofParts name ps bs).lexemes [] := by
  have hmark (c : Char) (s : Text) (hc : c = '{' ∨ c = '}') : (markOf c).EndsBefore s := by
    rcases hc with rfl | rfl <;>
      exact ⟨_, [], rfl, .mark (by decide) (by decide) (by decide) fun h => absurd h (by decide)⟩
  -- `func`, a space, the name, the parameters, and the body in its braces
  refine ⟨endsBefore_name (by decide) ?_, endsBefore_gap (by decide) (by decide) ?_,
    endsBefore_name hname ?_, ?_⟩
  · intro c hc
    obtain rfl : ' ' = c := Option.some.inj hc
    decide
  · intro c hc
    obtain ⟨first, tail, rfl⟩ := List.exists_cons_of_ne_nil hname.ne_nil
    obtain rfl : first = c := Option.some.inj hc
    exact isGap_of_name hname List.mem_cons_self
  · intro c hc
    rw [textOf_append, List.append_assoc, List.head?_append,
      show textOf (Declaration.ofParts name ps bs).parameters = textOf ps from rfl] at hc
    cases hfirst : (textOf ps).head? with
    | none => simp [hfirst] at hhead
    | some first =>
      rw [hfirst] at hc hhead
      obtain rfl : first = c := Option.some.inj hc
      simpa using hhead
  · refine reads_append.2 ⟨hparameters _, hmark '{' _ (.inl rfl), ?_⟩
    exact reads_append.2 ⟨hbody _, hmark '}' _ (.inr rfl), trivial⟩

end

/-- A signature and lexemes with balanced braces make a whole function. -/
theorem whole_of_rise {name parameters : Text} {comment : Option Text} {bs : List Lexeme}
    (hcomment : ∀ c ∈ comment, IsComment c) (hname : IsName name)
    (hparameters : IsSignature parameters) (hrise : rise '{' '}' 0 bs = some 0)
    (hbody : ∀ s : Text, s.head? = some '}' → Reads bs s) {f : Function}
    (hf : f = ⟨comment, "func ".toList, name, parameters ++ ['{'], textOf bs⟩) :
    Whole f ∧ ∃ ps, Sturdy ps ∧ lex f.text = (Declaration.ofParts name ps bs).lexemes := by
  obtain ⟨next, ⟨ps, rfl, hps, hnest, hreads⟩, hnext⟩ := hparameters.writes
  have hbrace : ∀ l ∈ ps, l.kind ≠ .mark '{' := by
    intro l hl hkind
    refine hparameters.no_brace (List.mem_flatMap.2 ⟨l, hl, ?_⟩)
    rw [(hreads '{' [] hnext).isShaped l hl _ hkind]
    exact List.mem_singleton.2 rfl
  have hfunction : f = (Declaration.ofParts name ps bs).function comment := hf
  have hlex : lex f.text = (Declaration.ofParts name ps bs).lexemes := by
    rw [hfunction]
    exact Declaration.lex_text
      (reads_ofParts hname hparameters.head (fun s => hreads '{' s hnext) fun s => hbody _ rfl)
      comment
  refine ⟨⟨⟨_, valid_ofParts name hnest hbrace hrise, hlex, ?_⟩, ?_⟩, ps, hps, hlex⟩
  · rw [hfunction]
    rfl
  · rw [hf]
    exact hcomment

/-- Parts that can be written make a whole function. -/
theorem whole_of_writes {name parameters body : Text} {comment : Option Text}
    (hcomment : ∀ c ∈ comment, IsComment c) (hname : IsName name)
    (hparameters : IsSignature parameters) (hbody : IsBody body) {f : Function}
    (hf : f = ⟨comment, "func ".toList, name, parameters ++ ['{'], body⟩) :
    Whole f ∧ Sturdy (lex f.text) := by
  obtain ⟨bs, rfl, hbs, hrise, hreadsBody⟩ := hbody
  obtain ⟨hwhole, ps, hps, hlex⟩ :=
    whole_of_rise hcomment hname hparameters hrise hreadsBody hf
  exact ⟨hwhole, hlex ▸ sturdy_ofParts hname hps hbs⟩

end Scaffold.Go
