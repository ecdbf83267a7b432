import Scaffold.Proofs.Service.Clause
import Scaffold.Service.Archive

/-!
# What archives hold

An archive is read as the functions that were appended to it, in their order and under their new names
(`Archives.exists_of_mem`), and appending to it keeps what is there (`Archives.append`).
-/

namespace Scaffold.Go

open Text

/-! ## Another name -/

/-- What stands in front of a word can stand in front of another word. -/
private theorem endsBefore_word {l : Lexeme} {c d : Char} {s : Text} (h : l.EndsBefore (c :: s))
    (hkind : l.isTrivia ∨ l = markOf ')') (hc : isWordChar c) (hd : isWordChar d) (s' : Text) :
    l.EndsBefore (d :: s') := by
  have hgap (e : Char) (he : isWordChar e) : isGap e = false := by
    by_contra hgap
    rw [isWordChar_of_isGap (Bool.of_not_eq_false hgap)] at he
    exact Bool.false_ne_true he
  rcases hkind with htrivia | rfl
  · obtain ⟨kind, text⟩ := l
    obtain ⟨e, tail, rfl, hshape⟩ := h
    refine ⟨e, tail, rfl, ?_⟩
    -- white space, comments and a bracket end in front of any word
    cases hshape with
    | blank he htail hs => exact .blank he htail (by simpa using hgap d hd)
    | word | quoted | raw | mark => simp [Lexeme.isTrivia] at htrivia
    | line htail hs =>
      obtain rfl := hs c rfl
      exact absurd hc (by decide)
    | general htail =>
      exact .general (through_of_suffix htail (suffix_of_through htail (List.cons_ne_nil c s)) _)
  · exact h.of_admits rfl s'

/-- A receiver ends with white space or a bracket. -/
private theorem receiver_last {receiver : List Lexeme} (h : IsReceiver receiver) :
    receiver = [] ∨ ∃ front l, receiver = front ++ [l] ∧ (l.isTrivia ∨ l = markOf ')') := by
  cases h with
  | none hspace =>
    rcases List.eq_nil_or_concat receiver with hnil | ⟨front, l, rfl⟩
    · exact .inl hnil
    · exact .inr ⟨front, l, by simp, .inl (hspace l (by simp))⟩
  | @group space inside after hspace hinside hafter =>
    right
    rcases List.eq_nil_or_concat after with rfl | ⟨front, l, rfl⟩
    · exact ⟨space ++ markOf '(' :: inside, markOf ')', by simp, .inr rfl⟩
    · exact ⟨space ++ markOf '(' :: inside ++ markOf ')' :: front, l, by simp,
        .inl (hafter l (by simp))⟩

/-- A declaration under another name. -/
def Declaration.named (d : Declaration) (name : Text) : Declaration := { d with name := ⟨.word, name⟩ }

/-- What stands behind the name of a declaration. -/
def Declaration.behindName (d : Declaration) : List Lexeme :=
  d.parameters ++ markOf '{' :: (d.body ++ [markOf '}'])

/-- A declaration is still read as one under another name. -/
theorem Declaration.Valid.reads_named {d : Declaration} (hd : d.Valid) (hreads : Reads d.lexemes [])
    {c : Char} {name : Text} (hc : isWordChar c) (hname : ∀ e ∈ name, isWordChar e) :
    Reads (d.named (c :: name)).lexemes [] := by
  have hall : Reads ((funcWord :: d.receiver) ++ d.name :: d.behindName) [] := hreads
  show Reads ((funcWord :: d.receiver) ++ ⟨.word, c :: name⟩ :: d.behindName) []
  rw [reads_append] at hall ⊢
  obtain ⟨hfront, hword, hrest⟩ := hall
  obtain ⟨e, tail, htext, hshape⟩ := hword
  rw [hd.name] at hshape
  cases hshape with
  | word he htail hs =>
    refine ⟨?_, ⟨c, name, rfl, .word hc hname hs⟩, hrest⟩
    rw [textOf_cons, htext] at hfront
    rcases receiver_last hd.receiver with hnil | ⟨front, l, hreceiver, hl⟩
    · -- the name cannot stand right behind the keyword
      rw [hnil] at hfront
      obtain ⟨f', tail', -, hfunc⟩ := hfront.1
      cases hfunc with
      | word _ _ hnot =>
        rw [hnot e rfl] at he
        exact absurd he Bool.false_ne_true
    · rw [hreceiver, ← List.cons_append, reads_append] at hfront ⊢
      obtain ⟨hbefore, hlast, -⟩ := hfront
      have hlast' := endsBefore_word hlast hl he hc (name ++ textOf d.behindName ++ [])
      obtain ⟨g, more, hg, -⟩ := hlast
      exact ⟨hbefore.congr (by simp [hg]), by simpa using hlast', trivial⟩

/-- A whole function stays whole under another name, without the comment above it. -/
theorem Whole.renamed {f : Function} (h : Whole f) {c : Char} {name : Text} (hc : isWordChar c)
    (hname : ∀ d ∈ name, isWordChar d) :
    Whole { f with leadingComment := none, name := c :: name } := by
  obtain ⟨d, hd, hreads, hf⟩ := h.exists_reads
  have hvalid : (d.named (c :: name)).Valid := ⟨hd.receiver, rfl, hd.parameters, hd.body⟩
  have hfunction : { f with leadingComment := none, name := c :: name } =
      (d.named (c :: name)).function none := by
    rw [hf]
    rfl
  refine ⟨⟨_, hvalid, ?_, hfunction⟩, by simp⟩
  rw [hfunction]
  exact Declaration.lex_text (hd.reads_named (hreads []) hc hname) none

/-- The name of a function is a word. -/
theorem Whole.name_chars {f : Function} (h : Whole f) : ∀ c ∈ f.name, isWordChar c := by
  obtain ⟨d, hd, hreads, hf⟩ := h.exists_reads
  have hall : Reads ((funcWord :: d.receiver) ++ d.name :: d.behindName) [] := hreads []
  obtain ⟨-, ⟨c, tail, htext, hshape⟩, -⟩ := reads_append.1 hall
  rw [hd.name] at hshape
  rw [hf]
  show ∀ c ∈ d.name.text, isWordChar c
  rw [htext]
  cases hshape with
  | word hc htail hs => exact List.forall_mem_cons.2 ⟨hc, htail⟩

end Scaffold.Go

namespace Scaffold.Service

open Text Go Naming

/-! ## Archives -/

/-- A function as the archive holds it. -/
def archivedFunction (stamp : Text) (f : Function) : Function :=
  { f with leadingComment := none, name := archivedName stamp f.name }

/-- An archived function can be moved as a whole. -/
theorem whole_archivedFunction {stamp : Text} (hstamp : ∀ c ∈ stamp, isWordChar c) {f : Function}
    (h : Whole f) : Whole (archivedFunction stamp f) := by
  have hname : archivedName stamp f.name = 'B' :: ("KP__".toList ++ stamp ++ '_' :: f.name) := rfl
  have hchars : ∀ c ∈ "KP__".toList ++ stamp ++ '_' :: f.name, isWordChar c := by
    have hfixed : ∀ c ∈ "KP__".toList, isWordChar c := by decide
    intro c hc
    simp only [List.mem_append, List.mem_cons] at hc
    rcases hc with (hc | hc) | rfl | hc
    · exact hfixed c hc
    · exact hstamp c hc
    · decide
    · exact h.name_chars c hc
  rw [archivedFunction, hname]
  exact h.renamed (by decide) hchars

/-- The archive of some functions: there is none yet, or it was written for them. -/
inductive Archives : Option Text → List Function → Prop
  | empty : Archives none []
  | laidOut {package : Text} {fs : List Function} (hname : IsName package)
      (hfunc : package ≠ "func".toList) (hfs : ∀ f ∈ fs, Whole f) :
      Archives (some (layout (archiveClause package) [] fs)) fs

/-- An archive that holds a function is there, and is read as all its functions. -/
theorem Archives.exists_of_mem {archive : Option Text} {fs : List Function} (h : Archives archive fs)
    {f : Function} (hf : f ∈ fs) :
    ∃ content, archive = some content ∧ (File.parse content).functions = fs := by
  cases h with
  | empty => exact absurd hf List.not_mem_nil
  | laidOut hname hfunc hfs =>
    refine ⟨_, rfl, ?_⟩
    rw [parse_layout (isHeaderText_archiveClause hname hfunc) (by simp) hfs]

/-- What is laid out ends its last line. -/
private theorem getLast?_layout (header : Text) (fs : List Function) :
    (layout header [] fs).getLast? = some '\n' := by
  rcases List.eq_nil_or_concat fs with rfl | ⟨front, f, rfl⟩
  · simp [layout, blankLine]
  · rw [List.concat_eq_append, layout, List.flatMap_append, ← List.append_assoc]
    simp [verbatim]

/-- What is appended to where there is no archive yet: a header and nothing below it. -/
theorem archiveBase_nil (package : Text) :
    archiveBase package [] = layout (archiveClause package) [] [] := by
  have hoccurs : occursIn "package".toList [] = false := by decide
  have hlayout : archiveHeader package ++ [] = layout (archiveClause package) [] [] := by
    rw [archiveHeader_eq, layout]
    simp only [List.flatMap_nil, List.append_nil]
  have hlast := getLast?_layout (archiveClause package) []
  unfold archiveBase
  simp only [hoccurs, Bool.false_eq_true, if_false]
  rw [hlayout, if_pos hlast]

/-- What is appended to where an archive was written before: the archive itself. -/
theorem archiveBase_layout (package package' : Text) (fs : List Function) :
    archiveBase package (layout (archiveClause package') [] fs) =
      layout (archiveClause package') [] fs := by
  have hoccurs : occursIn "package".toList (layout (archiveClause package') [] fs) := by
    have hclause : "package".toList <:+: "//go:build ignore\n\npackage ".toList := by decide
    rw [occursIn_iff]
    refine hclause.trans ?_
    unfold layout archiveClause
    simp only [List.append_assoc]
    exact (List.prefix_append _ _).isInfix
  have hlast := getLast?_layout (archiveClause package') fs
  unfold archiveBase
  simp only [hoccurs, if_true, hlast]

/-- Appending functions to a layout lays out their archived forms as well. -/
theorem layout_append_archived (header stamp : Text) (fs gs : List Function) :
    layout header [] fs ++ gs.flatMap (archived stamp) =
      layout header [] (fs ++ gs.map (archivedFunction stamp)) := by
  have harchived : archived stamp = fun f => verbatim (archivedFunction stamp f) := rfl
  rw [harchived, layout, layout, List.flatMap_append, List.flatMap_map]
  simp only [List.append_assoc]

/-- What functions are appended to holds what the old archive holds. -/
private theorem Archives.exists_base {archive : Option Text} {fs : List Function}
    (h : Archives archive fs) {package : Text} (hname : IsName package)
    (hfunc : package ≠ "func".toList) :
    ∃ package', IsName package' ∧ package' ≠ "func".toList ∧ (∀ f ∈ fs, Whole f) ∧
      archiveBase package (archive.getD []) = layout (archiveClause package') [] fs := by
  cases h with
  | empty => exact ⟨package, hname, hfunc, by simp, archiveBase_nil package⟩
  | @laidOut package' fs hname' hfunc' hfs =>
    exact ⟨package', hname', hfunc', hfs, archiveBase_layout package package' fs⟩

/-- Archiving appends the functions that are left over and no stubs, and takes nothing away. -/
theorem Archives.append {archive : Option Text} {fs : List Function} (h : Archives archive fs)
    {package : Text} (hname : IsName package) (hfunc : package ≠ "func".toList) {stamp : Text}
    (hstamp : ∀ c ∈ stamp, isWordChar c) {leftovers : List Function}
    (hleftovers : ∀ f ∈ leftovers, Whole f) :
    Archives ((archive? package archive leftovers stamp).or archive)
      (fs ++ (leftovers.filter (!isStub ·)).map (archivedFunction stamp)) := by
  unfold archive?
  -- without an implementation left over the archive is not touched
  cases hfilter : leftovers.filter (!isStub ·) with
  | nil => simpa using h
  | cons f rest =>
    obtain ⟨package', hname', hfunc', hfs, hbase⟩ := h.exists_base hname hfunc
    show Archives (some (archiveBase package (archive.getD []) ++ _)) _
    rw [hbase, layout_append_archived]
    refine .laidOut hname' hfunc' fun g hg => ?_
    rcases List.mem_append.1 hg with hg | hg
    · exact hfs g hg
    · obtain ⟨k, hk, rfl⟩ := List.mem_map.1 hg
      rw [← hfilter] at hk
      exact whole_archivedFunction hstamp (hleftovers k (List.mem_filter.1 hk).1)

end Scaffold.Service
