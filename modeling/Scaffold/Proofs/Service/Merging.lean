import Mathlib.Data.List.Nodup
import Scaffold.Proofs.Go.Plain
import Scaffold.Proofs.Service.Succession

/-!
# What regeneration writes

A regenerated service file is the layout of the old header, the old declarations and the functions
`written`: helpers that are carried over, and a successor for each action (`regenerate_content`). From
parts that can be moved it is read as these functions again (`parse_regenerate`).
-/

namespace Scaffold.Service

open Text Go Naming

/-! ## Claims of actions -/

/-- The actions with the old functions that they take out of a table. -/
def claims : List Action → Table Text Function → List (Action × Option Function)
  | [], _ => []
  | a :: rest, t => (a, t.get? (functionName a)) :: claims rest (t.erase (functionName a))

/-- What the actions leave in a table. -/
def unclaimed : List Action → Table Text Function → Table Text Function
  | [], t => t
  | a :: rest, t => unclaimed rest (t.erase (functionName a))

/-- Claiming gives each action its fate, by what it takes. -/
theorem claim_eq (responses : Schema.Registry) (actions : List Action) (t : Table Text Function) :
    claim responses actions t =
      ((claims actions t).map fun (a, old) => fate responses a old, unclaimed actions t) := by
  induction actions generalizing t with
  | nil => rfl
  | cons a rest ih =>
    rw [claim, ih]
    rfl

/-- Each action claims once, in order. -/
theorem map_fst_claims (actions : List Action) (t : Table Text Function) :
    (claims actions t).map Prod.fst = actions := by
  induction actions generalizing t with
  | nil => rfl
  | cons a rest ih => rw [claims, List.map_cons, ih]

/-- Where each name is claimed once, no action stands in the way of another. -/
theorem claims_of_nodup {actions : List Action} (h : (actions.map functionName).Nodup)
    (t : Table Text Function) :
    claims actions t = actions.map fun a => (a, t.get? (functionName a)) := by
  induction actions generalizing t with
  | nil => rfl
  | cons a rest ih =>
    obtain ⟨hfirst, hrest⟩ := List.nodup_cons.1 h
    rw [claims, List.map_cons, ih hrest]
    congr 1
    refine List.map_congr_left fun b hb => ?_
    -- the name of the first action is erased, which hides none of the other names
    have hne : functionName b ≠ functionName a := by
      intro heq
      exact hfirst (heq ▸ List.mem_map_of_mem hb)
    rw [Table.get?_erase_of_ne t hne]

/-- What an action takes stands in the table under its name. -/
theorem of_mem_claims {actions : List Action} {t : Table Text Function} {a : Action}
    {old : Option Function} (h : (a, old) ∈ claims actions t) :
    a ∈ actions ∧ ∀ f ∈ old, t.get? (functionName a) = some f := by
  induction actions generalizing t with
  | nil => simp [claims] at h
  | cons b rest ih =>
    rcases List.mem_cons.1 h with heq | hrest
    · obtain ⟨rfl, rfl⟩ := Prod.mk.inj heq
      exact ⟨List.mem_cons_self, fun f hf => hf⟩
    · obtain ⟨ha, hget⟩ := ih hrest
      refine ⟨List.mem_cons_of_mem b ha, fun f hf => ?_⟩
      have hf' := hget f hf
      -- the table without the first action's name has what the table has under other names
      by_cases hname : functionName a = functionName b
      · rw [hname, Table.get?_erase_self] at hf'
        cases hf'
      · rwa [Table.get?_erase_of_ne t hname] at hf'

/-- What a table has under the name of an action's function is taken by such an action. -/
theorem exists_mem_claims {actions : List Action} {t : Table Text Function} {name : Text} {f : Function}
    (hget : t.get? name = some f) (hname : name ∈ actions.map functionName) :
    ∃ a, functionName a = name ∧ (a, some f) ∈ claims actions t := by
  induction actions generalizing t with
  | nil => simp at hname
  | cons a rest ih =>
    by_cases ha : functionName a = name
    · refine ⟨a, ha, ?_⟩
      rw [claims, ha, hget]
      exact List.mem_cons_self
    · have hrest : name ∈ rest.map functionName := by
        rcases List.mem_cons.1 hname with heq | hrest
        · exact absurd heq.symm ha
        · exact hrest
      have hget' : (t.erase (functionName a)).get? name = some f := by
        rwa [Table.get?_erase_of_ne t (Ne.symm ha)]
      obtain ⟨b, hb, hmem⟩ := ih hget' hrest
      exact ⟨b, hb, List.mem_cons_of_mem _ hmem⟩

/-- What is left has no name of an action's function. -/
theorem get?_unclaimed (actions : List Action) (t : Table Text Function) (name : Text) :
    (unclaimed actions t).get? name =
      if name ∈ actions.map functionName then none else t.get? name := by
  induction actions generalizing t with
  | nil => rfl
  | cons a rest ih =>
    rw [unclaimed, ih]
    by_cases hname : name = functionName a
    · simp [hname, Table.get?_erase_self]
    · rw [Table.get?_erase_of_ne t hname]
      simp [hname]

/-! ## The old functions -/

/-- The old function that is found under a name is the last one of that name that answers. -/
theorem get?_previous (claimed : List Text) (fs : List Function) (name : Text) :
    (sortFunctions claimed fs).previous.get? name =
      (fs.filter answers).reverse.find? (·.name = name) :=
  Table.get?_ofList_map Function.name (fs.filter answers) name

/-- What the table of old functions holds is an answering function of the name. -/
theorem of_get?_previous {claimed : List Text} {fs : List Function} {name : Text} {f : Function}
    (h : (sortFunctions claimed fs).previous.get? name = some f) :
    f ∈ fs ∧ answers f ∧ f.name = name := by
  rw [get?_previous] at h
  have hmem : f ∈ fs.filter answers := by simpa using List.mem_of_find?_eq_some h
  obtain ⟨hf, hanswers⟩ := List.mem_filter.1 hmem
  exact ⟨hf, hanswers, by simpa using List.find?_some h⟩

/-- A function that answers, and no other of its name does, is found under its name. -/
theorem get?_previous_of_mem (claimed : List Text) {fs : List Function} {f : Function} (hf : f ∈ fs)
    (hanswers : answers f) (hunique : ∀ f' ∈ fs, answers f' → f'.name = f.name → f' = f) :
    (sortFunctions claimed fs).previous.get? f.name = some f := by
  have hmem : f ∈ fs.filter answers := List.mem_filter.2 ⟨hf, hanswers⟩
  rw [get?_previous]
  cases hfind : (fs.filter answers).reverse.find? (·.name = f.name) with
  | none =>
    have hname := List.find?_eq_none.1 hfind f (List.mem_reverse.2 hmem)
    simp at hname
  | some g =>
    obtain ⟨hg, hganswers⟩ := List.mem_filter.1 (List.mem_reverse.1 (List.mem_of_find?_eq_some hfind))
    have hname : g.name = f.name := by simpa using List.find?_some hfind
    rw [hunique g hg hganswers hname]

/-- What is carried over does not answer, and no action has its name. -/
theorem mem_carried {claimed : List Text} {fs : List Function} {f : Function} :
    f ∈ (sortFunctions claimed fs).carried ↔ f ∈ fs ∧ answers f = false ∧ f.name ∉ claimed := by
  show f ∈ (fs.filter (!answers ·)).filter (!claimed.contains ·.name) ↔ _
  simp [and_comm]

/-- What clashes does not answer, but an action has its name. -/
theorem mem_clashing {claimed : List Text} {fs : List Function} {f : Function} :
    f ∈ (sortFunctions claimed fs).clashing ↔ f ∈ fs ∧ answers f = false ∧ f.name ∈ claimed := by
  show f ∈ (fs.filter (!answers ·)).filter (claimed.contains ·.name) ↔ _
  simp [and_comm]

/-- The helpers of an old file: what does not answer and is not named like an action's function. -/
def helpers (claimed : List Text) (fs : List Function) : List Function :=
  fs.filter fun f => !answers f && !claimed.contains f.name

/-- What is carried over are the helpers. -/
theorem carried_eq_helpers (claimed : List Text) (fs : List Function) :
    (sortFunctions claimed fs).carried = helpers claimed fs := by
  show (fs.filter (!answers ·)).filter (!claimed.contains ·.name) = _
  rw [List.filter_filter, helpers]
  exact List.filter_congr fun f _ => Bool.and_comm _ _

/-! ## The new functions -/

/-- The successor of what an action claims. -/
def successorOf (responses : Schema.Registry) (c : Action × Option Function) : Function :=
  successor responses c.1 c.2

/-- The functions of a regenerated file: helpers, and a successor for each action. -/
def written (responses : Schema.Registry) (g : Group) (fs : List Function) : List Function :=
  let sorted := sortFunctions (g.actions.map functionName) fs
  sorted.carried ++ (claims g.actions sorted.previous).map (successorOf responses)

/-- An implementation whose action is there has a successor with its body. -/
theorem exists_successor (responses : Schema.Registry) {g : Group} {fs : List Function} {f : Function}
    (hf : f ∈ fs) (hanswers : answers f) (hstub : isStub f = false)
    (hunique : ∀ f' ∈ fs, answers f' → f'.name = f.name → f' = f)
    (hclaimed : f.name ∈ g.actions.map functionName) :
    ∃ f' ∈ written responses g fs, f'.name = f.name ∧ SameBody f' f := by
  have hget := get?_previous_of_mem (g.actions.map functionName) hf hanswers hunique
  obtain ⟨a, ha, hclaim⟩ := exists_mem_claims hget hclaimed
  refine ⟨successor responses a (some f), ?_, ?_, sameBody_successor responses a hstub⟩
  · exact List.mem_append_right _ (List.mem_map_of_mem (f := successorOf responses) hclaim)
  · have hname : ∀ f' ∈ some f, f'.name = functionName a := by
      intro f' hf'
      rw [← Option.some.inj hf', ha]
    rw [name_successor hname, ha]

/-- What regeneration writes is the layout of the old parts and the new functions. -/
theorem regenerate_content (s : Setting) (responses : Schema.Registry) (g : Group)
    (existing : Option Text) :
    (regenerate s responses g existing).content =
      layout ((oldFile existing).header.getD (freshClause s g)) (oldFile existing).declarations
        (written responses g (oldFile existing).functions) := by
  have hheader : (oldFile existing).header.elim (freshHeader s g) (· ++ "\n\n".toList) =
      (oldFile existing).header.getD (freshClause s g) ++ blankLine := by
    cases (oldFile existing).header with
    | none => exact freshHeader_eq s g
    | some header => rfl
  have hfates (cs : List (Action × Option Function)) :
      (cs.map fun (a, old) => fate responses a old).flatMap Fate.text =
        (cs.map (successorOf responses)).flatMap verbatim := by
    rw [List.flatMap_map, List.flatMap_map]
    exact congrArg (List.flatMap · cs) (funext fun c => fate_text responses c.1 c.2)
  unfold regenerate layout written
  simp only [claim_eq]
  rw [hheader, hfates, List.flatMap_append, List.append_assoc]
  rfl

/-- Left over are the old functions that answer and that no action claims, and those that do not answer
but have the name of an action's function. -/
theorem perm_leftovers (s : Setting) (responses : Schema.Registry) (g : Group)
    (existing : Option Text) :
    let sorted := sortFunctions (g.actions.map functionName) (oldFile existing).functions
    (regenerate s responses g existing).leftovers.Perm
      ((unclaimed g.actions sorted.previous).values ++ sorted.clashing) := by
  intro sorted
  show (List.mergeSort _ _).Perm _
  rw [claim_eq]
  exact List.mergeSort_perm _ _

/-- A group whose actions are put together from names and have functions of their own, where results
have named types. What its package is called only matters where there is no header yet. -/
structure HasNamedActions (responses : Schema.Registry) (g : Group) : Prop where
  actions : ∀ a ∈ g.actions, IsNamed a
  functions : (g.actions.map functionName).Nodup
  results : ∀ t ∈ responses.values, IsName t.typeName

/-- Such a group, put together from names as a whole: that of its package is one as well. -/
structure WellNamed (responses : Schema.Registry) (g : Group) : Prop
    extends HasNamedActions responses g where
  package : IsName g.owner.package
  package_ne : g.owner.package ≠ "func".toList

/-- Functions that can be moved are succeeded by such functions. -/
theorem whole_written {responses : Schema.Registry} {g : Group} {fs : List Function}
    (hg : HasNamedActions responses g) (hfs : ∀ f ∈ fs, Whole f ∧ Sturdy (lex f.text)) :
    ∀ f ∈ written responses g fs, Whole f ∧ Sturdy (lex f.text) := by
  intro f hf
  rcases List.mem_append.1 hf with hf | hf
  · exact hfs f (mem_carried.1 hf).1
  · obtain ⟨⟨a, old⟩, hclaim, rfl⟩ := List.mem_map.1 hf
    obtain ⟨ha, hold⟩ := of_mem_claims hclaim
    exact whole_successor (hg.actions a ha) hg.results fun f hf =>
      hfs f (of_get?_previous (hold f hf)).1

/-- The successors of a group whose actions have functions of their own. -/
theorem written_eq {responses : Schema.Registry} {g : Group} (hg : HasNamedActions responses g)
    (fs : List Function) :
    written responses g fs =
      (sortFunctions (g.actions.map functionName) fs).carried ++ g.actions.map fun a =>
        successor responses a
          ((sortFunctions (g.actions.map functionName) fs).previous.get? (functionName a)) := by
  rw [written]
  simp only [claims_of_nodup hg.functions, List.map_map]
  rfl

/-! ## Reading it again -/

/-- A source with a package clause is not blank. -/
theorem trim_ne_nil_of_header {s header : Text} (h : (File.parse s).header = some header) :
    trim s ≠ [] := by
  obtain ⟨n, hlength, -⟩ := Option.map_eq_some_iff.1 h
  obtain ⟨front, rest, package, hlex, -, hisHeader⟩ := isHeader_of_headerLength? hlength
  obtain ⟨keyword, name, more, hcode, hkeyword, -⟩ := hisHeader.names
  have hmem : keyword ∈ lex s := by
    rw [hlex]
    refine List.mem_append_left _ (List.mem_of_mem_filter (p := (!·.isTrivia)) ?_)
    show keyword ∈ code front
    rw [hcode]
    exact List.mem_cons_self
  -- the clause has the letter `p`, which is not white space
  have hp : 'p' ∈ s := by
    have htext : keyword.text = "package".toList := (Lexeme.isWord_iff.1 hkeyword).2
    rw [← textOf_lex s]
    refine List.mem_flatMap.2 ⟨keyword, hmem, ?_⟩
    rw [htext]
    decide
  intro htrim
  exact absurd (trim_eq_nil_iff.1 htrim 'p' hp) (by decide)

/-- A file with a package clause is merged. -/
theorem oldFile_of_header {s header : Text} (h : (File.parse s).header = some header) :
    oldFile (some s) = File.parse s := by
  have hfilter : (some s).filter (trim · ≠ []) = some s := by
    simp [Option.filter, trim_ne_nil_of_header h]
  rw [oldFile, hfilter]

theorem oldFile_of_blank {existing : Option Text} (h : ∀ s ∈ existing, trim s = []) :
    oldFile existing = default := by
  have hfilter : existing.filter (trim · ≠ []) = none := by
    cases existing with
    | none => rfl
    | some s => simp [Option.filter, h s rfl]
  rw [oldFile, hfilter]

variable {s : Setting} {responses : Schema.Registry} {g : Group} {existing : Option Text}
  {package : Text}

/-- What regeneration writes is read again as the old header, the old declarations in one block, and
the functions that were written. -/
theorem parse_regenerate (hg : HasNamedActions responses g)
    (hheader : IsHeaderText ((oldFile existing).header.getD (freshClause s g)) package)
    (hblocks : ∀ block ∈ (oldFile existing).declarations, IsBlock block)
    (hfs : ∀ f ∈ (oldFile existing).functions, Whole f ∧ Sturdy (lex f.text)) :
    File.parse (regenerate s responses g existing).content =
      { header := some ((oldFile existing).header.getD (freshClause s g)), package := some package
        functions := written responses g (oldFile existing).functions
        declarations := if (oldFile existing).declarations = [] then []
          else [join blankLine (oldFile existing).declarations] } := by
  rw [regenerate_content, parse_layout hheader hblocks fun f hf => (whole_written hg hfs f hf).1]

/-- A file whose parts can be moved stays so, and its functions are those that were written. -/
theorem tidy_regenerate {content : Text} (hg : HasNamedActions responses g)
    (h : Tidy (File.parse content)) :
    Tidy (File.parse (regenerate s responses g (some content)).content) ∧
      (File.parse (regenerate s responses g (some content)).content).functions =
        written responses g (File.parse content).functions := by
  obtain ⟨header, package, hheader, -, hisHeader⟩ := h.header
  have hwritten := whole_written hg h.functions
  have hlayout : (regenerate s responses g (some content)).content =
      layout header (File.parse content).declarations
        (written responses g (File.parse content).functions) := by
    rw [regenerate_content, oldFile_of_header hheader, hheader]
    rfl
  rw [hlayout]
  refine ⟨tidy_layout hisHeader h.declarations hwritten, ?_⟩
  rw [parse_layout hisHeader h.declarations fun f hf => (hwritten f hf).1]

end Scaffold.Service
