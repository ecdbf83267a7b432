import Mathlib.Data.List.Forall2
import Scaffold.Proofs.Service.Merging

/-!
# What becomes of each function

Regeneration is to place every implemented function of the old file in the new one or to leave it over,
each one for itself. The functions that answer are kept under their names, so that a later one puts an
earlier one of the same name out. Counting says that this is the only way to lose one: all is accounted
for exactly if no implemented function that answers is followed by an answering one of its name
(`accounted_iff`).
-/

namespace Scaffold.Service

open Text Go Naming
open scoped List

/-! ## Where the old functions go -/

/-- The old functions that actions take. -/
def taken (claims : List (Action × Option Function)) : List Function :=
  claims.flatMap fun c => c.2.toList

/-- What a table holds is taken or left. -/
theorem perm_taken (actions : List Action) (t : Table Text Function) :
    t.values.Perm (taken (claims actions t) ++ (unclaimed actions t).values) := by
  induction actions generalizing t with
  | nil => rfl
  | cons a rest ih =>
    calc t.values
        ~ (t.get? (functionName a)).toList ++ (t.erase (functionName a)).values :=
          Table.perm_values_erase t (functionName a)
      _ ~ (t.get? (functionName a)).toList ++
            (taken (claims rest (t.erase (functionName a))) ++
              (unclaimed rest (t.erase (functionName a))).values) := (ih _).append_left _
      _ = taken (claims (a :: rest) t) ++ (unclaimed (a :: rest) t).values := by
          rw [← List.append_assoc]
          rfl

/-- The functions that later ones of their name put out. -/
def displaced (fs : List Function) : List Function :=
  Table.displaced .empty ((fs.filter answers).map fun f => (f.name, f))

/-- Every old function is taken, left over, displaced, left over because it does not answer, or carried
over. -/
theorem perm_functions (actions : List Action) (fs : List Function) :
    let sorted := sortFunctions (actions.map functionName) fs
    fs.Perm ((taken (claims actions sorted.previous) ++ (unclaimed actions sorted.previous).values ++
      displaced fs) ++ (sorted.clashing ++ sorted.carried)) := by
  intro sorted
  -- the table of old functions holds the last of each name, and the others are displaced
  have hprevious : (sorted.previous.values ++ displaced fs).Perm (fs.filter answers) := by
    have hperm := Table.perm_values_putAll .empty ((fs.filter answers).map fun f => (f.name, f))
    rw [List.map_map] at hperm
    have hid : (Prod.snd ∘ fun f : Function => (f.name, f)) = id := rfl
    rw [hid, List.map_id] at hperm
    exact hperm
  have hothers : (sorted.clashing ++ sorted.carried).Perm (fs.filter (!answers ·)) :=
    List.filter_append_perm _ _
  calc fs ~ fs.filter answers ++ fs.filter (!answers ·) := (List.filter_append_perm _ _).symm
    _ ~ (sorted.previous.values ++ displaced fs) ++ (sorted.clashing ++ sorted.carried) :=
        hprevious.symm.append hothers.symm
    _ ~ _ := ((perm_taken actions sorted.previous).append_right _).append_right _

/-- Only stubs are displaced if no answering function follows an answering implementation of its
name. -/
theorem forall_displaced_iff {fs : List Function} :
    (∀ f ∈ displaced fs, isStub f) ↔
      fs.Pairwise fun f g => isStub f = false → answers f → answers g → f.name ≠ g.name := by
  have hempty (k : Text) : (Table.empty : Table Text Function).get? k = none := rfl
  calc (∀ f ∈ displaced fs, isStub f)
      ↔ ∀ f ∈ displaced fs, ¬ isStub f = false := by simp
    _ ↔ ((fs.filter answers).map fun f => (f.name, f)).Pairwise
          fun a b => isStub a.2 = false → a.1 ≠ b.1 := by
        rw [displaced, Table.forall_displaced_iff (P := fun f => isStub f = false)]
        simp [hempty]
    _ ↔ fs.Pairwise fun f g => answers f → answers g → isStub f = false → f.name ≠ g.name := by
        rw [List.pairwise_map, List.pairwise_filter]
    _ ↔ fs.Pairwise fun f g => isStub f = false → answers f → answers g → f.name ≠ g.name := by
        refine List.Pairwise.iff fun f g => ?_
        exact ⟨fun h hstub hf hg => h hf hg hstub, fun h hf hg hstub => h hstub hf hg⟩

/-! ## Accounts -/

/-- Each implemented function of `fs` has its body in a function of its own among `new`, or is an element
of its own of `leftovers`. -/
def Accounted (fs new leftovers : List Function) : Prop :=
  ∃ placed left, (fs.filter (!isStub ·)).Perm (placed ++ left) ∧ left.Subperm leftovers ∧
    ∃ hosts, hosts.Subperm new ∧ List.Forall₂ SameBody placed hosts

/-- The number of implemented functions. -/
private def implemented (fs : List Function) : Nat := fs.countP (!isStub ·)

private theorem implemented_append (fs gs : List Function) :
    implemented (fs ++ gs) = implemented fs + implemented gs := List.countP_append

private theorem implemented_perm {fs gs : List Function} (h : fs.Perm gs) :
    implemented fs = implemented gs := h.countP_eq _

private theorem implemented_filter (fs : List Function) :
    implemented (fs.filter (!isStub ·)) = implemented fs := by
  rw [implemented, List.countP_filter]
  simp [implemented]

/-- Functions with the same bodies are implemented alike. -/
private theorem implemented_of_sameBody {fs gs : List Function} (h : List.Forall₂ SameBody fs gs) :
    implemented fs = implemented gs := by
  induction h with
  | nil => rfl
  | @cons f g fs gs hbody _ ih =>
    rw [implemented, implemented, List.countP_cons, List.countP_cons, hbody.isStub]
    exact congrArg (· + _) ih

/-- What is accounted for is counted in the new file or among the leftovers. -/
private theorem Accounted.implemented_le {fs new leftovers : List Function}
    (h : Accounted fs new leftovers) :
    implemented fs ≤ implemented new + implemented leftovers := by
  obtain ⟨placed, left, hperm, hleft, hosts, hhosts, hbodies⟩ := h
  have hnew : implemented hosts ≤ implemented new := hhosts.countP_le _
  have hleftovers : implemented left ≤ implemented leftovers := hleft.countP_le _
  calc implemented fs = implemented (fs.filter (!isStub ·)) := (implemented_filter fs).symm
    _ = implemented (placed ++ left) := implemented_perm hperm
    _ = implemented hosts + implemented left := by
        rw [implemented_append, implemented_of_sameBody hbodies]
    _ ≤ implemented new + implemented leftovers := Nat.add_le_add hnew hleftovers

/-- A successor is implemented exactly if the old function is. -/
private theorem implemented_successors (responses : Schema.Registry)
    (cs : List (Action × Option Function)) :
    implemented (cs.map (successorOf responses)) = implemented (taken cs) := by
  induction cs with
  | nil => rfl
  | cons c cs ih =>
    -- one action at a time: a stub follows a stub, and a body stays
    have hone : implemented [successorOf responses c] = implemented c.2.toList := by
      obtain ⟨a, old⟩ := c
      rcases successor_cases responses a old with ⟨hnone, hsuccessor⟩ | ⟨f, rfl, hf, -⟩
      · have hstub := isStub_stubFunction a (Schema.resultOf responses a.responseType)
        cases old with
        | none => simp [implemented, successorOf, hsuccessor, hstub]
        | some f =>
          have hold : isStub f = true := by simpa [Option.filter] using hnone
          simp [implemented, successorOf, hsuccessor, hstub, hold]
      · have hbody := (sameBody_successor responses a hf).isStub
        simp [implemented, successorOf, hbody, hf]
    have htaken : taken (c :: cs) = c.2.toList ++ taken cs := rfl
    rw [List.map_cons, ← List.singleton_append, implemented_append, hone, ih, htaken,
      implemented_append]

/-- Each implemented function that an action takes has its body in the successor. -/
private theorem exists_hosts (responses : Schema.Registry) (cs : List (Action × Option Function)) :
    ∃ hosts, hosts.Sublist (cs.map (successorOf responses)) ∧
      List.Forall₂ SameBody ((taken cs).filter (!isStub ·)) hosts := by
  induction cs with
  | nil => exact ⟨[], .slnil, .nil⟩
  | cons c cs ih =>
    obtain ⟨hosts, hsub, hbodies⟩ := ih
    have htaken : taken (c :: cs) = c.2.toList ++ taken cs := rfl
    rw [htaken, List.filter_append, List.map_cons]
    -- an action that takes no implementation has no host
    cases hold : c.2.toList.filter (!isStub ·) with
    | nil => exact ⟨hosts, hsub.cons _, hbodies⟩
    | cons f rest =>
      obtain ⟨a, old⟩ := c
      cases old with
      | none => simp at hold
      | some g =>
        have hg : isStub g = false := by
          by_contra hstub
          simp [hstub] at hold
        obtain ⟨rfl, rfl⟩ : g = f ∧ rest = [] := by simpa [hg] using hold
        have hbody : SameBody g (successorOf responses (a, some g)) :=
          (sameBody_successor responses a hg).symm
        exact ⟨_, hsub.cons_cons _, .cons hbody hbodies⟩

/-- Over every file with a package clause, what regeneration writes is the old header, the old
declarations and the functions `written`, which are read off the new file if the old one is plain; and
all implemented functions are accounted for exactly if no answering function follows an answering
implementation of its name. -/
theorem accounted_iff (s : Setting) (responses : Schema.Registry) (g : Group) {content header : Text}
    (hheader : (File.parse content).header = some header) :
    let fs := (File.parse content).functions
    let out := regenerate s responses g (some content)
    out.content = layout header (File.parse content).declarations (written responses g fs) ∧
      (Plain content → WellNamed responses g →
        (File.parse out.content).functions = written responses g fs) ∧
      (Accounted fs (written responses g fs) out.leftovers ↔
        fs.Pairwise fun f f' => isStub f = false → answers f → answers f' → f.name ≠ f'.name) := by
  intro fs out
  have hold : oldFile (some content) = File.parse content := oldFile_of_header hheader
  let sorted := sortFunctions (g.actions.map functionName) fs
  let cs := claims g.actions sorted.previous
  let left := (unclaimed g.actions sorted.previous).values
  have hwritten : written responses g fs = sorted.carried ++ cs.map (successorOf responses) := rfl
  have hleftovers : out.leftovers.Perm (left ++ sorted.clashing) := by
    have hperm := perm_leftovers s responses g (some content)
    rwa [hold] at hperm
  have hfunctions : fs.Perm ((taken cs ++ left ++ displaced fs) ++
      (sorted.clashing ++ sorted.carried)) := perm_functions g.actions fs
  refine ⟨?_, fun hplain hg => (tidy_regenerate hg.toHasNamedActions hplain.tidy).2, ?_⟩
  · show (regenerate s responses g (some content)).content = _
    rw [regenerate_content, hold, hheader]
    rfl
  · rw [← forall_displaced_iff]
    constructor
    · intro h
      -- counting: what is written and left over has room for all but the displaced implementations
      have hle := h.implemented_le
      have htotal := implemented_perm hfunctions
      rw [hwritten, implemented_append, implemented_successors, implemented_perm hleftovers] at hle
      simp only [implemented_append] at hle htotal
      have hnone : implemented (displaced fs) = 0 := by omega
      intro f hf
      simpa using List.countP_eq_zero.1 hnone f hf
    · intro h
      have hnone : (displaced fs).filter (!isStub ·) = [] :=
        List.filter_eq_nil_iff.2 fun f hf => by simp [h f hf]
      -- nothing displaced is implemented, so the rest is hosted or left over
      obtain ⟨hosts, hhosts, hbodies⟩ := exists_hosts responses cs
      refine ⟨sorted.carried.filter (!isStub ·) ++ (taken cs).filter (!isStub ·),
        (left ++ sorted.clashing).filter (!isStub ·), ?_, ?_,
        sorted.carried.filter (!isStub ·) ++ hosts, ?_, ?_⟩
      · have hperm := hfunctions.filter (!isStub ·)
        simp only [List.filter_append, hnone, List.append_nil] at hperm ⊢
        refine hperm.trans ?_
        rw [← List.append_assoc, List.append_assoc (List.filter _ (taken cs)),
          List.append_assoc (List.filter _ sorted.carried)]
        exact List.perm_append_comm
      · exact (List.filter_sublist.subperm).trans hleftovers.symm.subperm
      · rw [hwritten]
        exact (List.filter_sublist.append hhosts).subperm
      · have hself (f : Function) : SameBody f f := rfl
        exact List.rel_append (List.forall₂_same.2 fun f _ => hself f) hbodies

/-- Two methods of one name on different receivers. -/
private def receiversFile : Text :=
  ("package user\n\nfunc (a First) FindQuery() \x7b\n\tone()\n\treturn &response, nil\n\x7d\n\n" ++
    "func (b Second) FindQuery() \x7b\n\ttwo()\n\treturn &response, nil\n\x7d\n").toList

/-- The method on the first receiver. -/
private def firstMethod : Function where
  leadingComment := none
  opening := "func (a First) ".toList
  name := "FindQuery".toList
  parameters := "() \x7b".toList
  body := "\n\tone()\n\treturn &response, nil\n".toList

/-- A group whose actions are all gone. -/
private def emptyGroup : Group where
  owner := ⟨"shop".toList, "user".toList⟩
  kind := .query
  hasUpload := false
  actions := []

/-- Two methods of one name on different receivers. -/
theorem accounted_iff_receivers :
    Accounted (File.parse receiversFile).functions
        (written .empty emptyGroup (File.parse receiversFile).functions)
        (regenerate default .empty emptyGroup (some receiversFile)).leftovers ↔
      (File.parse receiversFile).functions.Pairwise fun f f' =>
        isStub f = false → answers f → answers f' → f.name ≠ f'.name := by
  -- the kernel is slow to decode strings, so a list of characters takes the place of the text
  have hheader : (File.parse receiversFile).header = some "package user".toList := by
    unfold receiversFile
    rw [String.toList_append]
    repeat rw [String.toList_ofList]
    decide
  exact (accounted_iff default .empty emptyGroup hheader).2.2

/-- An implementation can be lost: the method on the second receiver takes the place of the first. -/
theorem method_lost_to_receiver :
    let out := regenerate default .empty emptyGroup (some receiversFile)
    firstMethod ∈ (File.parse receiversFile).functions ∧ isStub firstMethod = false ∧
      occursIn (trimEnd firstMethod.body) out.content = false ∧ firstMethod ∉ out.leftovers := by
  unfold receiversFile firstMethod
  rw [String.toList_append]
  repeat rw [String.toList_ofList]
  decide +kernel

end Scaffold.Service
