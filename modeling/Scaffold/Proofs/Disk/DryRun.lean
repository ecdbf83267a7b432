import Mathlib.Computability.TuringMachine.StackTuringMachine
import Mathlib.Data.List.Dedup
import Mathlib.Data.List.Permutation
import Scaffold.Proofs.Disk.Committing

/-!
# What a commit does and a dry run predicts

A history of pushes stages one artifact for each file that it names, with the content that was pushed
for it last. If the paths lead to different files, a commit that succeeds puts exactly these contents
on the disk, writes as many files as were pending before, and leaves nothing pending
(`Staging.faithful_commit`).
-/

namespace Scaffold

open View (Keeps)

/-! ## Histories of pushes -/

namespace Staging

variable {pushes : List (Path × Text)} {s : Staging} {p q : Path}

/-- What a history of pushes stages. -/
def ofPushes (pushes : List (Path × Text)) : Staging :=
  pushes.foldl (fun s push => s.push push.1 push.2) .empty

/-- The content that was pushed last for a file. -/
def lastPushed (pushes : List (Path × Text)) (p : Path) : Option Text :=
  (pushes.reverse.find? (·.1.same p)).map (·.2)

theorem ofPushes_append (pushes : List (Path × Text)) (push : Path × Text) :
    ofPushes (pushes ++ [push]) = (ofPushes pushes).push push.1 push.2 := by
  simp [ofPushes]

/-- The staging is asked by components. -/
theorem get?_congr (s : Staging) (h : p.same q) : s.get? p = s.get? q := by
  have hcomponents : p.components = q.components := by simpa [Path.same] using h
  simp only [get?, Path.same, hcomponents]

/-- What is staged for a file is what was pushed for it last. -/
theorem get?_ofPushes (pushes : List (Path × Text)) (p : Path) :
    ((ofPushes pushes).get? p).map (·.content) = lastPushed pushes p := by
  induction pushes using List.reverseRecOn with
  | nil => rfl
  | append_singleton pushes push ih =>
    rw [ofPushes_append, lastPushed, List.reverse_append, List.reverse_singleton,
      List.singleton_append]
    by_cases hsame : push.1.same p
    · rw [← get?_congr _ hsame, get?_push_self]
      simp [hsame]
    · rw [get?_push_of_not_same _ _ hsame, ih, lastPushed]
      simp [hsame]

/-- Artifacts are staged under paths that were pushed. -/
theorem exists_push_of_mem {a : Artifact} (h : a ∈ (ofPushes pushes).artifacts) :
    ∃ push ∈ pushes, push.1 = a.path := by
  induction pushes using List.reverseRecOn generalizing a with
  | nil => cases h
  | append_singleton pushes push ih =>
    rw [ofPushes_append] at h
    rcases path_of_mem_restage h with hpath | ⟨b, hb, hpath⟩
    · exact ⟨push, by simp, hpath.symm⟩
    · obtain ⟨push', hmem, hpush⟩ := ih hb
      exact ⟨push', List.mem_append_left _ hmem, hpush.trans hpath⟩

/-- For each file that was pushed there is an artifact with the content that was pushed last. -/
theorem exists_mem_artifacts {push : Path × Text} (h : push ∈ pushes) :
    ∃ a ∈ (ofPushes pushes).artifacts, a.path.same push.1 ∧
      lastPushed pushes push.1 = some a.content := by
  have hsome : (lastPushed pushes push.1).isSome := by
    rw [lastPushed, Option.isSome_map, List.find?_isSome]
    exact ⟨push, by simpa using h, by simp [Path.same]⟩
  rw [← get?_ofPushes] at hsome ⊢
  obtain ⟨a, ha⟩ := Option.isSome_iff_exists.1 (by simpa using hsome)
  exact ⟨a, List.mem_of_find?_eq_some ha, by simpa using List.find?_some ha, by rw [ha]; rfl⟩

/-- There are as many artifacts as files were pushed. -/
theorem size_ofPushes (pushes : List (Path × Text)) :
    (ofPushes pushes).size = (pushes.map (·.1.components)).dedup.length := by
  have hperm : ((ofPushes pushes).artifacts.map (·.path.components)).Perm
      (pushes.map (·.1.components)).dedup := by
    refine (List.perm_ext_iff_of_nodup (nodup_components _) (List.nodup_dedup _)).2 fun cs => ?_
    rw [List.mem_dedup, List.mem_map, List.mem_map]
    constructor
    · rintro ⟨a, ha, rfl⟩
      obtain ⟨push, hmem, hpush⟩ := exists_push_of_mem ha
      exact ⟨push, hmem, by rw [hpush]⟩
    · rintro ⟨push, hpush, rfl⟩
      obtain ⟨a, ha, hsame, -⟩ := exists_mem_artifacts hpush
      exact ⟨a, ha, by simpa [Path.same] using hsame⟩
  rw [← hperm.length_eq, List.length_map, size]

end Staging

/-! ## Counting -/

/-- Choosing elements by an answer that is always given. -/
theorem filterM_eq_ok {α ε : Type} {f : α → Except ε Bool} {q : α → Bool} {as : List α}
    (h : ∀ a ∈ as, f a = .ok (q a)) : as.filterM f = .ok (as.filter q) := by
  -- `filterM` collects the chosen elements backwards, in an accumulator
  have haux (acc : List α) : as.filterAuxM f acc = .ok ((as.filter q).reverse ++ acc) := by
    induction as generalizing acc with
    | nil => rfl
    | cons a as ih =>
      obtain ⟨ha, has⟩ := List.forall_mem_cons.1 h
      have hstep : (a :: as).filterAuxM f acc = as.filterAuxM f (bif q a then a :: acc else acc) := by
        rw [List.filterAuxM, ha]
        rfl
      rw [hstep, ih has]
      cases hq : q a <;> simp [hq]
  rw [List.filterM, haux]
  simp [bind, Except.bind, pure, Except.pure]

namespace Artifact

/-- Whether the disk does not hold an artifact. -/
def isPending (t : Tree) (a : Artifact) : Bool := a.isWritten t matches .ok false

/-- A file is pending if it is found not to be written. -/
theorem isPending_of_isWritten {a : Artifact} {t : Tree} {w : Bool} (h : a.isWritten t = .ok w) :
    a.isPending t = !w := by
  rw [isPending, h]
  cases w <;> rfl

/-- A commit counts a file as written if it was not found so before. -/
theorem of_commit {a : Artifact} {t t' : Tree} {w : Bool} (h : a.commit t = (t', .ok w)) :
    a.isWritten t = .ok (!w) := by
  unfold commit at h
  split at h
  · cases h
  · next hw =>
    obtain ⟨-, h⟩ := Prod.mk.inj h
    rw [hw, ← Except.ok.inj h]
    rfl
  · next hw =>
    split at h
    · cases h
    · obtain ⟨-, h⟩ := Prod.mk.inj h
      rw [hw, ← Except.ok.inj h]
      rfl

end Artifact

namespace Realized

variable {done rest : List Artifact} {t₀ t t' : Tree}

/-- A commit finds each artifact as it was before, and counts them. -/
theorem count (h : Realized t₀.view done t) (hapart : Apart t₀.view (done ++ rest))
    (hnodup : (done ++ rest).Nodup) (hsteady : ∀ a ∈ rest, t₀.view.Steady a.path)
    {c c' : Committed} (hc : Scaffold.commitAll rest t c = (t', .ok c')) :
    (∀ a ∈ rest, a.isWritten t₀ = .ok (!a.isPending t₀)) ∧
      c'.written = c.written + rest.countP (·.isPending t₀) ∧
      c'.written + c'.unchanged = c.written + c.unchanged + rest.length := by
  -- Each file is found in `t` as it was in `t₀`, because the committed ones are apart from it.
  induction rest generalizing done t c with
  | nil =>
    obtain ⟨-, hc⟩ := Prod.mk.inj hc
    obtain rfl := Except.ok.inj hc
    simp
  | cons a rest ih =>
    unfold Scaffold.commitAll at hc
    split at hc
    · cases hc
    · next t₁ w hstep =>
      have hnew : a ∉ done := fun hmem =>
        (List.nodup_append.1 hnodup).2.2 a hmem a List.mem_cons_self rfl
      have hsub := List.subset_append_left done (a :: rest)
      have ha : a ∈ done ++ a :: rest := by simp
      obtain ⟨hsteadyA, hsteady⟩ := List.forall_mem_cons.1 hsteady
      have hclear := hapart.notMem_touchedBy hsub ha hnew
      -- what the commit finds now was found before it as well
      have hw := Artifact.isWritten_before h.keeps hclear hsteadyA (Artifact.of_commit hstep)
      have hpending := Artifact.isPending_of_isWritten hw
      have hnext := h.commit hapart.independent hsub ha hnew hstep
      rw [List.append_cons] at hapart hnodup
      obtain ⟨hrest, hwritten, hall⟩ := ih hnext hapart hnodup hsteady hc
      refine ⟨List.forall_mem_cons.2 ⟨by rw [hw, hpending, Bool.not_not], hrest⟩, ?_, ?_⟩
      · rw [hwritten, List.countP_cons, hpending, Bool.not_not]
        cases w <;> simp [Committed.count]
        omega
      · rw [hall, List.length_cons]
        cases w <;> simp [Committed.count] <;> omega

end Realized

namespace Staging

variable {pushes : List (Path × Text)} {t t' : Tree} {s : Staging} {c : Committed}

/-- A dry run lists the pending files if every file can be looked at. -/
theorem pending_eq (h : ∀ a ∈ s.artifacts, a.isWritten t = .ok (!a.isPending t)) :
    s.pending t = .ok (s.artifacts.filter (·.isPending t)) := by
  refine filterM_eq_ok fun a ha => ?_
  rw [h a ha]
  simp [bind, Except.bind, pure, Except.pure]

/-- A commit of what is written already leaves the tree as it is. -/
theorem commitAll_written {as : List Artifact} (h : ∀ a ∈ as, a.isWritten t = .ok true)
    (c : Committed) : commitAll as t c = (t, .ok ⟨c.written, c.unchanged + as.length⟩) := by
  induction as generalizing c with
  | nil => rfl
  | cons a as ih =>
    obtain ⟨ha, has⟩ := List.forall_mem_cons.1 h
    have hstep : a.commit t = (t, .ok false) := by
      rw [Artifact.commit, ha]
    rw [commitAll, hstep]
    dsimp only
    rw [ih has]
    simp [Committed.count]
    omega

/-- What a successful commit of pushed files achieves, and what the dry run says about it. -/
structure Faithful (pushes : List (Path × Text)) (t t' : Tree) (c : Committed) : Prop where
  /-- The file of each path holds what was pushed for it last. Of the paths with equal components, the
  one that was pushed first leads to it. -/
  content : ∀ push ∈ pushes, ∃ p ∈ pushes.map (·.1), p.same push.1 ∧
    ∃ text, lastPushed pushes push.1 = some text ∧ t'.readText p = .ok text
  /-- Every other file is as it was, and there are no more. -/
  others : ∀ l ∉ touchedBy t.view (ofPushes pushes).artifacts, ∀ content,
    t'.find? l = some (.file content) ↔ t.find? l = some (.file content)
  /-- No draft is left where no file was. -/
  drafted : ∀ a ∈ (ofPushes pushes).artifacts, ∀ l, t.view.place? a.draftPath = some l →
    ∀ content, t'.find? l = some (.file content) → t.find? l = some (.file content)
  /-- As many files were written as were pending. -/
  predicted : ∃ pending, (ofPushes pushes).pending t = .ok pending ∧ c.written = pending.length
  counted : c.written + c.unchanged = (pushes.map (·.1.components)).dedup.length
  settled : (ofPushes pushes).pending t' = .ok [] ∧
    (ofPushes pushes).commit t' = (t', .ok ⟨0, (ofPushes pushes).size⟩)

/-- A commit of files whose paths are apart and never climb out of a missing directory puts on the disk
what was pushed, and a dry run predicts it. -/
theorem faithful_commit (hapart : Apart t.view (ofPushes pushes).artifacts)
    (hsteady : ∀ a ∈ (ofPushes pushes).artifacts, t.view.Steady a.path)
    (h : (ofPushes pushes).commit t = (t', .ok c)) : Faithful pushes t t' c := by
  have hnodup := (ofPushes pushes).nodup_artifacts
  have hrealized := (Realized.nil t).commitAll hapart.independent hnodup h
  obtain ⟨hwritten, hcount, hall⟩ := (Realized.nil t).count hapart hnodup hsteady h
  rw [List.nil_append] at hrealized
  constructor
  case content =>
    intro push hpush
    obtain ⟨a, ha, hsame, hlast⟩ := exists_mem_artifacts hpush
    obtain ⟨first, hfirst, hpath⟩ := exists_push_of_mem ha
    refine ⟨a.path, List.mem_map.2 ⟨first, hfirst, hpath⟩, hsame, a.content, hlast, ?_⟩
    exact Artifact.readText_of_isWritten (hrealized.written a ha)
  case others =>
    intro l hl content
    rw [Tree.find?_eq_file_iff, Tree.find?_eq_file_iff]
    exact hrealized.keeps.eq_iff hl (by simp)
  case drafted =>
    intro a ha l hl content
    rw [Tree.find?_eq_file_iff, Tree.find?_eq_file_iff]
    exact hrealized.drafted a ha l hl content
  -- the dry run looks at the tree before the commit, and the commit found each file as it was there
  case predicted =>
    refine ⟨_, pending_eq hwritten, ?_⟩
    rw [hcount, Nat.zero_add, List.countP_eq_length_filter]
  case counted =>
    rw [hall, ← size_ofPushes]
    simp [size]
  -- nothing is pending any more, so that a second commit writes nothing
  case settled =>
    have hfinal : ∀ a ∈ (ofPushes pushes).artifacts, a.isPending t' = false := fun a ha =>
      Artifact.isPending_of_isWritten (hrealized.written a ha)
    constructor
    · rw [pending_eq fun a ha => by rw [hfinal a ha, hrealized.written a ha]; rfl]
      simpa using hfinal
    · rw [commit, commitAll_written hrealized.written]
      simp [size]

/-! ## Runs -/

/-- A directory under two names; one of them is a link. -/
def linkedTree : Tree :=
  ⟨[("alias".toList, .link "real".toList),
    ("real".toList, .directory [("x.go".toList, .file (.text "one".toList))])]⟩

/-- Pushes to a file behind a link, to one in a directory that is missing, and to the first again. -/
def linkedPushes : List (Path × Text) :=
  [(⟨"alias/x.go".toList⟩, "two".toList), (⟨"gen/y.go".toList⟩, "three".toList),
    (⟨"alias//x.go".toList⟩, "four".toList)]

private theorem artifacts_linkedPushes : (ofPushes linkedPushes).artifacts =
    [⟨⟨"alias/x.go".toList⟩, "four".toList⟩, ⟨⟨"gen/y.go".toList⟩, "three".toList⟩] := by
  cbv

private theorem steady_linkedPushes :
    ∀ a ∈ (ofPushes linkedPushes).artifacts, linkedTree.view.Steady a.path := by
  have hx : (linkedTree.view.courseTo ⟨"alias/x.go".toList⟩).passed =
      [["alias".toList], ["real".toList], ["real".toList, "x.go".toList]] := by cbv
  have hy : (linkedTree.view.courseTo ⟨"gen/y.go".toList⟩).passed =
      [["gen".toList], ["gen".toList, "y.go".toList]] := by cbv
  simp only [artifacts_linkedPushes, List.forall_mem_cons, View.Steady, hx, hy]
  decide +kernel

/-- A commit through a link and into a directory that is made for it. -/
theorem faithful_commit_linked :
    Apart linkedTree.view (ofPushes linkedPushes).artifacts ∧
      (∀ a ∈ (ofPushes linkedPushes).artifacts, linkedTree.view.Steady a.path) ∧
      ((ofPushes linkedPushes).commit linkedTree).2 = .ok ⟨2, 0⟩ ∧
      Faithful linkedPushes linkedTree ((ofPushes linkedPushes).commit linkedTree).1 ⟨2, 0⟩ := by
  have hapart : Apart linkedTree.view (ofPushes linkedPushes).artifacts :=
    areApart_iff.1 (by cbv)
  have hcommit : ((ofPushes linkedPushes).commit linkedTree).2 = .ok ⟨2, 0⟩ := by cbv
  exact ⟨hapart, steady_linkedPushes, hcommit,
    faithful_commit hapart steady_linkedPushes (Prod.ext rfl hcommit)⟩

/-- A link where the draft of `out/x.go` is put: it leads to the file itself. -/
def draftLinkTree : Tree :=
  ⟨[("out".toList, .directory [(".x.go.resolvgen.tmp".toList, .link "x.go".toList),
    ("x.go".toList, .file (.text "old".toList))])]⟩

/-- A link that the path `x/../x` goes over and ends at. -/
def ownLinkTree : Tree := ⟨[("d".toList, .directory []), ("x".toList, .link "d".toList)]⟩

/-- A file that `gen/../y.go` leads to once there is a directory `gen`. -/
def writtenTree : Tree := ⟨[("y.go".toList, .file (.text "new".toList))]⟩

/-- Pushes that make a directory and climb out of it. -/
def climbingPushes : List (Path × Text) :=
  [(⟨"gen/x.go".toList⟩, "one".toList), (⟨"gen/../y.go".toList⟩, "new".toList)]

/-- Without the conditions, a commit can succeed and put nothing readable in its place, because a link
stands where the draft is put or because the path goes over its own place; and it can write less than
was pending, because a path climbs out of a directory that was missing. -/
theorem unfaithful_commits :
    (∃ t', (ofPushes [(⟨"out/x.go".toList⟩, "new".toList)]).commit draftLinkTree = (t', .ok ⟨1, 0⟩) ∧
      t'.readText ⟨"out/x.go".toList⟩ = .error .tooManyLinks) ∧
    (∃ t', (ofPushes [(⟨"x/../x".toList⟩, "new".toList)]).commit ownLinkTree = (t', .ok ⟨1, 0⟩) ∧
      t'.readText ⟨"x/../x".toList⟩ = .error .notADirectory) ∧
    (∃ t', (ofPushes climbingPushes).commit writtenTree = (t', .ok ⟨1, 1⟩) ∧
      ((ofPushes climbingPushes).pending writtenTree).map List.length = .ok 2) := by
  refine ⟨⟨_, Prod.ext rfl ?_, ?_⟩, ⟨_, Prod.ext rfl ?_, ?_⟩, _, Prod.ext rfl ?_, ?_⟩
  -- `cbv` climbs by the equations of `List.tail`, which are imported with the stack machines
  all_goals cbv

end Staging

end Scaffold
