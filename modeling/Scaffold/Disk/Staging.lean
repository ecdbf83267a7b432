import Scaffold.Disk.Tree
import Scaffold.Error

/-!
# Staged artifacts

Files are not written while they are rendered: they are staged, and once everything is rendered the
staged files that differ from the disk are written, each beside its place and then moved there. A
path is staged at most once (`Staging.distinct`); staging it again replaces the content. Main
statements: the content staged last is the one that is found (`get?_push_self`), and staging leaves
other paths alone (`get?_push_of_not_same`).
-/

namespace Scaffold

/-- A file to be written. -/
structure Artifact where
  path : Path
  content : Text
  deriving DecidableEq, Repr, Inhabited

/-- Artifacts in the order in which their paths were staged first. -/
structure Staging where
  artifacts : List Artifact
  /-- No two paths name one file. -/
  distinct : artifacts.Pairwise fun a b => ¬ a.path.same b.path

namespace Path

theorem same_comm (p q : Path) : p.same q = q.same p := by
  simp [same, eq_comm]

end Path

namespace Staging

def empty : Staging := ⟨[], .nil⟩

instance : Inhabited Staging := ⟨empty⟩

/-- Gives the artifact at a path another content, or puts a new artifact at the end. -/
def restage (p : Path) (content : Text) : List Artifact → List Artifact
  | [] => [⟨p, content⟩]
  | a :: rest => if a.path.same p then ⟨a.path, content⟩ :: rest else a :: restage p content rest

theorem path_of_mem_restage {p : Path} {content : Text} {as : List Artifact} {b : Artifact}
    (h : b ∈ restage p content as) : b.path = p ∨ ∃ a ∈ as, a.path = b.path := by
  induction as with
  | nil =>
    left
    rw [restage, List.mem_singleton] at h
    rw [h]
  | cons a rest ih => grind [restage]

theorem distinct_restage (p : Path) (content : Text) {as : List Artifact}
    (h : as.Pairwise fun a b => ¬ a.path.same b.path) :
    (restage p content as).Pairwise fun a b => ¬ a.path.same b.path := by
  induction as with
  | nil => simp [restage]
  | cons a rest ih =>
    obtain ⟨ha, hrest⟩ := List.pairwise_cons.1 h
    unfold restage
    split
    · exact List.pairwise_cons.2 ⟨ha, hrest⟩
    · next hne =>
      refine List.pairwise_cons.2 ⟨fun b hb => ?_, ih hrest⟩
      rcases path_of_mem_restage hb with hb | ⟨c, hc, hcb⟩
      · rw [hb]
        exact hne
      · rw [← hcb]
        exact ha c hc

def push (s : Staging) (p : Path) (content : Text) : Staging :=
  ⟨restage p content s.artifacts, distinct_restage p content s.distinct⟩

def get? (s : Staging) (p : Path) : Option Artifact := s.artifacts.find? (·.path.same p)

def size (s : Staging) : Nat := s.artifacts.length

/-- The paths of the artifacts, as they were staged first. -/
def paths (s : Staging) : List Path := s.artifacts.map (·.path)

theorem get?_push_self (s : Staging) (p : Path) (content : Text) :
    ((s.push p content).get? p).map (·.content) = some content := by
  obtain ⟨as, h⟩ := s
  simp only [push, get?]
  clear h
  induction as with
  | nil => simp [restage, Path.same]
  | cons a rest ih =>
    unfold restage
    split <;> simp_all

theorem get?_push_of_not_same (s : Staging) {p q : Path} (content : Text) (h : ¬ p.same q) :
    (s.push p content).get? q = s.get? q := by
  obtain ⟨as, hd⟩ := s
  simp only [push, get?]
  clear hd
  induction as with
  | nil => simp [restage, h]
  | cons a rest ih =>
    unfold restage
    split
    · next ha =>
      have hq : ¬ a.path.same q := by
        simp only [Path.same, decide_eq_true_eq] at ha h ⊢
        rwa [ha]
      simp [hq]
    · simp only [List.find?_cons]
      split <;> simp_all

end Staging

/-! ## Staged files and the disk -/

/-- The text of a file that may be missing. -/
def readExisting (t : Tree) (p : Path) : Except EmitError (Option Text) :=
  match t.readText p with
  | .ok s => .ok (some s)
  | .error .noSuchFile => .ok none
  | .error cause => .error (.unreadable p cause)

namespace Artifact

/-- Whether the disk holds an artifact already. -/
def isWritten (t : Tree) (a : Artifact) : Except EmitError Bool :=
  match t.lookup a.path with
  | .ok (.file content) => .ok (content = .text a.content)
  | .ok _ => .ok false
  | .error .noSuchFile => .ok false
  | .error cause => .error (.unreadable a.path cause)

/-- The path beside the place of an artifact where it is written first. -/
def draftPath (a : Artifact) : Path :=
  a.path.withFileName ('.' :: (a.path.fileName?).getD [] ++ ".resolvgen.tmp".toList)

/-- Writes an artifact beside its place and moves it there. If moving fails, the draft is
removed. -/
def write (t : Tree) (a : Artifact) : Tree × Except EmitError Unit :=
  match t.makeDirectories ((a.path.parent?).getD ⟨[]⟩) with
  | (t, .error cause) => (t, .error (.unwritable a.path cause))
  | (t, .ok ()) =>
    match t.write a.draftPath (.text a.content) with
    | .error cause => (t, .error (.unwritable a.draftPath cause))
    | .ok drafted =>
      match drafted.moveFile a.draftPath a.path with
      | .ok done => (done, .ok ())
      | .error cause =>
        ((drafted.removeFile a.draftPath).toOption.getD drafted,
          .error (.commit a.draftPath a.path cause))

/-- Writes an artifact if the disk does not hold it yet; the answer is whether it was written. -/
def commit (t : Tree) (a : Artifact) : Tree × Except EmitError Bool :=
  match a.isWritten t with
  | .error e => (t, .error e)
  | .ok true => (t, .ok false)
  | .ok false =>
    match a.write t with
    | (t, .error e) => (t, .error e)
    | (t, .ok ()) => (t, .ok true)

end Artifact

/-- What a commit did. -/
structure Committed where
  written : Nat
  unchanged : Nat
  deriving DecidableEq, Repr, Inhabited

def Committed.count (c : Committed) (wasWritten : Bool) : Committed :=
  if wasWritten then { c with written := c.written + 1 }
  else { c with unchanged := c.unchanged + 1 }

/-- Commits artifacts one after the other, up to the first that fails. -/
def commitAll : List Artifact → Tree → Committed → Tree × Except EmitError Committed
  | [], t, c => (t, .ok c)
  | a :: rest, t, c =>
    match a.commit t with
    | (t, .error e) => (t, .error e)
    | (t, .ok wasWritten) => commitAll rest t (c.count wasWritten)

namespace Staging

/-- The artifacts that the disk does not hold yet. -/
def pending (s : Staging) (t : Tree) : Except EmitError (List Artifact) :=
  s.artifacts.filterM fun a => return !(← a.isWritten t)

/-- Writes what the disk does not hold yet. -/
def commit (s : Staging) (t : Tree) : Tree × Except EmitError Committed :=
  commitAll s.artifacts t ⟨0, 0⟩

end Staging

end Scaffold
