import Scaffold.Text.Letter

/-!
# Words of an identifier

An identifier is cut into words where the class of its characters changes. Between a run of capital
letters and a run of small letters the last capital belongs to the small letters, so `HTTPServer`
is `HTTP`, `Server`. Recasing writes the words `id` and `api` in capitals when other words stand
beside them. Main statement: the words of an identifier concatenate to it (`flatten_words`).
-/

namespace Scaffold.Naming

open Text

/-- The class of a character that matters for cutting words. -/
inductive Class where
  | lower
  | upper
  | digit
  | other
  deriving DecidableEq, Repr

/-- The class of a character. -/
def Class.of (c : Char) : Class :=
  if isLower c then .lower
  else if isUpper c then .upper
  else if isNumber c then .digit
  else .other

/-! ## Cutting by classes

What is cut from what depends on the classes of the characters alone, so the classes are a parameter
here. -/

section

variable (classOf : Char → Class)

/-- Puts `c` in front of the first run if it has the class of that run, and else in a run of its
own. -/
def extend (c : Char) : List Text → List Text
  | (d :: run) :: rest =>
    if classOf c = classOf d then (c :: d :: run) :: rest else [c] :: (d :: run) :: rest
  | rest => [c] :: rest

/-- The longest runs of characters of one class. -/
def runs : Text → List Text
  | [] => []
  | c :: s => extend classOf c (runs s)

def startsWith (k : Class) (run : Text) : Bool := run.head?.map classOf == some k

/-- Goes through the runs and moves the last capital before small letters over to them. -/
def handOver (run : Text) : List Text → List Text
  | [] => [run]
  | next :: rest =>
    if startsWith classOf .upper run && startsWith classOf .lower next then
      run.dropLast :: handOver (run.getLast?.toList ++ next) rest
    else run :: handOver next rest

/-- The words of a text whose characters are classified. -/
def wordsBy (s : Text) : List Text :=
  match runs classOf s with
  | [] => []
  | run :: rest => (handOver classOf run rest).filter (· ≠ [])

end

/-! ## Identifiers -/

def words (s : Text) : List Text := wordsBy Class.of s

/-- Whether a word reads `id` or `api` when letter case does not count. -/
def isAcronym (word : Text) : Bool :=
  word.map Char.toLower = "id".toList || word.map Char.toLower = "api".toList

/-- An identifier with the acronyms among its words in capitals, unless it is a single word. -/
def recase (s : Text) : Text :=
  let ws := words s
  if ws.length > 1 then
    ws.flatMap fun word => if isAcronym word then word.map Char.toUpper else word
  else ws.flatten

/-- An identifier with its first character in its capital form. -/
def capitalize : Text → Text
  | [] => []
  | c :: s => capital c ++ s

/-! ## Nothing is lost -/

section

variable (classOf : Char → Class)

theorem flatten_extend (c : Char) (rs : List Text) :
    (extend classOf c rs).flatten = c :: rs.flatten := by
  unfold extend
  split
  · split <;> rfl
  · rfl

theorem flatten_runs (s : Text) : (runs classOf s).flatten = s := by
  induction s with
  | nil => rfl
  | cons c s ih => rw [runs, flatten_extend, ih]

theorem flatten_filter_ne_nil (ts : List Text) : (ts.filter (· ≠ [])).flatten = ts.flatten := by
  induction ts with
  | nil => rfl
  | cons t ts ih => cases t <;> simp_all

theorem flatten_handOver (run : Text) (rest : List Text) :
    (handOver classOf run rest).flatten = run ++ rest.flatten := by
  fun_induction handOver classOf run rest with
  | case1 run => simp
  | case2 run next rest h ih =>
    have hrun : run ≠ [] := by
      rintro rfl
      simp [startsWith] at h
    obtain ⟨front, last, rfl⟩ := List.eq_nil_or_concat run |>.resolve_left hrun
    simp_all
  | case3 run next rest h ih => simp [ih]

/-- Cutting a text into words loses nothing. -/
theorem flatten_wordsBy (s : Text) : (wordsBy classOf s).flatten = s := by
  have hruns := flatten_runs classOf s
  unfold wordsBy
  split
  · next h => rw [h] at hruns; simpa using hruns
  · next run rest h =>
    rw [flatten_filter_ne_nil, flatten_handOver]
    rw [h] at hruns; simpa using hruns

end

/-- Cutting an identifier into words loses nothing. -/
theorem flatten_words (s : Text) : (words s).flatten = s := flatten_wordsBy Class.of s

end Scaffold.Naming
