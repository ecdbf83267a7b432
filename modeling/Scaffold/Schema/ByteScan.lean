import Scaffold.Schema.TypeBlock

/-!
# The type block by byte positions

A schema file is read as bytes. The scanner of type blocks goes from one position to the next, reads a byte
there, and cuts the block out between two positions. A byte can be read only in front of the end, a cut must
not go through a character, and the depth of braces is a number that cannot be negative: where one of these is
broken the scanner stops with a `Fault`. `interiorBytes` is the whole scanner; what it cuts out are the bytes
of the text that `interior?` finds.
-/

namespace Scaffold.Schema

open Text

/-- Why the scanner stops before it is done. -/
inductive Fault where
  /-- A position behind the end. -/
  | range
  /-- A cut through a character. -/
  | boundary
  /-- A depth below zero. -/
  | underflow
  deriving DecidableEq, Repr

/-! ## Bytes and positions -/

def byteAt (bytes : List UInt8) (i : Nat) : Except Fault UInt8 :=
  if h : i < bytes.length then .ok bytes[i] else .error .range

def bytesFrom (bytes : List UInt8) (i : Nat) : Except Fault (List UInt8) :=
  if i ≤ bytes.length then .ok (bytes.drop i) else .error .range

/-- Whether a position is between two characters: the bytes inside of a character go from 128 to 191. -/
def isBoundary (bytes : List UInt8) (i : Nat) : Bool :=
  i = 0 || i = bytes.length || bytes[i]?.any fun b => b < 128 || 192 ≤ b

/-- The characters between two positions. -/
def slice (bytes : List UInt8) (start stop : Nat) : Except Fault (List UInt8) :=
  if ¬(start ≤ stop ∧ stop ≤ bytes.length) then .error .range
  else if isBoundary bytes start && isBoundary bytes stop then
    .ok ((bytes.drop start).take (stop - start))
  else .error .boundary

def positionOf? (p : List UInt8) : List UInt8 → Option Nat
  | [] => if p = [] then some 0 else none
  | b :: s => if p.isPrefixOf (b :: s) then some 0 else (positionOf? p s).map (· + 1)

/-! ## Documentation -/

/-- Where a description ends whose opening quote has been read. -/
def descriptionEnd (bytes : List UInt8) (j : Nat) : Nat :=
  if h : j < bytes.length then
    if bytes[j] = '\\'.toUInt8 then descriptionEnd bytes (j + 2)
    else if bytes[j] = '"'.toUInt8 then j + 1
    else if bytes[j] = '\n'.toUInt8 then j
    else descriptionEnd bytes (j + 1)
  else bytes.length
termination_by bytes.length - j

/-- Where the documentation ends that begins at a position, if some does. -/
def docEnd? (bytes : List UInt8) (i : Nat) : Except Fault (Option Nat) := do
  let b ← byteAt bytes i
  if b = '#'.toUInt8 then
    let rest ← bytesFrom bytes i
    return some ((rest.findIdx? (· == '\n'.toUInt8)).elim bytes.length (i + ·))
  else if b = '"'.toUInt8 then
    let rest ← bytesFrom bytes i
    if (bytesOf blockQuotes).isPrefixOf rest then
      let inside ← bytesFrom bytes (i + 3)
      return some ((positionOf? (bytesOf blockQuotes) inside).elim bytes.length (i + 3 + · + 3))
    else return some (descriptionEnd bytes (i + 1))
  else return none

theorem le_descriptionEnd (bytes : List UInt8) (j : Nat) :
    min j bytes.length ≤ descriptionEnd bytes j := by
  fun_induction descriptionEnd bytes j <;> omega

/-- Documentation has at least one byte. -/
theorem lt_of_docEnd? {bytes : List UInt8} {i stop : Nat} (h : docEnd? bytes i = .ok (some stop)) :
    i < stop := by
  have hpast {o : Option Nat} (f : Nat → Nat) (hi : i < bytes.length) (hf : ∀ p ∈ o, i < f p) :
      i < o.elim bytes.length f := by
    cases o with
    | none => exact hi
    | some p => exact hf p rfl
  unfold docEnd? byteAt bytesFrom at h
  by_cases hi : i < bytes.length
  · simp only [hi, Nat.le_of_lt hi, dite_true, if_true, bind, Except.bind, pure, Except.pure] at h
    split at h
    · next hhash =>
      -- the newline is not where the comment begins
      obtain rfl := Option.some.inj (Except.ok.inj h)
      refine hpast _ hi fun p hp => ?_
      rw [List.drop_eq_getElem_cons hi, hhash, List.findIdx?_cons] at hp
      obtain ⟨q, -, rfl⟩ := Option.map_eq_some_iff.1 hp
      omega
    · split at h
      · split at h
        · split at h
          · cases h
          · obtain rfl := Option.some.inj (Except.ok.inj h)
            exact hpast _ hi fun p _ => by omega
        · obtain rfl := Option.some.inj (Except.ok.inj h)
          have := le_descriptionEnd bytes (i + 1)
          omega
      · cases h
  · simp only [hi, dite_false, bind, Except.bind] at h
    cases h

/-! ## The block -/

/-- Goes on from a position, over documentation as a whole and over anything else byte by byte, up to the
position `start` or behind it. -/
def advance (bytes : List UInt8) (pos start : Nat) : Except Fault Nat :=
  if pos < start then
    match h : docEnd? bytes pos with
    | .error fault => .error fault
    | .ok (some next) => advance bytes next start
    | .ok none => advance bytes (pos + 1) start
  else .ok pos
termination_by start - pos
decreasing_by
  · have := lt_of_docEnd? h
    omega
  · omega

/-- Where the first header ends that does not begin inside documentation. The headers come from left to right,
with the positions where they begin and end. -/
def firstHeader? (bytes : List UInt8) : (pos : Nat) → (headers : List (Nat × Nat)) →
    Except Fault (Option Nat)
  | _, [] => .ok none
  | pos, (start, stop) :: headers => do
    let next ← advance bytes pos start
    if next = start then return some stop else firstHeader? bytes next headers

/-- The bytes of a block that begins at `start`, up to the brace that closes it. -/
def blockBytes (bytes : List UInt8) (start depth i : Nat) : Except Fault (List UInt8) :=
  if hi : i < bytes.length then
    match h : docEnd? bytes i with
    | .error fault => .error fault
    | .ok (some next) => blockBytes bytes start depth next
    | .ok none =>
      if bytes[i] = '{'.toUInt8 then blockBytes bytes start (depth + 1) (i + 1)
      else if bytes[i] = '}'.toUInt8 then
        if depth = 0 then .error .underflow
        else if depth - 1 = 0 then slice bytes start i
        else blockBytes bytes start (depth - 1) (i + 1)
      else blockBytes bytes start depth (i + 1)
  else slice bytes start bytes.length
termination_by bytes.length - i
decreasing_by
  · have := lt_of_docEnd? h
    omega
  all_goals omega

/-- The positions where the matches among some pieces begin and end; the first piece begins at `pos`. -/
def spans {α : Type} : (pos : Nat) → List (Piece α) → List (Nat × Nat)
  | _, [] => []
  | pos, .loose c :: ps => spans (pos + byteSize [c]) ps
  | pos, .found _ taken :: ps => (pos, pos + byteSize taken) :: spans (pos + byteSize taken) ps

/-- The bytes of the interior of the first type block of a text. -/
def interiorBytes (s : Text) : Except Fault (Option (List UInt8)) := do
  let bytes := bytesOf s
  match ← firstHeader? bytes 0 (spans 0 (pieces typeHeader s)) with
  | none => return none
  | some start => return some (← blockBytes bytes start 1 start)

end Scaffold.Schema
