/-!
# Tables

A table keeps one value for each key, in increasing order of the keys; putting a value under a key
that is there already replaces the old one. The order is part of the type, so that whatever is
listed from a table comes out sorted. Main statements: what `get?` finds after `put`
(`get?_put_self`, `get?_put_of_ne`).
-/

namespace Scaffold

open Std

/-- Rows of keys and values, with strictly increasing keys. -/
structure Table (κ : Type) [Ord κ] (α : Type) where
  rows : List (κ × α)
  increasing : rows.Pairwise fun a b => compare a.1 b.1 = .lt

namespace Table

variable {κ α : Type} [Ord κ]

def empty : Table κ α := ⟨[], .nil⟩

instance : Inhabited (Table κ α) := ⟨empty⟩

/-- Puts a row where its key belongs; a row with the same key is replaced. -/
def putRow (k : κ) (v : α) : List (κ × α) → List (κ × α)
  | [] => [(k, v)]
  | row :: rows =>
    match compare k row.1 with
    | .lt => (k, v) :: row :: rows
    | .eq => (k, v) :: rows
    | .gt => row :: putRow k v rows

theorem mem_putRow {k : κ} {v : α} {rows : List (κ × α)} {row : κ × α}
    (h : row ∈ putRow k v rows) : row = (k, v) ∨ row ∈ rows := by
  induction rows with
  | nil => simpa [putRow] using h
  | cons first rows ih => grind [putRow]

theorem increasing_putRow [TransOrd κ] (k : κ) (v : α) {rows : List (κ × α)}
    (h : rows.Pairwise fun a b => compare a.1 b.1 = .lt) :
    (putRow k v rows).Pairwise fun a b => compare a.1 b.1 = .lt := by
  induction rows with
  | nil => simp [putRow]
  | cons first rows ih =>
    obtain ⟨hfirst, hrows⟩ := List.pairwise_cons.1 h
    unfold putRow
    split
    · next hk =>
      refine List.pairwise_cons.2 ⟨fun row hrow => ?_, h⟩
      rcases List.mem_cons.1 hrow with rfl | hrow
      · exact hk
      · exact TransCmp.lt_trans hk (hfirst row hrow)
    · next hk =>
      refine List.pairwise_cons.2 ⟨fun row hrow => ?_, hrows⟩
      exact TransCmp.lt_of_eq_of_lt hk (hfirst row hrow)
    · next hk =>
      refine List.pairwise_cons.2 ⟨fun row hrow => ?_, ih hrows⟩
      rcases mem_putRow hrow with rfl | hrow
      · exact OrientedCmp.gt_iff_lt.1 hk
      · exact hfirst row hrow

def put [TransOrd κ] (t : Table κ α) (k : κ) (v : α) : Table κ α :=
  ⟨putRow k v t.rows, increasing_putRow k v t.increasing⟩

/-- The value of the row with the key `k`. -/
def getRow? (k : κ) (rows : List (κ × α)) : Option α :=
  (rows.find? fun row => compare k row.1 == .eq).map (·.2)

def get? (t : Table κ α) (k : κ) : Option α := getRow? k t.rows

def eraseRow (k : κ) (rows : List (κ × α)) : List (κ × α) :=
  rows.filter fun row => compare k row.1 != .eq

def erase (t : Table κ α) (k : κ) : Table κ α := ⟨eraseRow k t.rows, t.increasing.filter _⟩

def keys (t : Table κ α) : List κ := t.rows.map (·.1)

/-- The values, in increasing order of their keys. -/
def values (t : Table κ α) : List α := t.rows.map (·.2)

def size (t : Table κ α) : Nat := t.rows.length

/-- Puts one value after the other, so that the last one under a key stays. -/
def ofList [TransOrd κ] (entries : List (κ × α)) : Table κ α :=
  entries.foldl (fun t entry => t.put entry.1 entry.2) empty

theorem getRow?_putRow_self [ReflOrd κ] (k : κ) (v : α) (rows : List (κ × α)) :
    getRow? k (putRow k v rows) = some v := by
  unfold getRow?
  induction rows with
  | nil => simp [putRow]
  | cons first rows ih =>
    unfold putRow
    split <;> simp_all

theorem getRow?_putRow_of_ne [TransOrd κ] [LawfulEqOrd κ] {k k' : κ} (v : α) (rows : List (κ × α))
    (hne : k' ≠ k) : getRow? k' (putRow k v rows) = getRow? k' rows := by
  unfold getRow?
  have hk : compare k' k ≠ .eq := fun hc => hne (LawfulEqCmp.eq_of_compare hc)
  induction rows with
  | nil => simp [putRow, hk]
  | cons first rows ih =>
    unfold putRow
    split
    · simp [hk]
    · next hc =>
      have : compare k' first.1 ≠ .eq := by
        rw [← LawfulEqCmp.eq_of_compare hc]; exact hk
      simp [hk, this]
    · simp only [List.find?_cons]
      split <;> simp_all

theorem get?_put_self [TransOrd κ] (t : Table κ α) (k : κ) (v : α) :
    (t.put k v).get? k = some v := getRow?_putRow_self k v t.rows

theorem get?_put_of_ne [TransOrd κ] [LawfulEqOrd κ] (t : Table κ α) {k k' : κ} (v : α)
    (hne : k' ≠ k) : (t.put k v).get? k' = t.get? k' := getRow?_putRow_of_ne v t.rows hne

end Table

end Scaffold
