import Scaffold.Table
import Mathlib.Data.List.Induction
import Mathlib.Data.List.Nodup
import Mathlib.Data.List.Perm.Basic

/-!
# What tables hold

The values of a table after something was put into it or taken out, up to their order
(`perm_values_of_get?`, `perm_values_put`), and what is found in a table that was made from a list
(`get?_ofList`). A table is known by what is found in it (`ext_get?`), so that entries with different
keys make the same table in any order (`ofList_perm`).
-/

namespace Scaffold.Table

open Std
open scoped List

variable {κ α : Type} [Ord κ]

/-! ## Rows -/

/-- Where keys are increasing, a key that stands in front stands nowhere else. -/
theorem getRow?_eq_none_of_increasing {row : κ × α} {rows : List (κ × α)}
    (h : (row :: rows).Pairwise fun a b => compare a.1 b.1 = .lt) : getRow? row.1 rows = none := by
  have hlt := (List.pairwise_cons.1 h).1
  rw [getRow?, Option.map_eq_none_iff, List.find?_eq_none]
  intro other hother
  simp [hlt other hother]

variable [LawfulEqOrd κ]

theorem getRow?_cons_self (k : κ) (v : α) (rows : List (κ × α)) :
    getRow? k ((k, v) :: rows) = some v := by
  simp [getRow?]

/-- The first row does not matter for a key that is not its own. -/
theorem getRow?_cons_of_ne {k : κ} {row : κ × α} (h : k ≠ row.1) (rows : List (κ × α)) :
    getRow? k (row :: rows) = getRow? k rows := by
  have hne : compare k row.1 ≠ .eq := fun hc => h (LawfulEqCmp.eq_of_compare hc)
  simp [getRow?, hne]

theorem eraseRow_cons_self (k : κ) (v : α) (rows : List (κ × α)) :
    eraseRow k ((k, v) :: rows) = eraseRow k rows := by
  simp [eraseRow]

/-- Erasing keeps the first row if it has another key. -/
theorem eraseRow_cons_of_ne {k : κ} {row : κ × α} (h : k ≠ row.1) (rows : List (κ × α)) :
    eraseRow k (row :: rows) = row :: eraseRow k rows := by
  have hne : compare k row.1 ≠ .eq := fun hc => h (LawfulEqCmp.eq_of_compare hc)
  simp [eraseRow, hne]

/-- An erased key is found no more. -/
theorem getRow?_eraseRow_self (k : κ) (rows : List (κ × α)) :
    getRow? k (eraseRow k rows) = none := by
  induction rows with
  | nil => rfl
  | cons row rows ih =>
    by_cases h : k = row.1
    · obtain rfl := h
      rw [eraseRow_cons_self, ih]
    · rw [eraseRow_cons_of_ne h, getRow?_cons_of_ne h, ih]

/-- Erasing a key does not change what is found under another one. -/
theorem getRow?_eraseRow_of_ne {k k' : κ} (h : k' ≠ k) (rows : List (κ × α)) :
    getRow? k' (eraseRow k rows) = getRow? k' rows := by
  induction rows with
  | nil => rfl
  | cons row rows ih =>
    by_cases hk : k = row.1
    · obtain rfl := hk
      rw [eraseRow_cons_self, ih, getRow?_cons_of_ne h]
    · rw [eraseRow_cons_of_ne hk]
      by_cases hk' : k' = row.1
      · obtain rfl := hk'
        rw [getRow?_cons_self, getRow?_cons_self]
      · rw [getRow?_cons_of_ne hk', getRow?_cons_of_ne hk', ih]

/-- Erasing a key that is not there changes nothing. -/
theorem eraseRow_of_getRow?_eq_none {k : κ} {rows : List (κ × α)} (h : getRow? k rows = none) :
    eraseRow k rows = rows := by
  induction rows with
  | nil => rfl
  | cons row rows ih =>
    by_cases hk : k = row.1
    · obtain rfl := hk
      rw [getRow?_cons_self] at h
      cases h
    · rw [getRow?_cons_of_ne hk] at h
      rw [eraseRow_cons_of_ne hk, ih h]

/-- Rows are the one that is found under a key and those that are left without it. -/
theorem perm_eraseRow {k : κ} {v : α} {rows : List (κ × α)}
    (hrows : rows.Pairwise fun a b => compare a.1 b.1 = .lt) (h : getRow? k rows = some v) :
    rows.Perm ((k, v) :: eraseRow k rows) := by
  induction rows with
  | nil => simp [getRow?] at h
  | cons row rows ih =>
    by_cases hk : k = row.1
    · obtain rfl := hk
      rw [getRow?_cons_self, Option.some.injEq] at h
      obtain rfl := h
      -- the keys increase, so the key does not come again and the rest stays whole
      rw [eraseRow_cons_self, eraseRow_of_getRow?_eq_none (getRow?_eq_none_of_increasing hrows)]
    · rw [getRow?_cons_of_ne hk] at h
      rw [eraseRow_cons_of_ne hk]
      exact ((ih (List.pairwise_cons.1 hrows).2 h).cons row).trans (.swap _ _ _)

/-- Erasing a key forgets what was put under it. -/
theorem eraseRow_putRow (k : κ) (v : α) (rows : List (κ × α)) :
    eraseRow k (putRow k v rows) = eraseRow k rows := by
  induction rows with
  | nil => simp [putRow, eraseRow]
  | cons row rows ih =>
    -- `putRow` goes in front of the first row, takes its place or goes on behind it
    unfold putRow
    split
    · rw [eraseRow_cons_self]
    · next hk =>
      obtain rfl : k = row.1 := LawfulEqCmp.eq_of_compare hk
      rw [eraseRow_cons_self, eraseRow_cons_self]
    · next hk =>
      have hne : k ≠ row.1 := by
        rintro rfl
        simp at hk
      rw [eraseRow_cons_of_ne hne, eraseRow_cons_of_ne hne, ih]

/-! ## Tables -/

section

variable {β : Type}

omit [LawfulEqOrd κ]

/-- The table with `f` applied to its values. -/
def map (f : α → β) (t : Table κ α) : Table κ β :=
  ⟨t.rows.map fun row => (row.1, f row.2), List.pairwise_map.2 t.increasing⟩

/-- What is found among changed values is the changed value that was found before. -/
theorem get?_map (f : α → β) (t : Table κ α) (k : κ) : (t.map f).get? k = (t.get? k).map f := by
  show getRow? k (t.rows.map fun row => (row.1, f row.2)) = (getRow? k t.rows).map f
  rw [getRow?, getRow?, List.find?_map, Option.map_map, Option.map_map]
  rfl

theorem values_map (f : α → β) (t : Table κ α) : (t.map f).values = t.values.map f := by
  show (t.rows.map fun row => (row.1, f row.2)).map Prod.snd = (t.rows.map Prod.snd).map f
  rw [List.map_map, List.map_map]
  rfl

/-- Values are changed before a key is erased, or after. -/
theorem erase_map (f : α → β) (t : Table κ α) (k : κ) : (t.map f).erase k = (t.erase k).map f := by
  have hrows : eraseRow k (t.rows.map fun row => (row.1, f row.2)) =
      (eraseRow k t.rows).map fun row => (row.1, f row.2) := List.filter_map
  simp only [erase, map, hrows]

end

theorem get?_erase_self (t : Table κ α) (k : κ) : (t.erase k).get? k = none :=
  getRow?_eraseRow_self k t.rows

theorem get?_erase_of_ne (t : Table κ α) {k k' : κ} (h : k' ≠ k) :
    (t.erase k).get? k' = t.get? k' :=
  getRow?_eraseRow_of_ne h t.rows

/-- Without a key that was not there, a table has the same values. -/
theorem values_erase_of_get?_eq_none {t : Table κ α} {k : κ} (h : t.get? k = none) :
    (t.erase k).values = t.values :=
  congrArg (List.map Prod.snd) (eraseRow_of_getRow?_eq_none h)

/-- A table holds what is found under a key, and what is left without it. -/
theorem perm_values_of_get? {t : Table κ α} {k : κ} {v : α} (h : t.get? k = some v) :
    t.values.Perm (v :: (t.erase k).values) :=
  (perm_eraseRow t.increasing h).map Prod.snd

/-- What is found under a key is one of the values. -/
theorem mem_values_of_get? {t : Table κ α} {k : κ} {v : α} (h : t.get? k = some v) :
    v ∈ t.values :=
  (perm_values_of_get? h).mem_iff.2 List.mem_cons_self

/-- A table holds what is found under a key, if anything is, and what is left without it. -/
theorem perm_values_erase (t : Table κ α) (k : κ) :
    t.values.Perm ((t.get? k).toList ++ (t.erase k).values) := by
  cases h : t.get? k with
  | none => rw [values_erase_of_get?_eq_none h]; rfl
  | some v => exact perm_values_of_get? h

/-- The rows with a key: the one that is found under it, if there is one. -/
theorem filter_rows [DecidableEq κ] (t : Table κ α) (k : κ) :
    t.rows.filter (·.1 = k) = (t.get? k).toList.map (k, ·) := by
  obtain ⟨rows, hrows⟩ := t
  show rows.filter (·.1 = k) = (getRow? k rows).toList.map (k, ·)
  induction rows with
  | nil => rfl
  | cons row rows ih =>
    have hrest := ih (List.pairwise_cons.1 hrows).2
    by_cases hk : row.1 = k
    · obtain rfl := hk
      rw [getRow?_eq_none_of_increasing hrows] at hrest
      rw [List.filter_cons_of_pos (by simp), hrest, getRow?_cons_self]
      rfl
    · rw [List.filter_cons_of_neg (by simpa using hk), hrest, getRow?_cons_of_ne (Ne.symm hk)]

/-- What is found under a key stands in the row of this key. -/
theorem get?_eq_some_iff {t : Table κ α} {k : κ} {v : α} : t.get? k = some v ↔ (k, v) ∈ t.rows := by
  classical
  have hrows : (k, v) ∈ t.rows.filter (·.1 = k) ↔ (k, v) ∈ t.rows := by simp
  rw [← hrows, filter_rows]
  simp

/-- Every value is found under a key. -/
theorem exists_get?_of_mem_values {t : Table κ α} {v : α} (h : v ∈ t.values) :
    ∃ k, t.get? k = some v := by
  obtain ⟨⟨k, v⟩, hrow, rfl⟩ := List.mem_map.1 h
  exact ⟨k, get?_eq_some_iff.2 hrow⟩

omit [LawfulEqOrd κ] in
/-- The keys are listed in increasing order. -/
theorem pairwise_keys (t : Table κ α) : t.keys.Pairwise fun k k' => compare k k' = .lt :=
  List.pairwise_map.2 t.increasing

/-- No key stands twice in a table. -/
theorem nodup_keys (t : Table κ α) : t.keys.Nodup := by
  refine t.pairwise_keys.imp fun {k k'} hlt heq => ?_
  rw [heq, ReflOrd.compare_self] at hlt
  cases hlt

variable [TransOrd κ]

/-- A table is known by what is found in it. -/
theorem ext_get? {t t' : Table κ α} (h : ∀ k, t.get? k = t'.get? k) : t = t' := by
  have hrows : ∀ row, row ∈ t.rows ↔ row ∈ t'.rows := fun row => by
    rw [← get?_eq_some_iff, ← get?_eq_some_iff, h]
  have hperm : t.rows.Perm t'.rows :=
    (List.perm_ext_iff_of_nodup (.of_map Prod.fst t.nodup_keys) (.of_map Prod.fst t'.nodup_keys)).2
      hrows
  -- increasing keys leave the rows only one order
  have heq : t.rows = t'.rows :=
    hperm.eq_of_pairwise (fun a b _ _ (hlt : compare a.1 b.1 = .lt) (hgt : compare b.1 a.1 = .lt) =>
      absurd hgt (OrientedCmp.not_lt_of_lt hlt)) t.increasing t'.increasing
  obtain ⟨rows, hincreasing⟩ := t
  obtain ⟨rows', hincreasing'⟩ := t'
  subst heq
  rfl

/-- A table into which a value was put holds it, and what it would hold without the key. -/
theorem perm_values_put (t : Table κ α) (k : κ) (v : α) :
    (t.put k v).values.Perm (v :: (t.erase k).values) := by
  have herase : ((t.put k v).erase k).values = (t.erase k).values :=
    congrArg (List.map Prod.snd) (eraseRow_putRow k v t.rows)
  rw [← herase]
  exact perm_values_of_get? (get?_put_self t k v)

/-! ## Tables made from lists -/

/-- Puts one entry after the other. -/
def putAll (t : Table κ α) (entries : List (κ × α)) : Table κ α :=
  entries.foldl (fun t entry => t.put entry.1 entry.2) t

omit [LawfulEqOrd κ] in
theorem ofList_eq (entries : List (κ × α)) : ofList entries = putAll empty entries := rfl

/-- Of several entries with one key, the last is found. -/
theorem get?_putAll [DecidableEq κ] (t : Table κ α) (entries : List (κ × α)) (k : κ) :
    (t.putAll entries).get? k =
      (entries.reverse.find? (·.1 = k)).elim (t.get? k) fun entry => some entry.2 := by
  -- the last entry decides first, so the induction takes the list from its end
  induction entries using List.reverseRecOn with
  | nil => rfl
  | append_singleton entries entry ih =>
    rw [putAll, List.foldl_concat, List.reverse_concat, List.find?_cons]
    by_cases h : entry.1 = k
    · subst h
      simp [get?_put_self]
    · rw [get?_put_of_ne _ _ (Ne.symm h)]
      simpa [h, putAll] using ih

/-- In a table that is made from a list, the last of several values under one key is found. -/
theorem get?_ofList [DecidableEq κ] (entries : List (κ × α)) (k : κ) :
    (ofList entries).get? k = (entries.reverse.find? (·.1 = k)).map Prod.snd := by
  rw [ofList_eq, get?_putAll]
  cases entries.reverse.find? (·.1 = k) <;> rfl

/-- Where no key has two values, a table that is made from a list has what stands in the list. -/
theorem get?_ofList_eq_some_iff [DecidableEq κ] {entries : List (κ × α)}
    (hkeys : ∀ e ∈ entries, ∀ e' ∈ entries, e.1 = e'.1 → e.2 = e'.2) {k : κ} {v : α} :
    (ofList entries).get? k = some v ↔ (k, v) ∈ entries := by
  rw [get?_ofList, Option.map_eq_some_iff]
  constructor
  · rintro ⟨entry, hentry, rfl⟩
    obtain rfl : entry.1 = k := by simpa using List.find?_some hentry
    exact List.mem_reverse.1 (List.mem_of_find?_eq_some hentry)
  -- some entry with the key is found, and it has the value of the one that was asked for
  · intro hmem
    have hfound : (entries.reverse.find? (·.1 = k)).isSome :=
      List.find?_isSome.2 ⟨(k, v), List.mem_reverse.2 hmem, by simp⟩
    obtain ⟨entry, hentry⟩ := Option.isSome_iff_exists.1 hfound
    have hkey : entry.1 = k := by simpa using List.find?_some hentry
    exact ⟨entry, hentry, hkeys entry (List.mem_reverse.1 (List.mem_of_find?_eq_some hentry)) _ hmem hkey⟩

/-- Where no key has two values, the order of the entries does not matter. -/
theorem ofList_perm [DecidableEq κ] {entries entries' : List (κ × α)} (h : entries.Perm entries')
    (hkeys : ∀ e ∈ entries, ∀ e' ∈ entries, e.1 = e'.1 → e.2 = e'.2) :
    ofList entries = ofList entries' := by
  have hkeys' : ∀ e ∈ entries', ∀ e' ∈ entries', e.1 = e'.1 → e.2 = e'.2 :=
    fun e he e' he' => hkeys e (h.mem_iff.2 he) e' (h.mem_iff.2 he')
  refine ext_get? fun k => Option.ext fun v => ?_
  rw [get?_ofList_eq_some_iff hkeys, get?_ofList_eq_some_iff hkeys', h.mem_iff]

/-- Values with keys of their own are put into a table in any order. -/
theorem ofList_map_perm [DecidableEq κ] {key : α → κ} {values values' : List α}
    (h : values.Perm values') (hkeys : (values.map key).Nodup) :
    ofList (values.map fun v => (key v, v)) = ofList (values'.map fun v => (key v, v)) := by
  refine ofList_perm (h.map _) fun e he e' he' heq => ?_
  obtain ⟨v, hv, rfl⟩ := List.mem_map.1 he
  obtain ⟨v', hv', rfl⟩ := List.mem_map.1 he'
  exact List.inj_on_of_nodup_map hkeys hv hv' heq

/-- A table that is made from a list has the keys of its entries. -/
theorem mem_keys_ofList [DecidableEq κ] {entries : List (κ × α)} {k : κ} :
    k ∈ (ofList entries).keys ↔ k ∈ entries.map Prod.fst := by
  have hkeys : k ∈ (ofList entries).keys ↔ ∃ v, (ofList entries).get? k = some v := by
    simp [keys, get?_eq_some_iff]
  rw [hkeys, ← Option.isSome_iff_exists, get?_ofList, Option.isSome_map, List.find?_isSome]
  simp

/-- Of several values with one key, the last is found. -/
theorem get?_ofList_map [DecidableEq κ] (key : α → κ) (values : List α) (k : κ) :
    (ofList (values.map fun v => (key v, v))).get? k = values.reverse.find? (key · = k) := by
  rw [get?_ofList, ← List.map_reverse, List.find?_map, Option.map_map]
  exact Option.map_id'

/-- A table that is made from values under their keys holds the last value of each key. -/
theorem mem_values_ofList_map [DecidableEq κ] {key : α → κ} {values : List α} {v : α} :
    v ∈ (ofList (values.map fun v => (key v, v))).values ↔
      values.reverse.find? (key · = key v) = some v := by
  constructor
  · intro hv
    obtain ⟨k, hk⟩ := exists_get?_of_mem_values hv
    rw [get?_ofList_map] at hk
    obtain rfl : key v = k := by simpa using List.find?_some hk
    exact hk
  · intro hv
    exact mem_values_of_get? ((get?_ofList_map key values (key v)).trans hv)

/-- Values under their keys are put into a table from among those that it is made from. -/
theorem mem_of_mem_values_ofList_map [DecidableEq κ] {key : α → κ} {values : List α} {v : α}
    (h : v ∈ (ofList (values.map fun v => (key v, v))).values) : v ∈ values :=
  List.mem_reverse.1 (List.mem_of_find?_eq_some (mem_values_ofList_map.1 h))

/-- For each value that a table is made from, it holds one with the same key. -/
theorem exists_mem_values_ofList_map [DecidableEq κ] (key : α → κ) {values : List α} {v : α}
    (h : v ∈ values) : ∃ w ∈ (ofList (values.map fun v => (key v, v))).values, key w = key v := by
  have hfound : (values.reverse.find? (key · = key v)).isSome := by
    rw [List.find?_isSome]
    exact ⟨v, List.mem_reverse.2 h, by simp⟩
  obtain ⟨w, hw⟩ := Option.isSome_iff_exists.1 hfound
  have hkey : key w = key v := by simpa using List.find?_some hw
  exact ⟨w, mem_values_ofList_map.2 (hkey ▸ hw), hkey⟩

/-- In a table that is made from values under their keys, each value stands under its own. -/
theorem map_key_values_ofList_map [DecidableEq κ] (key : α → κ) (values : List α) :
    (ofList (values.map fun v => (key v, v))).values.map key =
      (ofList (values.map fun v => (key v, v))).keys := by
  rw [keys, Table.values, List.map_map]
  refine List.map_congr_left fun row hrow => ?_
  have hget := get?_eq_some_iff.2 hrow
  rw [get?_ofList_map] at hget
  simpa using List.find?_some hget

/-- No two values of a table that is made from values under their keys have one key. -/
theorem nodup_map_values_ofList_map [DecidableEq κ] (key : α → κ) (values : List α) :
    ((ofList (values.map fun v => (key v, v))).values.map key).Nodup := by
  rw [map_key_values_ofList_map]
  exact nodup_keys _

/-- Values under their keys come out of a table in the order of the keys. -/
theorem pairwise_values_ofList_map [DecidableEq κ] (key : α → κ) (values : List α) :
    (ofList (values.map fun v => (key v, v))).values.Pairwise fun a b =>
      compare (key a) (key b) = .lt := by
  rw [← List.pairwise_map (f := key) (R := fun k k' => compare k k' = .lt), map_key_values_ofList_map]
  exact pairwise_keys _

/-- A table that is made from values under their keys holds those that no later one has the key of. -/
theorem mem_values_ofList_map_iff [DecidableEq κ] {key : α → κ} {values : List α} {v : α} :
    v ∈ (ofList (values.map fun v => (key v, v))).values ↔
      ∃ front back, values = front ++ v :: back ∧ ∀ w ∈ back, key w ≠ key v := by
  rw [mem_values_ofList_map, List.find?_eq_some_iff_append]
  constructor
  · rintro ⟨-, later, earlier, hcut, hlater⟩
    refine ⟨earlier.reverse, later.reverse, ?_, fun w hw => ?_⟩
    · rw [← values.reverse_reverse, hcut]
      simp
    · simpa using hlater w (List.mem_reverse.1 hw)
  · rintro ⟨front, back, rfl, hback⟩
    refine ⟨decide_eq_true rfl, back.reverse, front.reverse, by simp, fun w hw => ?_⟩
    simpa using hback w (List.mem_reverse.1 hw)

/-- The values that later entries put out of the table. -/
def displaced : Table κ α → List (κ × α) → List α
  | _, [] => []
  | t, entry :: entries => (t.get? entry.1).toList ++ displaced (t.put entry.1 entry.2) entries

/-- Every value that was in the table or was put into it is in it, or was put out. -/
theorem perm_values_putAll (t : Table κ α) (entries : List (κ × α)) :
    ((t.putAll entries).values ++ displaced t entries).Perm (t.values ++ entries.map Prod.snd) := by
  induction entries generalizing t with
  | nil => simp [putAll, displaced]
  | cons entry entries ih =>
    have hold := perm_values_erase t entry.1
    have hnew := perm_values_put t entry.1 entry.2
    have hrest := ih (t.put entry.1 entry.2)
    -- the value that `entry` displaces is the one that erasing its key takes out
    calc (t.putAll (entry :: entries)).values ++ displaced t (entry :: entries)
        = ((t.put entry.1 entry.2).putAll entries).values ++ ((t.get? entry.1).toList ++
            displaced (t.put entry.1 entry.2) entries) := rfl
      _ ~ (t.get? entry.1).toList ++ (((t.put entry.1 entry.2).putAll entries).values ++
            displaced (t.put entry.1 entry.2) entries) := List.perm_append_comm_assoc _ _ _
      _ ~ (t.get? entry.1).toList ++ ((entry.2 :: (t.erase entry.1).values) ++
            entries.map Prod.snd) := (hrest.trans (hnew.append_right _)).append_left _
      _ ~ (t.get? entry.1).toList ++ ((t.erase entry.1).values ++
            entry.2 :: entries.map Prod.snd) := (List.perm_middle.symm).append_left _
      _ = ((t.get? entry.1).toList ++ (t.erase entry.1).values) ++
            entry.2 :: entries.map Prod.snd := (List.append_assoc _ _ _).symm
      _ ~ t.values ++ (entry :: entries).map Prod.snd := hold.symm.append_right _

/-- What is put out: a value under a key that comes again. -/
theorem forall_displaced_iff {t : Table κ α} {entries : List (κ × α)} {P : α → Prop} :
    (∀ v ∈ displaced t entries, ¬ P v) ↔
      (∀ k v, t.get? k = some v → P v → ∀ entry ∈ entries, k ≠ entry.1) ∧
        entries.Pairwise fun a b => P a.2 → a.1 ≠ b.1 := by
  -- an entry displaces what the table holds under its key, and may be displaced by a later one
  induction entries generalizing t with
  | nil => simp [displaced]
  | cons entry entries ih =>
    have hself := get?_put_self t entry.1 entry.2
    have hother {k : κ} (hk : k ≠ entry.1) := get?_put_of_ne t entry.2 hk
    simp only [displaced, List.mem_append, Option.mem_toList, or_imp, forall_and, ih,
      List.pairwise_cons, List.mem_cons, forall_eq]
    constructor
    · rintro ⟨hhead, htable, hpairs⟩
      refine ⟨⟨?_, ?_⟩, ?_, hpairs⟩
      · rintro k v hk hv rfl
        exact hhead v hk hv
      · intro k v hk hv b hb hkb
        by_cases hke : k = entry.1
        · exact hhead v (hke ▸ hk) hv
        · exact htable k v ((hother hke).trans hk) hv b hb hkb
      · exact fun b hb hv => htable entry.1 entry.2 hself hv b hb
    · rintro ⟨⟨hhead, htable⟩, hlater, hpairs⟩
      refine ⟨fun v hv hP => hhead entry.1 v hv hP rfl, ?_, hpairs⟩
      intro k v hk hv b hb
      by_cases hke : k = entry.1
      · subst hke
        rw [hself, Option.some.injEq] at hk
        subst hk
        exact hlater b hb hv
      · rw [hother hke] at hk
        exact htable k v hk hv b hb

end Scaffold.Table
