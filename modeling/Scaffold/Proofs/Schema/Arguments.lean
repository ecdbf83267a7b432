import Mathlib.Data.List.Forall2
import Mathlib.Data.List.Sort
import Scaffold.Proofs.Schema.Actions
import Scaffold.Proofs.Schema.Reading

/-!
# Reading arguments

What is read between the parentheses of a field are its arguments in the order of their items, if every
default value is skipped (`readArguments_of_holds`). Items without a colon are none, wherever sorting has
put them.
-/

namespace Scaffold

open Text

namespace Text

/-! ## The order of texts -/

theorem trans_le {a b c : Text} (hab : le a b) (hbc : le b c) : le a c :=
  Std.TransOrd.isLE_trans hab hbc

/-- Of two texts, one comes before the other. -/
theorem total_le (a b : Text) : le a b || le b a := by
  have hswap : compare b a = (compare a b).swap := Std.OrientedCmp.eq_swap
  unfold le
  rw [hswap]
  cases compare a b <;> rfl

theorem antisymm_le {a b : Text} (hab : le a b) (hba : le b a) : a = b :=
  Std.LawfulEqCmp.eq_of_compare (Std.OrientedCmp.isLE_antisymm hab hba)

/-- Sorted texts stand in order. -/
theorem pairwise_mergeSort_le (ts : List Text) : (ts.mergeSort le).Pairwise fun a b => le a b := by
  apply List.pairwise_mergeSort
  · exact fun _ _ _ => trans_le
  · exact total_le

/-- Sorting texts does not depend on the order in which they stand. -/
theorem mergeSort_of_perm {ts us : List Text} (h : ts.Perm us) : ts.mergeSort le = us.mergeSort le := by
  apply List.Perm.eq_of_pairwise fun a b _ _ => antisymm_le
  · exact pairwise_mergeSort_le ts
  · exact pairwise_mergeSort_le us
  · exact (List.mergeSort_perm ts le).trans (h.trans (List.mergeSort_perm us le).symm)

/-- Sorting texts does not depend on which of them are left out before or after. -/
theorem filter_mergeSort (p : Text → Bool) (ts : List Text) :
    (ts.mergeSort le).filter p = (ts.filter p).mergeSort le := by
  apply List.Perm.eq_of_pairwise fun a b _ _ => antisymm_le
  · exact (pairwise_mergeSort_le ts).filter p
  · exact pairwise_mergeSort_le (ts.filter p)
  · exact ((List.mergeSort_perm ts le).filter p).trans (List.mergeSort_perm (ts.filter p) le).symm

end Text

namespace Schema

/-- Arguments in the order of their items. -/
def inOrder (args : List Argument) : List Argument := args.mergeSort fun a b => le a.item b.item

/-- An item is skipped exactly if it has no colon. -/
theorem argument?_eq_none_iff {item : Text} : argument? item = none ↔ ':' ∉ item := by
  rw [argument?, Option.map_eq_none_iff, cutAt?_eq_none_iff]

/-- Items without a colon are no arguments. -/
theorem filterMap_argument? (items : List Text) :
    items.filterMap argument? = (items.filter (':' ∈ ·)).filterMap argument? := by
  induction items with
  | nil => rfl
  | cons item items ih =>
    by_cases hcolon : ':' ∈ item
    · rw [List.filter_cons_of_pos (by simpa using hcolon), List.filterMap_cons, List.filterMap_cons, ih]
    · rw [List.filter_cons_of_neg (by simpa using hcolon), List.filterMap_cons,
        argument?_eq_none_iff.2 hcolon, ih]

/-- Reading the item of an argument gives the argument. -/
theorem argument?_item {a : Argument} (hname : IsIdentifier a.name) (htype : a.toTypeRef.IsProper) :
    argument? a.item = some a := by
  have hcut : cutAt? [':'] (a.name ++ [':'] ++ a.toTypeRef.text) =
      some (a.name, a.toTypeRef.text) :=
    cutAt?_append_of_notMem (hname.isLiteral.notMem (by decide)) [] _
  rw [List.append_assoc, List.singleton_append] at hcut
  have hread := readType_text htype
  rw [argument?, Argument.item, hcut, Option.map_some]
  simp only [hread]

/-- The printed text of an argument is one item. -/
theorem separator_notMem_item {a : Argument} (hname : IsIdentifier a.name)
    (htype : a.toTypeRef.IsProper) : separator ∉ a.item := by
  have htypeName : separator ∉ a.typeName := htype.typeName.isLiteral.notMem (by decide)
  have hmark (required : Bool) : separator ∉ TypeRef.mark required := by cases required <;> decide
  have hopen : separator ≠ '[' := by decide
  have hclose : separator ≠ ']' := by decide
  have htext : separator ∉ a.toTypeRef.text := by
    unfold TypeRef.text
    split_ifs <;> simp [htypeName, hmark, hopen, hclose]
  simp only [Argument.item, List.mem_append, List.mem_cons, not_or]
  exact ⟨hname.isLiteral.notMem (by decide), by decide, htext⟩

/-- Of the text of an argument whose default value is skipped, its item has a colon, and nothing else. -/
theorem filter_parts_of_isArgumentText {a : ArgumentDecl} (h : a.IsProper)
    (hskipped : ∀ d ∈ a.default, d.IsSkipped) {text : Text} (ht : IsArgumentText a text) :
    (parts separator text).filter (':' ∈ ·) = [a.item] := by
  obtain ⟨tail, rfl, htail⟩ := ht
  obtain ⟨hhead, hcolon⟩ := htail.skipped hskipped
  have hitem := separator_notMem_item h.name h.type
  have hne : a.item ≠ [] := by simp [Argument.item]
  have hparted : Parted separator a.item.getLast? tail := by
    cases tail with
    | nil => exact .inl rfl
    | cons c tail => exact .inr (.inl (congrArg some (hhead c rfl)))
  have hothers : (parts separator tail).filter (':' ∈ ·) = [] := by
    refine List.filter_eq_nil_iff.2 fun part hpart hmem => hcolon ?_
    exact (mem_parts_iff (by decide)).1 ⟨part, hpart, by simpa using hmem⟩
  rw [parts_append_of_parted hparted, parts_of_notMem hne hitem, List.filter_append, hothers]
  simp [Argument.item]

/-- The arguments are read from the text between the parentheses, in order of their texts. -/
theorem filterMap_items {args : List ArgumentDecl} (h : ∀ a ∈ args, a.IsProper)
    (hskipped : ∀ a ∈ args, ∀ d ∈ a.default, d.IsSkipped) {inside : Text} (hinside : Holds args inside) :
    (items inside).filterMap argument? = inOrder (args.map (·.toArgument)) := by
  obtain ⟨-, texts, htexts, hparts⟩ := hinside
  -- the parts with a colon are the printed arguments: no skipped default value has one
  have hcolons : (parts separator inside).filter (':' ∈ ·) = args.map (·.item) := by
    rw [hparts, List.filter_flatMap]
    clear hparts
    induction htexts with
    | nil => rfl
    | cons htext htexts ih =>
      obtain ⟨ha, hargs⟩ := List.forall_mem_cons.1 h
      obtain ⟨haskipped, hrest⟩ := List.forall_mem_cons.1 hskipped
      rw [List.flatMap_cons, filter_parts_of_isArgumentText ha haskipped htext, ih hargs hrest]
      rfl
  -- sorting the texts of the arguments is sorting the arguments by their texts
  have hsorted : (args.map (·.item)).mergeSort le =
      (inOrder (args.map (·.toArgument))).map Argument.item := by
    have hmap := List.map_mergeSort (r := fun a b : Argument => le a.item b.item) (s := le)
      (f := Argument.item) (l := args.map (·.toArgument)) fun _ _ _ _ => rfl
    rw [List.map_map] at hmap
    exact hmap.symm
  have hargument : ∀ a ∈ inOrder (args.map (·.toArgument)),
      (argument? ∘ Argument.item) a = some a := by
    intro a ha
    obtain ⟨decl, hdecl, rfl⟩ := List.mem_map.1 ((List.mergeSort_perm _ _).mem_iff.1 ha)
    exact argument?_item (h decl hdecl).name (h decl hdecl).type
  rw [items, filterMap_argument?, filter_mergeSort, hcolons, hsorted, List.filterMap_map,
    List.filterMap_congr hargument, List.filterMap_some]

/-- The arguments of a field are read in the order of their items, up to one that is refused. -/
theorem readArguments_of_holds {args : List ArgumentDecl} (h : ∀ a ∈ args, a.IsProper)
    (hskipped : ∀ a ∈ args, ∀ d ∈ a.default, d.IsSkipped) {inside : Text} (hinside : Holds args inside)
    (path : Path) (action : Text) :
    readArguments path action inside =
      (inOrder (args.map (·.toArgument))).mapM (checkArgument path action) := by
  rw [readArguments, filterMap_items h hskipped hinside]

end Schema

end Scaffold
