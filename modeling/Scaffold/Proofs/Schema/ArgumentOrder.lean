import Scaffold.Proofs.Schema.Arguments

/-!
# The order of arguments

Arguments are read in the order of their items, which hold the types as well. Still the types have no say
in it: of two items with different names, the comparison is decided at the colon of one of them at the
latest (`le_append_of_le`). So the arguments come in the order of their names, and in whatever order the
items stand, the result is the same (`readArguments_order`).
-/

namespace Scaffold

open Text

namespace Text

/-- Texts are compared character by character. -/
theorem le_cons_cons (a b : Char) (s t : Text) :
    le (a :: s) (b :: t) = if a = b then le s t else (compare a b).isLE := by
  unfold le
  rw [List.compare_cons_cons]
  split_ifs with h
  · have hsame : compare a b = .eq := h ▸ Std.ReflCmp.compare_self
    rw [hsame]
    rfl
  · have hne : compare a b ≠ .eq := fun heq => h (Std.LawfulEqCmp.eq_of_compare heq)
    cases hcompare : compare a b with
    | eq => exact absurd hcompare hne
    | lt => rfl
    | gt => rfl

theorem refl_le (s : Text) : le s s := by
  have hsame : compare s s = .eq := Std.ReflCmp.compare_self
  rw [le, hsame]
  rfl

/-- Two texts in which a mark follows a beginning without marks are compared up to the mark first. -/
theorem le_append_of_le {mark : Char} {n m : Text} (hn : mark ∉ n) (hm : mark ∉ m) {s t : Text}
    (h : le (n ++ mark :: s) (m ++ mark :: t)) : le (n ++ [mark]) (m ++ [mark]) := by
  induction n generalizing m with
  | nil =>
    cases m with
    | nil => exact refl_le [mark]
    | cons d m =>
      have hne : mark ≠ d := fun heq => hm (heq ▸ List.mem_cons_self)
      rw [List.nil_append, List.cons_append, le_cons_cons, if_neg hne] at h ⊢
      exact h
  -- as long as both texts go on, the mark is on neither side
  | cons c n ih =>
    have hc : c ≠ mark := fun heq => hn (heq ▸ List.mem_cons_self)
    cases m with
    | nil =>
      rw [List.nil_append, List.cons_append, le_cons_cons, if_neg hc] at h ⊢
      exact h
    | cons d m =>
      rw [List.cons_append, List.cons_append, le_cons_cons] at h ⊢
      split_ifs at h ⊢
      · exact ih (fun hmem => hn (List.mem_cons_of_mem c hmem))
          (fun hmem => hm (List.mem_cons_of_mem d hmem)) h
      · exact h

end Text

namespace Schema

/-- The name of an item `name:Type`. -/
def itemName (item : Text) : Text := item.takeWhile (· ≠ ':')

/-- The order of items by their names, each with the colon that ends it. -/
def nameLe (n m : Text) : Bool := le (n ++ [':']) (m ++ [':'])

/-- Names that come before each other are the same name. -/
theorem antisymm_nameLe {n m : Text} (hnm : nameLe n m) (hmn : nameLe m n) : n = m :=
  List.append_cancel_right (antisymm_le hnm hmn)

/-- An item with a colon is its name, the colon and the rest. -/
theorem exists_item_eq {item : Text} (h : ':' ∈ item) :
    ':' ∉ itemName item ∧ ∃ raw, item = itemName item ++ ':' :: raw := by
  obtain ⟨name, raw, rfl, hname⟩ := List.eq_append_cons_of_mem h
  have htake : itemName (name ++ ':' :: raw) = name := by
    have hprefix := takeWhile_append_cons (p := (· ≠ ':')) (c := ':') (by simp) name raw
    rw [itemName, hprefix, List.takeWhile_eq_self_iff]
    intro c hc
    simpa using ne_of_mem_of_not_mem hc hname
  rw [htake]
  exact ⟨hname, raw, rfl⟩

/-- The argument of an item is called by the name in front of the first colon. -/
theorem argument?_eq_some {item : Text} (h : ':' ∈ item) :
    ∃ arg, argument? item = some arg ∧ arg.name = itemName item := by
  obtain ⟨hname, raw, hitem⟩ := exists_item_eq h
  have hcut : cutAt? [':'] item = some (itemName item, raw) := by
    have hcut := cutAt?_append_of_notMem hname [] raw
    rwa [List.append_assoc, List.singleton_append, ← hitem] at hcut
  rw [argument?, hcut]
  exact ⟨_, rfl, rfl⟩

/-- An argument that passes its check is left as it is. -/
theorem eq_of_checkArgument {path : Path} {action : Text} {arg arg' : Argument}
    (h : checkArgument path action arg = .ok arg') : arg' = arg := by
  unfold checkArgument at h
  split_ifs at h
  exact (Except.ok.inj h).symm

/-- Arguments that pass are called by the names of their items. -/
theorem map_name_of_mapM {path : Path} {action : Text} {its : List Text} {args : List Argument}
    (hcolon : ∀ item ∈ its, ':' ∈ item)
    (h : (its.filterMap argument?).mapM (checkArgument path action) = .ok args) :
    args.map (·.name) = its.map itemName := by
  have hall := mapM_eq_ok_iff.1 h
  clear h
  induction its generalizing args with
  | nil =>
    obtain rfl := List.forall₂_nil_left_iff.1 hall
    rfl
  | cons item rest ih =>
    obtain ⟨hitem, hrest⟩ := List.forall_mem_cons.1 hcolon
    obtain ⟨arg, hsome, hname⟩ := argument?_eq_some hitem
    rw [List.filterMap_cons_some hsome] at hall
    obtain ⟨arg', args, hchecked, htail, rfl⟩ := List.forall₂_cons_left_iff.1 hall
    obtain rfl := eq_of_checkArgument hchecked
    rw [List.map_cons, List.map_cons, hname, ih hrest htail]

/-- Items that are put in order are the items. -/
theorem items_of_perm {inside : Text} {sorted : List Text}
    (hperm : (parts separator inside).Perm sorted) (hsorted : sorted.Pairwise fun a b => le a b) :
    items inside = sorted := by
  rw [items, mergeSort_of_perm hperm]
  exact List.mergeSort_of_pairwise hsorted

/-- Sorting adds no item and loses none. -/
theorem mem_items {inside item : Text} : item ∈ items inside ↔ item ∈ parts separator inside :=
  (List.mergeSort_perm _ _).mem_iff

/-- Arguments are read under the names of their items, in the order of the items. -/
theorem map_name_of_readArguments {path : Path} {action inside : Text} {args : List Argument}
    (hcolon : ∀ item ∈ parts separator inside, ':' ∈ item)
    (h : readArguments path action inside = .ok args) :
    args.map (·.name) = (items inside).map itemName :=
  map_name_of_mapM (fun item hitem => hcolon item (mem_items.1 hitem)) h

/-- The order of items is the order of their names. -/
theorem pairwise_itemName {inside : Text} (hcolon : ∀ item ∈ parts separator inside, ':' ∈ item) :
    ((items inside).map itemName).Pairwise fun n m => nameLe n m := by
  rw [List.pairwise_map]
  refine (pairwise_mergeSort_le (parts separator inside)).imp_of_mem ?_
  intro a b ha hb hle
  obtain ⟨hname, raw, hitem⟩ := exists_item_eq (hcolon a (mem_items.1 ha))
  obtain ⟨hname', raw', hitem'⟩ := exists_item_eq (hcolon b (mem_items.1 hb))
  rw [hitem, hitem'] at hle
  exact le_append_of_le hname hname' hle

/-- If every item is an argument, then the order in which the arguments are read depends on their names
only; and which arguments are read, or what is refused, does not depend on the order of the items, whatever
they are. -/
theorem readArguments_order :
    (∀ (path path' : Path) (action action' inside inside' : Text) (args args' : List Argument),
      (∀ item ∈ parts separator inside ++ parts separator inside', ':' ∈ item) →
      ((parts separator inside).map itemName).Perm ((parts separator inside').map itemName) →
      readArguments path action inside = .ok args → readArguments path' action' inside' = .ok args' →
      args.map (·.name) = args'.map (·.name)) ∧
    ∀ (path : Path) (action inside inside' : Text),
      (parts separator inside).Perm (parts separator inside') →
      readArguments path action inside = readArguments path action inside' := by
  refine ⟨?_, ?_⟩
  -- sorted by name, the items have their names in the one order there is
  · intro path path' action action' inside inside' args args' hcolon hnames hargs hargs'
    obtain ⟨hcolon, hcolon'⟩ := List.forall_mem_append.1 hcolon
    rw [map_name_of_readArguments hcolon hargs, map_name_of_readArguments hcolon' hargs']
    apply List.Perm.eq_of_pairwise fun n m _ _ => antisymm_nameLe
    · exact pairwise_itemName hcolon
    · exact pairwise_itemName hcolon'
    · have hperm := (List.mergeSort_perm (parts separator inside) le).map itemName
      have hperm' := (List.mergeSort_perm (parts separator inside') le).map itemName
      exact hperm.trans (hnames.trans hperm'.symm)
  · intro path action inside inside' hperm
    unfold readArguments items
    rw [mergeSort_of_perm hperm]

private def pageItems : Text := "id:ID!#idx:ID!#a1:Int#a:Int".toList

private def retypedItems : Text := "a:[Int!]#idx:Int#id:Int!#a1:String".toList

/-- One name begins another one, once with a character before the colon and once with one behind it. The
second pair is refused in both orders. -/
theorem readArguments_order_page :
    (∃ args args', readArguments default "page".toList pageItems = .ok args ∧
      readArguments default "page".toList retypedItems = .ok args' ∧
      args.map (·.name) = args'.map (·.name) ∧
      args.map (·.name) = ["a1".toList, "a".toList, "id".toList, "idx".toList]) ∧
    readArguments default "page".toList "input:Int#@old#input:ID".toList =
      readArguments default "page".toList "@old##input:ID#input:Int".toList := by
  have hitems : items pageItems =
      ["a1:Int".toList, "a:Int".toList, "id:ID!".toList, "idx:ID!".toList] :=
    items_of_perm (by decide) (by decide)
  have hretyped : items retypedItems =
      ["a1:String".toList, "a:[Int!]".toList, "id:Int!".toList, "idx:Int".toList] :=
    items_of_perm (by decide) (by decide)
  have hcolon : ∀ item ∈ parts separator pageItems ++ parts separator retypedItems, ':' ∈ item := by
    decide
  have hnames : ((parts separator pageItems).map itemName).Perm
      ((parts separator retypedItems).map itemName) := by
    decide
  have hread : ∃ args, readArguments default "page".toList pageItems = .ok args ∧
      args.map (·.name) = ["a1".toList, "a".toList, "id".toList, "idx".toList] := by
    rw [readArguments, hitems]
    exact ⟨_, rfl, rfl⟩
  have hread' : ∃ args, readArguments default "page".toList retypedItems = .ok args := by
    rw [readArguments, hretyped]
    exact ⟨_, rfl⟩
  obtain ⟨args, hargs, hsorted⟩ := hread
  obtain ⟨args', hargs'⟩ := hread'
  have hnamed := readArguments_order.1 _ _ _ _ _ _ args args' hcolon hnames hargs hargs'
  refine ⟨⟨args, args', hargs, hargs', hnamed, hsorted⟩, ?_⟩
  exact readArguments_order.2 _ _ _ _ (by decide)

end Schema

end Scaffold
