import Mathlib.Data.List.Pairwise
import Mathlib.Data.List.Permutation
import Scaffold.Proofs.Project.Reading

/-!
# Methods of the resolver

The resolver file is a header, the texts of its methods and a footer (`resolverFile_eq`), with one method
for each action of the table. The table and the groups tell actions apart by their names, but methods
and functions are called by names with a capital letter in front. So two methods of one receiver, or two
functions of one service, have one name exactly if two actions differ by nothing but the case of their
first letter (`names_distinct_iff`).
-/

namespace Scaffold.Output

open Text Naming Schema Service Project

/-! ## What a method says -/

/-- A method of the resolver file. -/
structure Method where
  /-- The type that has the method. -/
  receiver : Text
  name : Text
  /-- The parameters with their types. All of them are passed on. -/
  parameters : List (Text × Text)
  response : Text
  /-- What the file calls the package of the function that does the work. -/
  qualifier : Text
  /-- The function that does the work. -/
  function : Text
  deriving DecidableEq, Repr

/-- A method as it stands in the resolver file. -/
def Method.text (x : Method) : Text :=
  header ("func (r *".toList ++ x.receiver ++ ") ".toList ++ x.name) x.parameters x.response ++
    "\n\treturn ".toList ++ x.qualifier ++ '.' :: x.function ++
    '(' :: passedList x.parameters ++ ")\n\x7d\n\n".toList

/-- The method of an action; that of a subscription is missing. -/
def method? (a : Action) : Option Method :=
  (receiver? a.kind).map fun receiver =>
    ⟨receiver, capitalize a.name, parameterList a, a.responseType, a.owner.package, functionName a⟩

/-- The methods of the resolver file. -/
def methods (m : Model) : List Method := m.actionTable.values.filterMap method?

/-- The text of a method, where there is one. -/
theorem method_eq_text (a : Action) : method a = (method? a).elim [] Method.text := by
  unfold method?
  cases h : receiver? a.kind with
  | none => rw [method, h]; rfl
  | some receiver => exact method_eq h

/-- The resolver file is made of its methods. -/
theorem resolverFile_eq (s : Setting) (m : Model) :
    resolverFile s m = resolverHeader s m ++ (methods m).flatMap Method.text ++ resolverFooter := by
  have hmethods (as : List Action) : as.flatMap method = (as.filterMap method?).flatMap Method.text := by
    induction as with
    | nil => rfl
    | cons a as ih =>
      rw [List.flatMap_cons, List.filterMap_cons, ih, method_eq_text]
      cases method? a <;> rfl
  rw [resolverFile, methods, hmethods]

/-- Each method stands in the resolver file. -/
theorem text_infix_resolverFile (s : Setting) {m : Model} {x : Method} (h : x ∈ methods m) :
    x.text <:+: resolverFile s m := by
  rw [resolverFile_eq]
  exact ((List.infix_of_mem_flatten (List.mem_map_of_mem h)).trans
    (List.suffix_append _ _).isInfix).trans (List.prefix_append _ _).isInfix

/-- Each kind has its methods on a type of its own. -/
theorem receiver?_inj {k k' : Kind} {receiver : Text} (h : receiver? k = some receiver)
    (h' : receiver? k' = some receiver) : k = k' := by
  revert h'
  rw [← h]
  cases k <;> cases k' <;> decide

/-- What a method has of the action it is made for. -/
theorem method?_eq_some_iff {a : Action} {x : Method} :
    method? a = some x ↔ receiver? a.kind = some x.receiver ∧ x.name = capitalize a.name ∧
      x.parameters = parameterList a ∧ x.response = a.responseType ∧
      x.qualifier = a.owner.package ∧ x.function = functionName a := by
  rw [method?, Option.map_eq_some_iff]
  constructor
  · rintro ⟨receiver, hreceiver, rfl⟩
    exact ⟨hreceiver, rfl, rfl, rfl, rfl, rfl⟩
  · obtain ⟨receiver, name, parameters, response, qualifier, function⟩ := x
    rintro ⟨hreceiver, rfl, rfl, rfl, rfl, rfl⟩
    exact ⟨receiver, hreceiver, rfl⟩

/-- Queries and mutations have a method. -/
theorem exists_method? {a : Action} (h : a.kind ≠ .subscription) : ∃ x, method? a = some x := by
  have hreceiver : (receiver? a.kind).isSome := by
    revert h
    cases a.kind <;> decide
  exact Option.isSome_iff_exists.1 (by rwa [method?, Option.isSome_map])

/-! ## Names -/

/-- An ASCII character is capitalized as it is put in capitals. -/
theorem capitalize_cons {c : Char} (h : isAscii c) (s : Text) :
    capitalize (c :: s) = c.toUpper :: s := by
  rw [capitalize, capital, if_pos h]
  rfl

/-- Capitalizing leaves nothing out of a name that starts in ASCII but the case of its first letter. -/
theorem capitalize_eq_iff {s t : Text} (hs : ∀ c ∈ s.head?, isAscii c)
    (ht : ∀ c ∈ t.head?, isAscii c) :
    capitalize s = capitalize t ↔
      s.head?.map Char.toUpper = t.head?.map Char.toUpper ∧ s.tail = t.tail := by
  cases s with
  | nil =>
    cases t with
    | nil => simp
    | cons d t => rw [capitalize_cons (ht d rfl)]; simp [capitalize]
  | cons c s =>
    rw [capitalize_cons (hs c rfl)]
    cases t with
    | nil => simp [capitalize]
    | cons d t => rw [capitalize_cons (ht d rfl)]; simp

/-- Of the functions for actions of one kind, two have one name if capitalizing makes the names of the
actions one. -/
theorem functionName_eq_iff {a b : Action} (hkind : a.kind = b.kind) :
    functionName a = functionName b ↔ capitalize a.name = capitalize b.name := by
  rw [functionName, functionName, hkind, List.append_left_inj]

/-- Where all keys differ, a relation holds nowhere between two elements if it only holds between elements
with one key. -/
private theorem pairwise_not_iff {α κ : Type} {key : α → κ} {R : α → α → Prop} [Std.Symm R]
    {as : List α} (hkeys : (as.map key).Nodup) :
    as.Pairwise (fun a b => ¬R a b) ↔ ∀ a ∈ as, ∀ b ∈ as, R a b → key a = key b := by
  have : Std.Symm fun a b => ¬R a b := ⟨fun a b hnot hba => hnot (Std.Symm.symm b a hba)⟩
  constructor
  · intro h a ha b hb hR
    by_contra hne
    exact h.forall ha hb (fun heq => hne (congrArg key heq)) hR
  · intro h
    exact (List.pairwise_map.1 hkeys).imp_of_mem fun {a b} ha hb hne hR => hne (h a ha b hb hR)

/-- The functions for actions of one kind, one to each name, have different names exactly if capitalizing
keeps the names of the actions apart. -/
theorem nodup_functionName_iff {as : List Action} (hkind : ∀ a ∈ as, ∀ b ∈ as, a.kind = b.kind) :
    ((Table.ofList (as.map fun a => (a.name, a))).values.map functionName).Nodup ↔
      ∀ a ∈ as, ∀ b ∈ as, capitalize a.name = capitalize b.name → a.name = b.name := by
  have : Std.Symm fun a b : Action => functionName a = functionName b := ⟨fun _ _ => Eq.symm⟩
  rw [List.Nodup, List.pairwise_map,
    pairwise_not_iff (Table.nodup_map_values_ofList_map Action.name as)]
  constructor
  · intro h a ha b hb hcapital
    -- the table need not have these two actions, but it has actions with their names
    obtain ⟨a', ha', hname⟩ := Table.exists_mem_values_ofList_map Action.name ha
    obtain ⟨b', hb', hname'⟩ := Table.exists_mem_values_ofList_map Action.name hb
    have hkinds : a'.kind = b'.kind :=
      hkind a' (Table.mem_of_mem_values_ofList_map ha') b' (Table.mem_of_mem_values_ofList_map hb')
    have hnames := h a' ha' b' hb' ((functionName_eq_iff hkinds).2 (by rw [hname, hname', hcapital]))
    rwa [hname, hname'] at hnames
  · intro h a ha b hb hfunction
    have ha' := Table.mem_of_mem_values_ofList_map ha
    have hb' := Table.mem_of_mem_values_ofList_map hb
    exact h a ha' b hb' ((functionName_eq_iff (hkind a ha' b hb')).1 hfunction)

/-! ## The actions of a group -/

/-- The actions of a module and a kind. -/
def actionsOf (m : Model) (id : GroupId) : List Action :=
  m.actions.filter fun a => (⟨a.owner, a.kind⟩ : GroupId) = id

/-- The actions of a group are those of its module and kind. -/
theorem mem_actionsOf {m : Model} {id : GroupId} {a : Action} :
    a ∈ actionsOf m id ↔ a ∈ m.actions ∧ (⟨a.owner, a.kind⟩ : GroupId) = id := by
  simp [actionsOf]

variable {t : Tree} {paths : Paths} {files : List Found} {m : Model}

/-- A group has the last action of each name among those of its module and kind. -/
theorem actions_groupOf (hm : m.Owned) (id : GroupId) :
    (groupOf id (m.files.filter (idOf · = id))).actions =
      (Table.ofList ((actionsOf m id).map fun a => (a.name, a))).values := by
  rw [groupOf, flatMap_actions_filter hm, actionsOf]

/-- The functions of each service have different names exactly if capitalizing keeps the names of the actions
of one module and kind apart. -/
theorem nodup_functionName_groups_iff (h : readModel t paths files = .ok m) :
    (∀ g ∈ groups m.files, (g.actions.map functionName).Nodup) ↔
      ∀ a ∈ m.actions, ∀ b ∈ m.actions, a.owner = b.owner → a.kind = b.kind →
        capitalize a.name = capitalize b.name → a.name = b.name := by
  have howned := owned_readModel h
  have hgroup (id : GroupId) :
      ((groupOf id (m.files.filter (idOf · = id))).actions.map functionName).Nodup ↔
        ∀ a ∈ actionsOf m id, ∀ b ∈ actionsOf m id,
          capitalize a.name = capitalize b.name → a.name = b.name := by
    rw [actions_groupOf howned]
    refine nodup_functionName_iff fun a ha b hb => ?_
    have hids := (mem_actionsOf.1 ha).2.trans (mem_actionsOf.1 hb).2.symm
    exact congrArg GroupId.kind hids
  -- each action is in the group of its file, and a group has no actions but those of its module and kind
  constructor
  · intro hnodup a ha b hb howner hkind
    obtain ⟨file, hfile, -, hfileOwner, hfileKind⟩ := exists_file_of_mem_actions h ha
    have hid : (⟨a.owner, a.kind⟩ : GroupId) = idOf file := by rw [hfileOwner, hfileKind]; rfl
    refine (hgroup (idOf file)).1 (hnodup _ (groupOf_mem_groups hfile)) a ?_ b ?_
    · exact mem_actionsOf.2 ⟨ha, hid⟩
    · exact mem_actionsOf.2 ⟨hb, by rw [← howner, ← hkind, hid]⟩
  · intro hnames g hg
    rw [eq_groupOf_of_mem hg, hgroup]
    intro a ha b hb
    obtain ⟨ha, hida⟩ := mem_actionsOf.1 ha
    obtain ⟨hb, hidb⟩ := mem_actionsOf.1 hb
    have hids := hida.trans hidb.symm
    exact hnames a ha b hb (congrArg GroupId.owner hids) (congrArg GroupId.kind hids)

/-- The methods of each receiver have different names exactly if capitalizing keeps the names of the listed
actions of one kind apart. -/
theorem pairwise_name_methods_iff (h : readModel t paths files = .ok m) :
    (methods m).Pairwise (fun x y => x.receiver = y.receiver → x.name ≠ y.name) ↔
      ∀ a ∈ m.actionTable.values, ∀ b ∈ m.actionTable.values, a.kind = b.kind →
        capitalize a.name = capitalize b.name → a.name = b.name := by
  -- the receiver of a method is its kind, and its name the capitalized name of the action
  have hsame {a b : Action} (ha : a ∈ m.actionTable.values) (hb : b ∈ m.actionTable.values) :
      (∀ x, method? a = some x → ∀ y, method? b = some y →
          x.receiver = y.receiver → x.name ≠ y.name) ↔
        ¬(a.kind = b.kind ∧ capitalize a.name = capitalize b.name) := by
    constructor
    · rintro hdistinct ⟨hkind, hcapital⟩
      have hcalled := kind_ne_subscription h (Table.mem_of_mem_values_ofList_map ha)
      obtain ⟨x, hx⟩ := exists_method? hcalled
      obtain ⟨y, hy⟩ := exists_method? (hkind ▸ hcalled)
      obtain ⟨hreceiver, hname, -⟩ := method?_eq_some_iff.1 hx
      obtain ⟨hreceiver', hname', -⟩ := method?_eq_some_iff.1 hy
      refine hdistinct x hx y hy (Option.some.inj ?_) (by rw [hname, hname', hcapital])
      rw [← hreceiver, ← hreceiver', hkind]
    · intro hapart x hx y hy hreceivers hnames
      obtain ⟨hreceiver, hname, -⟩ := method?_eq_some_iff.1 hx
      obtain ⟨hreceiver', hname', -⟩ := method?_eq_some_iff.1 hy
      exact hapart ⟨receiver?_inj hreceiver (hreceivers ▸ hreceiver'), by rw [← hname, hnames, hname']⟩
  have : Std.Symm fun a b : Action => a.kind = b.kind ∧ capitalize a.name = capitalize b.name :=
    ⟨fun _ _ hab => ⟨hab.1.symm, hab.2.symm⟩⟩
  have hnames : (m.actionTable.values.map Action.name).Nodup :=
    Table.nodup_map_values_ofList_map Action.name m.actions
  rw [methods, List.pairwise_filterMap, List.Pairwise.iff_of_mem hsame, pairwise_not_iff hnames]
  simp only [and_imp]

/-- In each service the functions for its actions have different names exactly if no two actions of one
module and kind have names that capitalizing makes one; in the resolver file the methods of each receiver
have different names exactly if no two actions of the table do that are of one kind. Names that start in
ASCII are made one if nothing but the case of their first letter tells them apart. -/
theorem names_distinct_iff (h : readModel t paths files = .ok m) :
    ((∀ g ∈ groups m.files, (g.actions.map functionName).Nodup) ↔
      ∀ a ∈ m.actions, ∀ b ∈ m.actions, a.owner = b.owner → a.kind = b.kind →
        capitalize a.name = capitalize b.name → a.name = b.name) ∧
    ((methods m).Pairwise (fun x y => x.receiver = y.receiver → x.name ≠ y.name) ↔
      ∀ a ∈ m.actionTable.values, ∀ b ∈ m.actionTable.values, a.kind = b.kind →
        capitalize a.name = capitalize b.name → a.name = b.name) ∧
    ((∀ a ∈ m.actions, ∀ c ∈ a.name.head?, isAscii c) → ∀ a ∈ m.actions, ∀ b ∈ m.actions,
      (capitalize a.name = capitalize b.name ↔
        a.name.head?.map Char.toUpper = b.name.head?.map Char.toUpper ∧ a.name.tail = b.name.tail)) :=
  ⟨nodup_functionName_groups_iff h, pairwise_name_methods_iff h,
    fun hascii a ha b hb => capitalize_eq_iff (hascii a ha) (hascii b hb)⟩

/-- A schema file of queries. -/
private def userFile (interior : Text) (named : List (Text × Text)) : PlainFile where
  kind := .query
  owner := ⟨"shop".toList, "user".toList⟩
  dir := "modules/shop/user".toList
  place := "modules/shop/user/user_query.graphqls".toList
  interior := interior
  named := named

/-- A project with one schema file. -/
private def userTree (content : Text) : Tree :=
  ⟨[("modules".toList, .directory [("shop".toList, .directory [("user".toList, .directory
    [("user_query.graphqls".toList, .file (.text content))])])])]⟩

/-- The tree with one file of queries is read as that file. -/
private theorem readModel_user {interior : Text} {named : List (Text × Text)}
    (h : (userFile interior named).IsSound {}) :
    readModel (userTree (userFile interior named).content) {} [(userFile interior named).found] =
      .ok (PlainFile.model [userFile interior named]) := by
  have htext (content : Text) : (userTree content).readText
      ⟨"modules/shop/user/user_query.graphqls".toList⟩ = .ok content := by
    cbv
  exact PlainFile.readModel_eq_ok rfl rfl (List.forall_mem_singleton.2 h)
    (List.forall_mem_singleton.2 (htext _))

/-- Two queries whose capitalized names are different. -/
theorem names_distinct_iff_users :
    let f := userFile "\n  getUser: UserResponse!\n  listUsers: UsersResponse!\n".toList
      [("getUser".toList, "UserResponse".toList), ("listUsers".toList, "UsersResponse".toList)]
    let m := PlainFile.model [f]
    readModel (userTree f.content) {} [f.found] = .ok m ∧
      (∀ g ∈ groups m.files, (g.actions.map functionName).Nodup) ∧
      (methods m).Pairwise fun x y => x.receiver = y.receiver → x.name ≠ y.name := by
  intro f m
  have hread : readModel (userTree f.content) {} [f.found] = .ok m := readModel_user (by decide)
  obtain ⟨hgroups, hmethods, -⟩ := names_distinct_iff hread
  exact ⟨hread, hgroups.2 (by decide), hmethods.2 (by decide)⟩

/-- Two queries that only the case of their first letter tells apart have one function and one method
between them. -/
theorem functionName_not_distinct :
    let f := userFile "\n  getUser: UserResponse!\n  GetUser: UserResponse!\n".toList
      [("getUser".toList, "UserResponse".toList), ("GetUser".toList, "UserResponse".toList)]
    let m := PlainFile.model [f]
    readModel (userTree f.content) {} [f.found] = .ok m ∧
      ¬(∀ g ∈ groups m.files, (g.actions.map functionName).Nodup) ∧
      ¬(methods m).Pairwise fun x y => x.receiver = y.receiver → x.name ≠ y.name := by
  intro f m
  exact ⟨readModel_user (by decide), by decide, by decide⟩

end Scaffold.Output
