import Scaffold.Proofs.Schema.RoundTrip

/-!
# Default values

There is no reading of default values: what stands between separators is an argument if it has a colon,
and everything behind the colon is its type. A default value is passed over if white space parts it from
the type and no colon is in it; any other changes the arguments (`items_ne_of_kept`). So deleting the
default values of a schema leaves its actions alone exactly if each of them is passed over
(`actions_without_defaults_iff`).
-/

namespace Scaffold

open Text

namespace Schema

/-! ## What one argument is read as -/

/-- The arguments that a text between parentheses is read as, in the order of the text. -/
def readItems (text : Text) : List Argument := (parts separator text).filterMap argument?

variable {a : ArgumentDecl} {tail : Text}

/-- The first thing that is read is the argument, with what is glued to its type. -/
theorem readItems_append (h : a.IsProper) (tail : Text) :
    readItems (a.item ++ tail) =
      { readType (a.toTypeRef.text ++ (splitHead separator tail).1) with name := a.name } ::
        ((splitHead separator tail).2.filter (· ≠ [])).filterMap argument? := by
  have hne : a.item ≠ [] := by simp [Argument.item]
  have hargument : argument? (a.item ++ (splitHead separator tail).1) =
      some { readType (a.toTypeRef.text ++ (splitHead separator tail).1) with name := a.name } := by
    have hcut := cutAt?_append_of_notMem (h.name.isLiteral.notMem (c := ':') (by decide)) []
      (a.toTypeRef.text ++ (splitHead separator tail).1)
    have hitem : a.item ++ (splitHead separator tail).1 =
        a.name ++ [':'] ++ (a.toTypeRef.text ++ (splitHead separator tail).1) := by
      simp [Argument.item]
    rw [argument?, hitem, hcut, Option.map_some]
  rw [readItems, parts_append_of_notMem hne (separator_notMem_item h.name h.type),
    List.filterMap_cons_some hargument]

/-- Where a colon stands, an argument is read. -/
theorem readItems_ne_nil {text : Text} (h : ':' ∈ text) : readItems text ≠ [] := by
  obtain ⟨part, hpart, hcolon⟩ := (mem_parts_iff (show ':' ≠ separator by decide)).2 h
  obtain ⟨b, hb⟩ := Option.ne_none_iff_exists'.1 fun hnone => argument?_eq_none_iff.1 hnone hcolon
  exact List.ne_nil_of_mem (List.mem_filterMap.2 ⟨part, hpart, hb⟩)

/-- A default value that is not skipped shows: in the name of the type, or as one argument more. -/
theorem readItems_of_kept (h : a.IsProper) (hkept : ∃ d ∈ a.default, ¬d.IsSkipped) {text : Text}
    (ht : IsArgumentText a text) :
    (∃ b ∈ readItems text, '=' ∈ b.typeName) ∨ 1 < (readItems text).length := by
  obtain ⟨tail, rfl, htail⟩ := ht
  rw [readItems_append h]
  rcases htail.kept hkept with hsign | ⟨hseparator, hcolon⟩
  · left
    obtain ⟨rest, rfl⟩ := List.head?_eq_some_iff.1 hsign
    refine ⟨_, List.mem_cons_self, ?_⟩
    refine mem_typeName_readType (List.mem_append_right _ ?_) (by decide) (by decide)
    have hne : '=' ≠ separator := by decide
    simp [splitHead, hne]
  · right
    obtain ⟨rest, rfl⟩ := List.head?_eq_some_iff.1 hseparator
    have hsplit : splitHead separator (separator :: rest) = ([], splitOn separator rest) := by
      simp [splitHead, splitOn]
    have hrest : readItems rest ≠ [] :=
      readItems_ne_nil (List.mem_of_ne_of_mem (by decide) hcolon)
    rw [hsplit, List.length_cons]
    exact Nat.lt_add_of_pos_left (List.length_pos_iff.2 hrest)

/-! ## What all arguments are read as -/

section

variable {α β : Type} {f : α → List β} {xs : List α}

private theorem length_le_flatMap (h : ∀ x ∈ xs, f x ≠ []) : xs.length ≤ (xs.flatMap f).length := by
  induction xs with
  | nil => exact Nat.le_refl 0
  | cons x xs ih =>
    obtain ⟨hx, hxs⟩ := List.forall_mem_cons.1 h
    have hpos := List.length_pos_iff.2 hx
    have htail := ih hxs
    rw [List.flatMap_cons, List.length_append, List.length_cons]
    omega

/-- If every element gives something and one gives more than one thing, there are more results than
elements. -/
private theorem length_lt_flatMap (h : ∀ x ∈ xs, f x ≠ []) {x : α} (hx : x ∈ xs)
    (hlong : 1 < (f x).length) : xs.length < (xs.flatMap f).length := by
  obtain ⟨front, rest, rfl⟩ := List.append_of_mem hx
  obtain ⟨hfront, hrest⟩ := List.forall_mem_append.1 h
  have hbefore := length_le_flatMap hfront
  have hbehind := length_le_flatMap (List.forall_mem_cons.1 hrest).2
  simp only [List.flatMap_append, List.flatMap_cons, List.length_append, List.length_cons]
  omega

end

/-- The arguments of a field are read off the texts of its declared ones. -/
theorem readItems_of_holds {args : List ArgumentDecl} {inside : Text} (h : Holds args inside) :
    ∃ texts, List.Forall₂ IsArgumentText args texts ∧
      readItems inside = texts.flatMap readItems := by
  obtain ⟨-, texts, htexts, hparts⟩ := h
  refine ⟨texts, htexts, ?_⟩
  rw [readItems, hparts, List.filterMap_flatMap]
  rfl

/-- If a default value is not skipped, then other arguments are read than the declared ones. -/
theorem items_ne_of_kept {args : List ArgumentDecl} (h : ∀ a ∈ args, a.IsProper)
    (hkept : ∃ a ∈ args, ∃ d ∈ a.default, ¬d.IsSkipped) {inside : Text} (hinside : Holds args inside) :
    (items inside).filterMap argument? ≠ inOrder (args.map (·.toArgument)) := by
  intro heq
  obtain ⟨a, ha, hkept⟩ := hkept
  obtain ⟨texts, htexts, hread⟩ := readItems_of_holds hinside
  -- if they were the same, what is read would be the declared arguments in another order
  have hperm : (readItems inside).Perm (args.map (·.toArgument)) := by
    have hitems : ((items inside).filterMap argument?).Perm (readItems inside) :=
      (List.mergeSort_perm _ _).filterMap argument?
    exact hitems.symm.trans (heq ▸ List.mergeSort_perm _ _)
  obtain ⟨text, htext, hargument, -⟩ := exists_of_forall₂ htexts htexts ha
  rcases readItems_of_kept (h a ha) hkept hargument with ⟨b, hb, hsign⟩ | hlong
  · -- no declared type has the sign
    have hmem : b ∈ readItems inside := by
      rw [hread]
      exact List.mem_flatMap.2 ⟨text, htext, hb⟩
    obtain ⟨decl, hdecl, rfl⟩ := List.mem_map.1 (hperm.mem_iff.1 hmem)
    exact (h decl hdecl).type.typeName.isLiteral.notMem (by decide) hsign
  · have hcolons : ∀ text ∈ texts, readItems text ≠ [] := by
      intro text htext
      obtain ⟨decl, -, ⟨tail, rfl, -⟩, -⟩ := exists_of_forall₂ htexts.flip htexts.flip htext
      exact readItems_ne_nil (by simp [Argument.item])
    have hlt := length_lt_flatMap hcolons htext hlong
    have hlength := hperm.length_eq
    rw [hread, List.length_map, htexts.length_eq] at hlength
    omega

/-! ## Schemas without default values -/

/-- A field without the default values of its arguments. -/
def FieldDecl.withoutDefaults (f : FieldDecl) : FieldDecl :=
  { f with args := f.args.map fun a => { a with default := none } }

section

variable {origin : Origin} {f : FieldDecl} {fs : List FieldDecl} {bits : List Bit}

/-- A field of the grammar stays one without its default values. -/
theorem FieldDecl.IsProper.withoutDefaults (h : f.IsProper) : f.withoutDefaults.IsProper := by
  refine ⟨h.name, List.forall_mem_map.2 fun a ha => ?_, h.response, h.directives⟩
  exact ⟨(h.args a ha).name, (h.args a ha).type, by simp, (h.args a ha).directives⟩

/-- A field that keeps the rules keeps them without its default values. -/
theorem FieldDecl.KeepsRules.withoutDefaults (h : f.KeepsRules) : f.withoutDefaults.KeepsRules :=
  ⟨h.response, List.forall_mem_map.2 h.input⟩

theorem FieldDecl.skipsDefaults_withoutDefaults (f : FieldDecl) : f.withoutDefaults.SkipsDefaults :=
  List.forall_mem_map.2 fun a _ => by simp

/-- Default values are no part of an action. -/
theorem FieldDecl.action_withoutDefaults (f : FieldDecl) :
    f.withoutDefaults.action origin = f.action origin := by
  simp [FieldDecl.action, FieldDecl.withoutDefaults, Function.comp_def]

/-- The order in which fields are extracted does not depend on default values. -/
theorem extracted_map_withoutDefaults (fs : List FieldDecl) :
    extracted (fs.map FieldDecl.withoutDefaults) = (extracted fs).map FieldDecl.withoutDefaults := by
  simp [extracted, List.filter_map, FieldDecl.withoutDefaults, Function.comp_def]

/-- A field whose arguments are read as they are declared skips its default values. -/
theorem skipsDefaults_of_toAction (h : f.IsProper) {field : RawField} (hfield : IsField f field)
    (haction : field.toAction origin = .ok (f.action origin)) : f.SkipsDefaults := by
  obtain ⟨args, response, hargs, -, heq⟩ := toAction_eq_ok_iff.1 haction
  have hread : (items field.arguments).filterMap argument? = args := by
    have hchecked := mapM_eq_ok_iff.1 hargs
    exact List.forall₂_eq_eq_eq ▸ hchecked.imp fun a b hab => (checkArgument_eq_ok_iff.1 hab).1
  have hinOrder : args = inOrder (f.args.map (·.toArgument)) := (congrArg Action.args heq).symm
  intro a ha d hd
  by_contra hkept
  exact items_ne_of_kept h.args ⟨a, ha, d, hd, hkept⟩ hfield.args (hread.trans hinOrder)

/-- Only if all default values are skipped, the fields have their actions. -/
theorem skipsDefaults_of_actions (h : ∀ f ∈ fs, f.IsProper) (hlayout : IsLayout fs bits)
    (hactions : actions origin (flatten (written bits)) =
      .ok ((extracted fs).map (·.action origin))) : ∀ f ∈ fs, f.SkipsDefaults := by
  intro f hf
  have hfields := forall₂_fields h hlayout.fills hlayout.read
  have hchecked := List.forall₂_map_right_iff.1 (actions_eq_ok_iff.1 hactions)
  obtain ⟨field, -, hfield, haction⟩ :=
    exists_of_forall₂ hfields hchecked.flip (mem_extracted.2 hf)
  exact skipsDefaults_of_toAction (h f hf) hfield haction

end

/-- Deleting default values leaves the actions of a type block alone exactly if each of them is skipped:
white space stands in front of its sign, and no colon is in it. -/
theorem actions_without_defaults_iff (origin : Origin) {fs : List FieldDecl}
    (h : ∀ f ∈ fs, f.IsProper) (hrules : ∀ f ∈ fs, f.KeepsRules) {bits bits' : List Bit}
    (hlayout : IsLayout fs bits) (hlayout' : IsLayout (fs.map FieldDecl.withoutDefaults) bits')
    {name : Text} (hname : IsIdentifier name) (rest rest' : Text) :
    (flat? (blockText name (written bits) rest)).map (actions origin) =
        (flat? (blockText name (written bits') rest')).map (actions origin) ↔
      ∀ f ∈ fs, f.SkipsDefaults := by
  have hproper' : ∀ f ∈ fs.map FieldDecl.withoutDefaults, f.IsProper :=
    List.forall_mem_map.2 fun f hf => (h f hf).withoutDefaults
  have hactions' : actions origin (flatten (written bits')) =
      .ok ((extracted fs).map (·.action origin)) := by
    rw [actions_eq_ok_of_isLayout hproper'
      (List.forall_mem_map.2 fun f hf => (hrules f hf).withoutDefaults)
      (List.forall_mem_map.2 fun f _ => f.skipsDefaults_withoutDefaults) hlayout',
      extracted_map_withoutDefaults, List.map_map]
    exact congrArg _ (List.map_congr_left fun f _ => f.action_withoutDefaults)
  rw [flat?_blockText h hlayout hname, flat?_blockText hproper' hlayout' hname, Option.map_some,
    Option.map_some, hactions', Option.some.injEq]
  constructor
  · exact skipsDefaults_of_actions h hlayout
  · exact fun hskips => actions_eq_ok_of_isLayout h hrules hskips hlayout

/-- A field with one argument. -/
private def page (default : Option Default) : FieldDecl :=
  ⟨"page".toList, [⟨⟨⟨"Int".toList, false, false, false⟩, "limit".toList⟩, default, []⟩],
    "PageResponse".toList, true, []⟩

private def pageText (arguments : String) : Text :=
  "type Query \x7b\n  page(".toList ++ arguments.toList ++ "): PageResponse!\n\x7d\n".toList

/-- White space for a type block with that field, where a default value has its sign between blanks. -/
private def pageSpaces (sign : List (List Bit)) : List (List Bit) :=
  [blanks "\n  ", [], [], [], blanks " "] ++ sign ++ [[], [], blanks " ", [], blanks "\n"]

theorem actions_without_defaults_iff_page :
    (flat? (pageText "limit: Int = 10")).map (actions default) =
      (flat? (pageText "limit: Int")).map (actions default) := by
  let ten : Default := ⟨true, [.token "10".toList]⟩
  have hproper : ∀ f ∈ [page (some ten)], f.IsProper := by
    refine List.forall_mem_singleton.2 ⟨by decide, ?_, by decide, by simp [page]⟩
    refine List.forall_mem_singleton.2 ⟨by decide, ⟨by decide, by decide⟩, ?_, by simp⟩
    rintro d ⟨⟩
    exact .literal (by decide)
  have hrules : ∀ f ∈ [page (some ten)], f.KeepsRules :=
    List.forall_mem_singleton.2 ⟨rfl, List.forall_mem_singleton.2 (by decide)⟩
  have hskips : ∀ f ∈ [page (some ten)], f.SkipsDefaults := by
    refine List.forall_mem_singleton.2 (List.forall_mem_singleton.2 ?_)
    rintro d ⟨⟩
    refine ⟨rfl, fun t ht => ?_⟩
    rw [Part.token.inj (List.mem_singleton.1 ht)]
    decide
  -- the kernel is slow to decode strings, so lists of characters take their place
  have hread : AreRead (layOut (interiorParts [page (some ten)]) (pageSpaces [[], blanks " "])) ∧
      AreRead (layOut (interiorParts [page none]) (pageSpaces [])) := by
    unfold pageSpaces blanks page ten
    repeat rw [String.toList_ofList]
    decide
  have htexts : blockText "Query".toList
        (written (layOut (interiorParts [page (some ten)]) (pageSpaces [[], blanks " "])))
          "\n".toList = pageText "limit: Int = 10" ∧
      blockText "Query".toList (written (layOut (interiorParts [page none]) (pageSpaces [])))
          "\n".toList = pageText "limit: Int" := by
    unfold pageText pageSpaces blanks page ten
    repeat rw [String.toList_ofList]
    decide
  have hlayout : IsLayout [page (some ten)]
      (layOut (interiorParts [page (some ten)]) (pageSpaces [[], blanks " "])) :=
    ⟨fills_layOut (by decide) (by decide), hread.1⟩
  have hlayout' : IsLayout ([page (some ten)].map FieldDecl.withoutDefaults)
      (layOut (interiorParts [page none]) (pageSpaces [])) :=
    ⟨fills_layOut (by decide) (by decide), hread.2⟩
  rw [← htexts.1, ← htexts.2]
  exact (actions_without_defaults_iff default hproper hrules hlayout hlayout' (by decide) _ _).2 hskips

/-- The flat text of such a field, between its parentheses. -/
private def pageFlat (inside : Text) : Text :=
  "#page(".toList ++ inside ++ "):PageResponse!#".toList

private theorem actions_pageFlat {inside : Text} {args : List Argument}
    (hfields : fields (pageFlat inside) = [⟨"page".toList, inside, "PageResponse!".toList⟩])
    (hargs : readArguments default "page".toList inside = .ok args) :
    actions default (pageFlat inside) =
      .ok [⟨"page".toList, args, "PageResponse".toList, .query, default⟩] := by
  have hresponse : responseName default "page".toList "PageResponse!".toList =
      .ok "PageResponse".toList := by
    decide
  exact actions_singleton hfields hargs hresponse

/-- A default value that is glued to its type, and one with a colon, change the arguments. -/
theorem actions_differ_by_defaults :
    (flat? (pageText "limit: Int=10")).map (actions default) ≠
        (flat? (pageText "limit: Int")).map (actions default) ∧
      (flat? (pageText "limit: Int = \x7bk: 1\x7d")).map (actions default) ≠
        (flat? (pageText "limit: Int")).map (actions default) := by
  have hflat : flat? (pageText "limit: Int=10") = some (pageFlat "limit:Int=10".toList) ∧
      flat? (pageText "limit: Int = \x7bk: 1\x7d") =
        some (pageFlat "limit:Int#=#\x7bk:1\x7d".toList) ∧
      flat? (pageText "limit: Int") = some (pageFlat "limit:Int".toList) := by
    unfold pageText pageFlat
    repeat rw [String.toList_ofList]
    decide
  have hfields : ∀ inside ∈ ["limit:Int=10", "limit:Int#=#\x7bk:1\x7d", "limit:Int"],
      fields (pageFlat inside.toList) =
        [⟨"page".toList, inside.toList, "PageResponse!".toList⟩] := by
    decide
  -- without white space the default value is part of the type; an object has a colon of its own
  have hglued : readArguments default "page".toList "limit:Int=10".toList =
      .ok [⟨⟨"Int=10".toList, false, false, false⟩, "limit".toList⟩] := by
    have hitems : items "limit:Int=10".toList = ["limit:Int=10".toList] := by cbv
    rw [readArguments, hitems]
    rfl
  have hobject : readArguments default "page".toList "limit:Int#=#\x7bk:1\x7d".toList =
      .ok [⟨⟨"Int".toList, false, false, false⟩, "limit".toList⟩,
        ⟨⟨"1\x7d".toList, false, false, false⟩, "\x7bk".toList⟩] := by
    have hitems : items "limit:Int#=#\x7bk:1\x7d".toList =
        ["=".toList, "limit:Int".toList, "\x7bk:1\x7d".toList] := by
      cbv
    rw [readArguments, hitems]
    rfl
  have hplain : readArguments default "page".toList "limit:Int".toList =
      .ok [⟨⟨"Int".toList, false, false, false⟩, "limit".toList⟩] := by
    have hitems : items "limit:Int".toList = ["limit:Int".toList] := by cbv
    rw [readArguments, hitems]
    rfl
  obtain ⟨hgluedFlat, hobjectFlat, hplainFlat⟩ := hflat
  rw [hgluedFlat, hobjectFlat, hplainFlat, Option.map_some, Option.map_some, Option.map_some,
    actions_pageFlat (hfields _ (by simp)) hglued, actions_pageFlat (hfields _ (by simp)) hobject,
    actions_pageFlat (hfields _ (by simp)) hplain]
  constructor <;>
  · intro heq
    have hlists := Except.ok.inj (Option.some.inj heq)
    revert hlists
    decide

end Schema

end Scaffold
