import Scaffold.Proofs.Schema.Arguments

/-!
# Extraction undoes printing

Flat text of a type block falls into one chunk to each declared field, and the two passes of extraction
find the fields of the chunks: those with arguments first, in the order of the schema
(`fields_chunks`).
-/

namespace Scaffold.Schema

open Text

/-! ## Chunks -/

/-- The flat text of a field, up to the next one. -/
structure Chunk where
  field : RawField
  /-- The field has parentheses. -/
  called : Bool
  /-- Directives and a separator behind the response. -/
  tail : Text

namespace Chunk

/-- The field itself. -/
def head (c : Chunk) : Text :=
  c.field.name ++ (if c.called then '(' :: c.field.arguments ++ [')'] else []) ++
    ':' :: c.field.response

def text (c : Chunk) : Text := c.head ++ c.tail

/-- What is left of a chunk when fields with arguments have given way to marks. -/
def residue (c : Chunk) : Text := (if c.called then [')'] else c.head) ++ c.tail

/-- Whether a chunk is read as its field. -/
structure IsProper (c : Chunk) : Prop where
  field : c.field.IsProper
  plain : c.called = false → c.field.arguments = []
  tail : ∀ d ∈ c.tail, d ≠ '(' ∧ d ≠ ':'
  head : ∀ d ∈ c.tail.head?, d = separator ∨ d = '@'

end Chunk

/-- Whether chunks are read as their fields: each but the last ends with a separator. -/
def AreChunks : List Chunk → Prop
  | [] => True
  | c :: cs => c.IsProper ∧ (cs = [] ∨ c.tail.getLast? = some separator) ∧ AreChunks cs

/-- Behind the tail of a chunk no word goes on. -/
private theorem isCut_tail {c : Chunk} {cs : List Chunk}
    (h : cs = [] ∨ c.tail.getLast? = some separator) (f : Chunk → Text) (front : Text) :
    IsCut (front ++ c.tail) (cs.flatMap f) := by
  rcases h with rfl | h
  · exact .inl rfl
  · exact .inr ⟨separator, by rw [List.getLast?_append, h, Option.some_or], by decide⟩

/-- A chunk goes on behind its response as no response does. -/
private theorem endsResponse_tail {c : Chunk} (hc : c.IsProper) {cs : List Chunk}
    (h : cs = [] ∨ c.tail.getLast? = some separator) (f : Chunk → Text) :
    EndsResponse (c.tail ++ cs.flatMap f) := by
  cases htail : c.tail with
  | nil =>
    obtain rfl : cs = [] := by simpa [htail] using h
    exact ⟨by simp [EndsWord], by simp⟩
  | cons d tail =>
    rcases hc.head d (by rw [htail]; rfl) with rfl | rfl
    · exact ⟨endsWord_cons (by decide) _, by simp [separator]⟩
    · exact ⟨endsWord_cons (by decide) _, by simp⟩

/-- A field without arguments has no parenthesis. -/
private theorem notMem_plain {c : Chunk} (hc : c.IsProper) (hplain : c.called = false) :
    '(' ∉ c.text := by
  obtain ⟨response, required, hresponse, heq⟩ := hc.field.response
  have hname : '(' ∉ c.field.name := hc.field.name.isLiteral.notMem (by decide)
  have htoken : '(' ∉ c.field.response := by
    rw [heq, responseToken]
    have hresponse' : '(' ∉ response := hresponse.isLiteral.notMem (by decide)
    cases required <;> simp [TypeRef.mark, hresponse']
  have htail : '(' ∉ c.tail := fun h => (hc.tail _ h).1 rfl
  simp [Chunk.text, Chunk.head, hplain, hname, htoken, htail]

/-- The head of a field with arguments. -/
private theorem head_called {c : Chunk} (h : c.called) :
    c.head = c.field.name ++ '(' :: c.field.arguments ++ ')' :: ':' :: c.field.response := by
  simp [Chunk.head, h]

/-- The head of a field without arguments. -/
private theorem head_plain {c : Chunk} (h : c.called = false) :
    c.head = c.field.name ++ ':' :: c.field.response := by
  simp [Chunk.head, h]

/-- The first pass takes a field with arguments, and nothing of what stands behind it. -/
private theorem takes_called {c : Chunk} (hc : c.IsProper) {cs : List Chunk}
    (hcut : cs = [] ∨ c.tail.getLast? = some separator) (h : c.called) :
    fieldWithArguments.Takes c.head (c.tail ++ cs.flatMap Chunk.text) c.field ∧
      fieldWithArguments.Refuses c.tail (cs.flatMap Chunk.text) := by
  rw [head_called h]
  exact ⟨fieldWithArguments_takes hc.field (endsResponse_tail hc hcut Chunk.text),
    fieldWithArguments_refuses (fun h => (hc.tail _ h).1 rfl) (isCut_tail hcut _ [])⟩

/-- The first pass takes nothing of a field without arguments. -/
private theorem refuses_plain {c : Chunk} (hc : c.IsProper) {cs : List Chunk}
    (hcut : cs = [] ∨ c.tail.getLast? = some separator) (h : c.called = false) :
    fieldWithArguments.Refuses c.text (cs.flatMap Chunk.text) :=
  fieldWithArguments_refuses (notMem_plain hc h) (isCut_tail hcut _ _)

/-- The first pass finds the fields with arguments. -/
theorem findAll_fieldWithArguments {cs : List Chunk} (h : AreChunks cs) :
    findAll fieldWithArguments (cs.flatMap Chunk.text) = (cs.filter (·.called)).map (·.field) := by
  induction cs with
  | nil => rfl
  | cons c cs ih =>
    obtain ⟨hc, hcut, hcs⟩ := h
    rw [List.flatMap_cons]
    cases hcalled : c.called with
    | true =>
      obtain ⟨htakes, htail⟩ := takes_called hc hcut hcalled
      rw [Chunk.text, List.append_assoc, findAll_append_of_takes isForward_fieldWithArguments htakes,
        findAll_append_of_refuses isForward_fieldWithArguments htail, ih hcs,
        List.filter_cons_of_pos (by simpa using hcalled), List.map_cons]
    | false =>
      rw [findAll_append_of_refuses isForward_fieldWithArguments (refuses_plain hc hcut hcalled), ih hcs,
        List.filter_cons_of_neg (by simpa using hcalled)]

/-- The first pass leaves a parenthesis in place of each field it takes. -/
theorem replaceAll_fieldWithArguments {cs : List Chunk} (h : AreChunks cs) :
    replaceAll fieldWithArguments (fun _ => [')']) (cs.flatMap Chunk.text) =
      cs.flatMap Chunk.residue := by
  induction cs with
  | nil => rfl
  | cons c cs ih =>
    obtain ⟨hc, hcut, hcs⟩ := h
    rw [List.flatMap_cons, List.flatMap_cons]
    cases hcalled : c.called with
    | true =>
      obtain ⟨htakes, htail⟩ := takes_called hc hcut hcalled
      rw [Chunk.text, List.append_assoc,
        replaceAll_append_of_takes isForward_fieldWithArguments _ htakes,
        replaceAll_append_of_refuses isForward_fieldWithArguments _ htail, ih hcs, Chunk.residue,
        hcalled, if_pos rfl, List.append_assoc]
    | false =>
      rw [replaceAll_append_of_refuses isForward_fieldWithArguments _ (refuses_plain hc hcut hcalled), ih hcs]
      simp [Chunk.residue, Chunk.text, hcalled]

/-- Where no group opens, there is none to strip. -/
theorem stripGroups_of_notMem {s : Text} (h : '(' ∉ s) : stripGroups 0 s = s := by
  induction s with
  | nil => rfl
  | cons c s ih =>
    have hc : c ≠ '(' := fun heq => h (heq ▸ List.mem_cons_self)
    rw [stripGroups, if_neg hc, ih fun hmem => h (List.mem_cons_of_mem c hmem)]

/-- What the first pass leaves has no group. -/
theorem notMem_residue {cs : List Chunk} (h : AreChunks cs) : '(' ∉ cs.flatMap Chunk.residue := by
  induction cs with
  | nil => simp
  | cons c cs ih =>
    obtain ⟨hc, -, hcs⟩ := h
    have htail : '(' ∉ c.tail := fun h => (hc.tail _ h).1 rfl
    rw [List.flatMap_cons, List.mem_append, not_or]
    refine ⟨?_, ih hcs⟩
    cases hcalled : c.called with
    | true => simp [Chunk.residue, hcalled, htail]
    | false => simpa [Chunk.residue, Chunk.text, hcalled] using notMem_plain hc hcalled

/-- The second pass finds the fields without arguments. -/
theorem findAll_plainField {cs : List Chunk} (h : AreChunks cs) :
    findAll plainField (cs.flatMap Chunk.residue) = (cs.filter (!·.called)).map (·.field) := by
  induction cs with
  | nil => rfl
  | cons c cs ih =>
    obtain ⟨hc, hcut, hcs⟩ := h
    have hcolon : ':' ∉ c.tail := fun h => (hc.tail _ h).2 rfl
    rw [List.flatMap_cons]
    -- of a field with arguments only a parenthesis is left, in which no field begins
    cases hcalled : c.called with
    | true =>
      have hrefuses : plainField.Refuses ([')'] ++ c.tail) (cs.flatMap Chunk.residue) :=
        plainField_refuses (by simp [hcolon]) (isCut_tail hcut _ _)
      rw [Chunk.residue, hcalled, if_pos rfl,
        findAll_append_of_refuses isForward_plainField hrefuses, ih hcs,
        List.filter_cons_of_neg (by simpa using hcalled)]
    | false =>
      have htail : plainField.Refuses c.tail (cs.flatMap Chunk.residue) :=
        plainField_refuses hcolon (isCut_tail hcut _ [])
      have htakes := plainField_takes hc.field (hc.plain hcalled)
        (endsResponse_tail hc hcut Chunk.residue)
      rw [← head_plain hcalled] at htakes
      rw [Chunk.residue, hcalled, if_neg (by decide), List.append_assoc,
        findAll_append_of_takes isForward_plainField htakes,
        findAll_append_of_refuses isForward_plainField htail, ih hcs,
        List.filter_cons_of_pos (by simpa using hcalled), List.map_cons]

/-- The fields of chunks: those with arguments, then those without. -/
theorem fields_chunks {cs : List Chunk} (h : AreChunks cs) {lead flat : Text}
    (hlead : lead = [] ∨ lead = [separator]) (hflat : shorten flat = lead ++ cs.flatMap Chunk.text) :
    fields flat =
      (cs.filter (·.called)).map (·.field) ++ (cs.filter (!·.called)).map (·.field) := by
  have hcut (s : Text) : lead = [] ∨ IsCut lead s :=
    hlead.imp_right fun heq => .inr ⟨separator, by rw [heq]; rfl, by decide⟩
  have hcalled (s : Text) : fieldWithArguments.Refuses lead s := by
    rcases hcut s with rfl | hcut
    · exact fieldWithArguments.refuses_nil s
    · exact fieldWithArguments_refuses (by rcases hlead with rfl | rfl <;> decide) hcut
  have hplain (s : Text) : plainField.Refuses lead s := by
    rcases hcut s with rfl | hcut
    · exact plainField.refuses_nil s
    · exact plainField_refuses (by rcases hlead with rfl | rfl <;> decide) hcut
  have hresidue : '(' ∉ lead ++ cs.flatMap Chunk.residue := by
    rw [List.mem_append, not_or]
    exact ⟨by rcases hlead with rfl | rfl <;> decide, notMem_residue h⟩
  have hfields : fields flat = findAll fieldWithArguments (shorten flat) ++
      findAll plainField
        (stripGroups 0 (replaceAll fieldWithArguments (fun _ => [')']) (shorten flat))) := rfl
  rw [hfields, hflat, findAll_append_of_refuses isForward_fieldWithArguments (hcalled _),
    findAll_fieldWithArguments h,
    replaceAll_append_of_refuses isForward_fieldWithArguments _ (hcalled _),
    replaceAll_fieldWithArguments h, stripGroups_of_notMem hresidue,
    findAll_append_of_refuses isForward_plainField (hplain _), findAll_plainField h]

/-! ## The chunks of declared fields -/

/-- Whether a field of flat text is a declared one. -/
structure IsField (f : FieldDecl) (field : RawField) : Prop where
  name : field.name = f.name
  response : field.response = responseToken f.response f.required
  args : Holds f.args field.arguments

/-- Whether a chunk is that of a declared field. -/
structure IsChunk (f : FieldDecl) (c : Chunk) : Prop where
  field : IsField f c.field
  called : c.called = true ↔ f.args ≠ []

/-- The brief form of a list of declarations is the list of their brief forms. -/
theorem map_separated (pss : List (List Part)) :
    (separated pss).map Part.brief = separated (pss.map (·.map Part.brief)) := by
  cases pss with
  | nil => rfl
  | cons ps pss =>
    simp only [separated, List.map_append, List.map_cons, List.map_flatMap, List.flatMap_map, Part.brief]

/-- The parentheses of a field in flat text. -/
private theorem flattens_group {f : FieldDecl} (h : ∀ a ∈ f.args, a.IsProper)
    {before after : Option Char} {flat : Text}
    (hflat : Flattens before after (f.group.map Part.brief) flat) :
    ∃ inside, Holds f.args inside ∧ (f.args = [] → inside = []) ∧
      flat = if f.args = [] then [] else '(' :: inside ++ [')'] := by
  unfold FieldDecl.group at hflat
  split_ifs at hflat ⊢ with hargs
  · obtain rfl := hflat
    exact ⟨[], hargs ▸ Holds.nil, fun _ => rfl, rfl⟩
  · have hopen : isSnug before (some '(') := by simp [isSnug, isMark]
    have hclose (before : Option Char) : isSnug before (some ')') := by simp [isSnug, isMark]
    have hmap : (f.args.map ArgumentDecl.parts).map (·.map Part.brief) =
        f.args.map fun a => a.parts.map Part.brief := List.map_map
    rw [List.map_append, List.map_cons, List.map_cons, List.map_cons, map_separated, hmap,
      List.cons_append, List.cons_append, List.cons_append] at hflat
    obtain ⟨_, rfl, hrest⟩ := (flattens_slot hopen).1 hflat
    obtain ⟨inside, _, rfl, hinside, hend⟩ := ((flattens_slot rfl).1 hrest).split
    obtain ⟨_, rfl, rfl⟩ := (flattens_slot (hclose _)).1 hend
    exact ⟨inside, holds_of_flattens h hinside, fun heq => absurd heq hargs, by simp⟩

/-- The directives of a field in flat text, where no group follows them. -/
private theorem flattens_directives {ds : List Directive} (h : ∀ d ∈ ds, d.IsProper)
    {before after : Option Char} {flat : Text}
    (hflat : Flattens before after (ds.flatMap fun d => [.slot, .token d.brief]) flat) :
    (∀ c ∈ flat, c ≠ '(' ∧ c ≠ ':') ∧ ∀ c ∈ flat.head?, c = separator ∨ c = '@' := by
  have htokens : ∀ d, Part.directive d ∉ ds.flatMap fun d => [.slot, .token d.brief] := by simp
  refine ⟨fun c hc => ?_, ?_⟩
  · rcases mem_of_flattens htokens hflat c hc with rfl | ⟨t, ht, hct⟩
    · decide
    obtain ⟨d, hd, rfl⟩ : ∃ d ∈ ds, t = d.brief := by simpa using ht
    rcases (h d hd).mem_brief hct with rfl | rfl | hname
    · decide
    · decide
    · constructor <;> (rintro rfl; exact (h d hd).name.isLiteral.notMem (by decide) hname)
  · cases ds with
    | nil =>
      obtain rfl := hflat
      simp
    | cons d ds =>
      rcases hflat with ⟨rest, rfl, -⟩ | ⟨-, rest, rfl, -⟩
      · exact fun c hc => .inr (Option.some.inj hc).symm
      · exact fun c hc => .inl (Option.some.inj hc).symm

/-- The response of a field, which is annotated like a type that is no list. -/
def FieldDecl.responseType (f : FieldDecl) : TypeRef := ⟨f.response, f.required, false, false⟩

/-- The brief form of a field: its response is printed as the text of a type. -/
theorem FieldDecl.map_brief (f : FieldDecl) :
    f.parts.map Part.brief =
      .token f.name :: (f.group.map Part.brief ++ .slot :: .token [':'] :: .slot ::
        (f.responseType.parts ++ f.directives.flatMap fun d => [.slot, .token d.brief])) := by
  have hmark : (TypeRef.markParts f.required).map Part.brief = TypeRef.markParts f.required :=
    map_brief_of_tame (tame_markParts _)
  have hresponse : f.responseType.parts = .token f.response :: TypeRef.markParts f.required := rfl
  simp only [FieldDecl.parts, List.map_append, List.map_cons, List.map_flatMap, List.map_nil, hmark,
    hresponse, Part.brief, List.cons_append, List.append_assoc]

/-- In flat text, a field is a chunk. -/
theorem exists_chunk {f : FieldDecl} (h : f.IsProper) {before after : Option Char} {flat : Text}
    (hflat : Flattens before after (f.parts.map Part.brief) flat) :
    ∃ c : Chunk, flat = c.text ∧ c.IsProper ∧ IsChunk f c ∧ opens flat.getLast? = false ∧
      (flat.getLast? = some separator → c.tail.getLast? = some separator) := by
  have hcolon (before : Option Char) : isSnug before (some ':') := by simp [isSnug, isMark]
  have hresponse : f.responseType.IsProper := ⟨h.response, by simp [FieldDecl.responseType]⟩
  rw [f.map_brief] at hflat
  -- the parts of a field one after the other: name, group, colon, response and directives
  obtain ⟨_, rfl, hname⟩ := hflat
  obtain ⟨group, _, rfl, hgroup, hmark⟩ := hname.split
  obtain ⟨inside, hinside, hplain, rfl⟩ := flattens_group h.args hgroup
  obtain ⟨_, rfl, hslot⟩ := (flattens_slot (hcolon _)).1 hmark
  obtain ⟨response, tail, rfl, htype, htail⟩ := ((flattens_slot rfl).1 hslot).split
  obtain rfl := flattens_type htype
  obtain ⟨last, hlast, hopens, hseparator⟩ := TypeRef.IsProper.exists_last hresponse
  rw [hlast, Option.some_or] at htail
  obtain ⟨hchars, hhead⟩ := flattens_directives h.directives htail
  have hquiet := quiet_directives .slot h.directives _ after tail hopens htail
  let c : Chunk :=
    ⟨⟨f.name, inside, responseToken f.response f.required⟩, decide (f.args ≠ []), tail⟩
  have htext : f.name ++ ((if f.args = [] then [] else '(' :: inside ++ [')']) ++
      ([':'] ++ (f.responseType.text ++ tail))) = c.text := by
    have hresponseText : f.responseType.text = responseToken f.response f.required := rfl
    by_cases hargs : f.args = [] <;> simp [c, Chunk.text, Chunk.head, hargs, hresponseText]
  have hlastText : c.text.getLast? = tail.getLast?.or (some last) := by
    have hlastHead : c.head.getLast? = some last := by
      have hcons : c.head = (f.name ++ (if c.called then '(' :: inside ++ [')'] else []) ++ [':']) ++
          f.responseType.text := List.append_assoc _ [':'] _ |>.symm
      rw [hcons, List.getLast?_append, hlast, Option.some_or]
    rw [Chunk.text, List.getLast?_append, hlastHead]
  rw [htext]
  refine ⟨c, rfl, ⟨⟨h.name, hinside.groups, f.response, f.required, h.response, rfl⟩, ?_, hchars, hhead⟩,
    ⟨⟨rfl, rfl, hinside⟩, by simp [c]⟩, hlastText ▸ hquiet, ?_⟩
  · intro hnone
    exact hplain (by simpa [c] using hnone)
  · rw [hlastText]
    intro heq
    cases htailLast : tail.getLast? with
    | none => exact absurd (by simpa [htailLast] using heq) hseparator
    | some d => simpa [htailLast, c] using heq

/-- A chunk that takes the separator behind it. -/
private theorem areChunks_cons {c : Chunk} (hc : c.IsProper) {lead : Text} {cs : List Chunk}
    (hcs : AreChunks cs) (hlead : lead = [] ∨ lead = [separator])
    (hparted : cs = [] ∨ lead = [separator] ∨ c.tail.getLast? = some separator) :
    AreChunks ({ c with tail := c.tail ++ lead } :: cs) := by
  refine ⟨⟨hc.field, hc.plain, ?_, ?_⟩, ?_, hcs⟩
  · refine List.forall_mem_append.2 ⟨hc.tail, ?_⟩
    rcases hlead with rfl | rfl <;> decide
  · intro d hd
    rw [List.head?_append] at hd
    cases hhead : c.tail.head? with
    | some e => exact hc.head d (by simpa [hhead] using hd)
    | none =>
      rcases hlead with rfl | rfl
      · simp [hhead] at hd
      · exact .inl (by simpa [hhead, eq_comm] using hd)
  · refine hparted.imp_right fun hseparator => ?_
    rw [List.getLast?_append]
    rcases hlead with rfl | rfl
    · exact hseparator.resolve_left (by simp)
    · rfl

/-- One more field in front of others, of which a separator may be the first character. -/
private theorem exists_chunks_cons {f : FieldDecl} (h : f.IsProper) {fs : List FieldDecl}
    {more : List Part} {after : Option Char}
    (hmore : ∀ before flat, opens before = false → Flattens before after more flat →
      ∃ lead cs, flat = lead ++ cs.flatMap Chunk.text ∧ (lead = [] ∨ lead = [separator]) ∧
        (cs = [] ∨ lead = [separator] ∨ before = some separator) ∧ AreChunks cs ∧
        List.Forall₂ IsChunk fs cs)
    {before : Option Char} {flat : Text}
    (hflat : Flattens before after (f.parts.map Part.brief ++ more) flat) :
    ∃ cs, flat = cs.flatMap Chunk.text ∧ AreChunks cs ∧ List.Forall₂ IsChunk (f :: fs) cs := by
  obtain ⟨front, rest, rfl, hfront, hrest⟩ := hflat.split
  obtain ⟨c, rfl, hc, hchunk, hopens, hlast⟩ := exists_chunk h hfront
  have hne : c.text ≠ [] := by simp [Chunk.text, Chunk.head]
  obtain ⟨last, htextLast⟩ := Option.ne_none_iff_exists'.1 (mt List.getLast?_eq_none_iff.1 hne)
  have hor : c.text.getLast?.or before = c.text.getLast? := by rw [htextLast, Option.some_or]
  rw [hor] at hrest
  obtain ⟨lead, cs, rfl, hlead, hparted, hcs, hchunks⟩ := hmore _ rest hopens hrest
  refine ⟨{ c with tail := c.tail ++ lead } :: cs, ?_, areChunks_cons hc hcs hlead ?_, ?_⟩
  · simp [Chunk.text, Chunk.head]
  · exact hparted.imp_right (Or.imp_right hlast)
  · exact .cons ⟨hchunk.field, hchunk.called⟩ hchunks

/-- The fields behind the first one. -/
private theorem exists_chunks_rest {fs : List FieldDecl} (h : ∀ f ∈ fs, f.IsProper)
    (before : Option Char) (flat : Text) (hbefore : opens before = false)
    (hflat : Flattens before none
      (((fs.map fun f => f.parts.map Part.brief).flatMap fun ps => .gap :: ps) ++ [.slot]) flat) :
    ∃ lead cs, flat = lead ++ cs.flatMap Chunk.text ∧ (lead = [] ∨ lead = [separator]) ∧
      (cs = [] ∨ lead = [separator] ∨ before = some separator) ∧ AreChunks cs ∧
      List.Forall₂ IsChunk fs cs := by
  induction fs generalizing before flat with
  | nil =>
    refine ⟨flat, [], by simp, ?_, .inl rfl, trivial, .nil⟩
    rcases hflat with rfl | ⟨-, rest, rfl, rfl⟩
    · exact .inl rfl
    · exact .inr rfl
  | cons f fs ih =>
    obtain ⟨hf, hfs⟩ := List.forall_mem_cons.1 h
    obtain ⟨c, name, hname⟩ := List.exists_cons_of_ne_nil hf.name.ne_nil
    have hc := hf.name.isLiteral.not_closes (c := c) (by simp [hname])
    rw [List.map_cons, List.flatMap_cons, List.append_assoc, List.cons_append] at hflat
    have hnext (ps : List Part) : next none (f.parts.map Part.brief ++ ps) = some c := by
      rw [f.map_brief, List.cons_append, next, hname, List.head?_cons, Option.some_or]
    rcases flattens_gap_cases hbefore (hnext _) hc hflat with ⟨hseparator, hrest⟩ | ⟨rest, rfl, hrest⟩
    · obtain ⟨cs, rfl, hcs, hchunks⟩ := exists_chunks_cons hf (ih hfs) hrest
      exact ⟨[], cs, rfl, .inl rfl, .inr (.inr hseparator), hcs, hchunks⟩
    · obtain ⟨cs, rfl, hcs, hchunks⟩ := exists_chunks_cons hf (ih hfs) hrest
      exact ⟨[separator], cs, rfl, .inr rfl, .inr (.inl rfl), hcs, hchunks⟩

/-- Flat text of a type block falls into the chunks of its fields, behind a separator if white space
stands in front of the first one. -/
theorem exists_chunks {fs : List FieldDecl} (h : ∀ f ∈ fs, f.IsProper) {flat : Text}
    (hflat : Flattens none none ((interiorParts fs).map Part.brief) flat) :
    ∃ lead cs, flat = lead ++ cs.flatMap Chunk.text ∧ (lead = [] ∨ lead = [separator]) ∧
      AreChunks cs ∧ List.Forall₂ IsChunk fs cs := by
  cases fs with
  | nil =>
    rcases hflat with rfl | ⟨-, rest, rfl, rfl⟩
    · exact ⟨[], [], rfl, .inl rfl, trivial, .nil⟩
    · exact ⟨[separator], [], rfl, .inr rfl, trivial, .nil⟩
  | cons f fs =>
    obtain ⟨hf, hfs⟩ := List.forall_mem_cons.1 h
    have hmap : (interiorParts (f :: fs)).map Part.brief = .slot :: (f.parts.map Part.brief ++
        (((fs.map fun f => f.parts.map Part.brief).flatMap fun ps => .gap :: ps) ++ [.slot])) := by
      simp [interiorParts, separated, Part.brief, List.map_flatMap, List.flatMap_map]
    rw [hmap] at hflat
    rcases hflat with hflat | ⟨-, rest, rfl, hflat⟩
    · obtain ⟨cs, rfl, hcs, hchunks⟩ := exists_chunks_cons hf (exists_chunks_rest hfs) hflat
      exact ⟨[], cs, rfl, .inl rfl, hcs, hchunks⟩
    · obtain ⟨cs, rfl, hcs, hchunks⟩ := exists_chunks_cons hf (exists_chunks_rest hfs) hflat
      exact ⟨[separator], cs, rfl, .inr rfl, hcs, hchunks⟩

/-! ## The fields of a layout -/

/-- Declared fields in the order in which they are extracted: those with arguments come first. -/
def extracted (fs : List FieldDecl) : List FieldDecl :=
  fs.filter (·.args ≠ []) ++ fs.filter (·.args = [])

/-- Every layout has the declared fields, and no others. -/
theorem forall₂_fields {fs : List FieldDecl} (h : ∀ f ∈ fs, f.IsProper) {bits : List Bit}
    (hfills : Fills (interiorParts fs) bits) (hread : AreRead bits) :
    List.Forall₂ IsField (extracted fs) (fields (flatten (written bits))) := by
  have hflat := flattens_shorten (tidy_interiorParts h) (flattens_flatten hfills hread)
  obtain ⟨lead, cs, hshorten, hlead, hcs, hchunks⟩ := exists_chunks h hflat
  rw [fields_chunks hcs hlead hshorten]
  have hmap {fs : List FieldDecl} {cs : List Chunk} (h : List.Forall₂ IsChunk fs cs) :
      List.Forall₂ IsField fs (cs.map (·.field)) :=
    List.forall₂_map_right_iff.2 (h.imp fun _ _ hchunk => hchunk.field)
  refine List.rel_append (hmap (List.rel_filter ?_ hchunks)) (hmap (List.rel_filter ?_ hchunks))
  · intro f c hchunk
    simp [hchunk.called]
  · intro f c hchunk
    have hcalled := hchunk.called
    cases hc : c.called <;> simp_all

end Scaffold.Schema
