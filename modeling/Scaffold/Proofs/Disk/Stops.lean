import Scaffold.Disk.Staging
import Scaffold.Proofs.Text.Splitting

/-!
# The segments that count

Of the segments of a path, those that are empty or a dot lead nowhere; the others are its stops. The
stops of a parent are those of the path but the last one (`Path.stops_parent`), and a name that is
joined to a path is one more stop (`Path.stops_join`). The steps that the system takes are the stops,
up to steps that stay where they are (`Tree.filter_steps`), so that an artifact and its draft
lie in one directory (`Artifact.exists_steps_of_isEntryName`).
-/

namespace Scaffold

open Text

/-- A text that is one stop of a path: a name, or a step to the directory above. -/
structure IsStop (n : Text) : Prop where
  proper : Path.isIdle n = false
  whole : '/' ∉ n

instance (n : Text) : Decidable (IsStop n) :=
  decidable_of_iff (Path.isIdle n = false ∧ '/' ∉ n)
    ⟨fun h => ⟨h.1, h.2⟩, fun h => ⟨h.proper, h.whole⟩⟩

/-- A text that can stand as a name in a directory. -/
structure IsEntryName (n : Text) : Prop where
  proper : Path.isIdle n = false
  not_up : n ≠ ['.', '.']
  whole : '/' ∉ n

instance (n : Text) : Decidable (IsEntryName n) :=
  decidable_of_iff (Path.isIdle n = false ∧ n ≠ ['.', '.'] ∧ '/' ∉ n)
    ⟨fun h => ⟨h.1, h.2.1, h.2.2⟩, fun h => ⟨h.proper, h.not_up, h.whole⟩⟩

theorem IsEntryName.isStop {n : Text} (h : IsEntryName n) : IsStop n := ⟨h.proper, h.whole⟩

namespace Path

variable {p q : Path} {n : Text}

/-- The segments of a path that lead somewhere. -/
def stops (p : Path) : List Text := (splitOn '/' p.text).filter (!isIdle ·)

/-- A slash separates stops. -/
theorem stops_append_slash (s t : Text) : stops ⟨s ++ '/' :: t⟩ = stops ⟨s⟩ ++ stops ⟨t⟩ := by
  rw [stops, splitOn_append_separator, List.filter_append]
  rfl

theorem stops_slash (t : Text) : stops ⟨'/' :: t⟩ = stops ⟨t⟩ := stops_append_slash [] t

theorem stops_dot_slash (t : Text) : stops ⟨'.' :: '/' :: t⟩ = stops ⟨t⟩ := stops_append_slash ['.'] t

/-- What stands before the body of a path: nothing, a slash, or a dot that a slash may follow. -/
theorem lead_spec (p : Path) :
    (p.lead = [] ∨ p.lead = ['/'] ∨
      p.lead = ['.'] ∧ (p.segments = [[]] ∨ ∃ rest, p.segments = [] :: splitOn '/' rest)) ∧
    p.segments.filter (!isIdle ·) = p.stops := by
  obtain ⟨text⟩ := p
  cases text with
  | nil => exact ⟨.inl rfl, rfl⟩
  | cons c text =>
    by_cases hslash : c = '/'
    · subst hslash
      exact ⟨.inr (.inl rfl), (stops_slash text).symm⟩
    · by_cases hdot : c = '.'
      · subst hdot
        cases text with
        | nil => exact ⟨.inr (.inr ⟨rfl, .inl rfl⟩), rfl⟩
        | cons d text =>
          by_cases hd : d = '/'
          · subst hd
            exact ⟨.inr (.inr ⟨rfl, .inr ⟨text, splitOn_append_separator [] text⟩⟩),
              (stops_slash text).trans (stops_dot_slash text).symm⟩
          · have hlead : lead ⟨'.' :: d :: text⟩ = [] := by simp [lead, hd]
            exact ⟨.inl hlead, by simp [segments, hlead, stops]⟩
      · have hlead : lead ⟨c :: text⟩ = [] := by simp [lead, hslash, hdot]
        exact ⟨.inl hlead, by simp [segments, hlead, stops]⟩

/-- The components of a path are what it starts with and its stops. -/
theorem components_eq (p : Path) :
    p.components = p.leadComponent?.toList ++ p.stops.map .ofSegment := by
  rw [components, (lead_spec p).2]

/-- The file name of a path is its last stop, if that is a name. -/
theorem fileName?_eq_some_iff : p.fileName? = some n ↔ p.stops.getLast? = some n ∧ n ≠ ['.', '.'] := by
  rw [fileName?, components_eq, List.getLast?_append, List.getLast?_map]
  cases p.stops.getLast? with
  | none =>
    have hlead : ∀ m, p.leadComponent?.toList.getLast? ≠ some (.name m) := by
      unfold leadComponent?
      intro m
      split <;> simp
    rw [Option.map_none, Option.none_or]
    split
    · next m hm => exact absurd hm (hlead m)
    · simp
  | some s =>
    by_cases hup : s = ['.', '.']
    · have hstep : Component.ofSegment s = .up := if_pos hup
      simp only [Option.map_some, Option.some_or, hstep, reduceCtorEq, Option.some.injEq, false_iff]
      rintro ⟨rfl, hne⟩
      exact hne hup
    · have hstep : Component.ofSegment s = .name s := if_neg hup
      simp only [Option.map_some, Option.some_or, hstep, Option.some.injEq, iff_self_and]
      rintro rfl
      exact hup

/-! ## Parents -/

/-- Dropping idle segments at the end leaves a prefix. -/
theorem dropIdleEnd_isPrefix (segs : List Text) : dropIdleEnd segs <+: segs := by
  have hsuffix := List.dropWhile_suffix isIdle (l := segs.reverse)
  rw [dropIdleEnd, ← List.reverse_suffix, List.reverse_reverse]
  exact hsuffix

/-- Idle segments at the end are no stops. -/
theorem filter_dropIdleEnd (segs : List Text) :
    (dropIdleEnd segs).filter (!isIdle ·) = segs.filter (!isIdle ·) := by
  rw [dropIdleEnd, List.filter_reverse, List.reverse_eq_iff, ← List.filter_reverse]
  induction segs.reverse with
  | nil => rfl
  | cons s segs ih =>
    by_cases hs : isIdle s
    · rw [List.dropWhile_cons_of_pos hs, ih, List.filter_cons_of_neg (by simpa using hs)]
    · rw [List.dropWhile_cons_of_neg hs]

/-- The last segment that is left counts. -/
theorem filter_dropLast_dropIdleEnd (segs : List Text) :
    (dropIdleEnd segs).dropLast.filter (!isIdle ·) =
      ((dropIdleEnd segs).filter (!isIdle ·)).dropLast := by
  rcases (dropIdleEnd segs).eq_nil_or_concat with hnil | ⟨front, last, hlast⟩
  · rw [hnil]
    rfl
  · have hidle : isIdle last = false := by
      have hhead := List.head?_dropWhile_not isIdle segs.reverse
      rw [← List.getLast?_reverse, ← dropIdleEnd, hlast] at hhead
      simpa using hhead
    rw [hlast, List.concat_eq_append, List.dropLast_concat, List.filter_append]
    simp [hidle]

/-- The stops of joined segments are those that are not idle. -/
theorem stops_join_segments {segs : List Text} (h : ∀ s ∈ segs, '/' ∉ s) :
    stops ⟨Text.join ['/'] segs⟩ = segs.filter (!isIdle ·) := by
  cases segs with
  | nil => rfl
  | cons s segs => rw [stops, splitOn_join (by simp) h]

/-- What stands before the body leads nowhere in front of segments of the body either. -/
theorem stops_lead_join {segs : List Text} (h : segs <+: p.segments) :
    stops ⟨p.lead ++ Text.join ['/'] segs⟩ = segs.filter (!isIdle ·) := by
  have hslash : ∀ s ∈ segs, '/' ∉ s := fun s hs => notMem_of_mem_splitOn (h.subset hs)
  rcases (lead_spec p).1 with hlead | hlead | ⟨hlead, hsegs⟩
  · rw [hlead]
    exact stops_join_segments hslash
  · rw [hlead]
    exact (stops_slash _).trans (stops_join_segments hslash)
  · rw [hlead]
    cases segs with
    | nil => rfl
    | cons s segs =>
      -- The body starts with a slash, if it is not empty.
      obtain rfl : s = [] := by
        rcases hsegs with hsegs | ⟨rest, hsegs⟩ <;> rw [hsegs] at h
        · exact (List.cons_prefix_cons.1 h).1
        · exact (List.cons_prefix_cons.1 h).1
      cases segs with
      | nil => rfl
      | cons s segs =>
        have hjoin : Text.join ['/'] ([] :: s :: segs) = '/' :: Text.join ['/'] (s :: segs) := by
          simp [Text.join, List.intercalate_cons_cons]
        rw [hjoin]
        exact (stops_dot_slash _).trans
          (stops_join_segments fun s' hs' => hslash s' (List.mem_cons_of_mem _ hs'))

/-- The path above leaves out the last stop. -/
theorem stops_parent (p : Path) : (p.parent?.getD ⟨[]⟩).stops = p.stops.dropLast := by
  have hstops := (lead_spec p).2
  rw [← filter_dropIdleEnd] at hstops
  unfold parent?
  split
  · next hidle =>
    rw [← hstops, hidle]
    split <;> rfl
  · have hpre : dropIdleEnd (dropIdleEnd p.segments).dropLast <+: p.segments :=
      (dropIdleEnd_isPrefix _).trans ((List.dropLast_prefix _).trans (dropIdleEnd_isPrefix _))
    rw [Option.getD_some, stops_lead_join hpre, filter_dropIdleEnd, ← hstops]
    exact filter_dropLast_dropIdleEnd p.segments

/-! ## Names -/

/-- Joining a stop to a path appends it to the stops. -/
theorem stops_join (p : Path) (hn : IsStop n) :
    (p.join n).stops = p.stops ++ [n] ∧ (splitOn '/' (p.join n).text).getLast? = some n := by
  have hsplit := splitOn_of_notMem hn.whole
  have hstops : stops ⟨n⟩ = [n] := by simp [stops, hsplit, hn.proper]
  have hhead : n.head? ≠ some '/' := fun h => hn.whole (List.mem_of_mem_head? h)
  rw [join, if_neg hhead]
  split
  · next hempty =>
    -- no slash is put between: the path is empty or ends with one
    rcases List.eq_nil_or_concat p.text with hnil | ⟨front, c, hfront⟩
    · have hp : p.stops = [] := by simp [stops, hnil, splitOn, splitHead, isIdle]
      rw [hp, hnil]
      simp [hstops, hsplit]
    · obtain rfl : c = '/' := by simpa [hfront] using hempty
      have hp : p.stops = stops ⟨front⟩ := by
        rw [stops, hfront, List.concat_eq_append]
        exact (stops_append_slash front []).trans (List.append_nil _)
      rw [hp, hfront, List.concat_eq_append, List.append_assoc, List.singleton_append,
        stops_append_slash, hstops, splitOn_append_separator, hsplit]
      simp
  · rw [stops_append_slash, hstops, splitOn_append_separator, hsplit]
    exact ⟨rfl, by simp⟩

end Path

namespace Tree

/-- The step that a segment stands for. -/
def Step.ofSegment (segment : Text) : Step :=
  if segment = ['.'] then .stay else if segment = ['.', '.'] then .up else .name segment

/-- Only a dot stays. -/
theorem Step.ofSegment_ne_stay (segment : Text) : ofSegment segment ≠ .stay ↔ segment ≠ ['.'] := by
  unfold ofSegment
  split
  · next h => simp [h]
  · next h => split <;> simp [h]

/-- The name of an entry is a step to it. -/
theorem Step.ofSegment_name {n : Text} (hn : IsEntryName n) : ofSegment n = .name n := by
  have hdot : n ≠ ['.'] := fun h => by simpa [h, Path.isIdle] using hn.proper
  rw [ofSegment, if_neg hdot, if_neg hn.not_up]

/-- What a slash at the end of a path asks for. -/
def slashEnd (p : Path) : List Step :=
  if p.text ≠ [] && (splitOn '/' p.text).getLast? = some [] then [.slash] else []

/-- The steps of a path are its stops, up to steps that stay and a slash at the end. -/
theorem filter_steps (p : Path) :
    (steps p.text).filter (· ≠ .stay) = p.stops.map .ofSegment ++ slashEnd p := by
  have hsteps : steps p.text =
      ((splitOn '/' p.text).filter (· ≠ [])).map .ofSegment ++ slashEnd p := rfl
  have hslash : (slashEnd p).filter (· ≠ .stay) = slashEnd p := by
    unfold slashEnd
    split <;> rfl
  rw [hsteps, List.filter_append, hslash, List.filter_map, List.filter_filter]
  congr 2
  refine List.filter_congr fun segment _ => ?_
  have hstay := Step.ofSegment_ne_stay segment
  rw [Bool.eq_iff_iff]
  simp only [Function.comp_apply, Bool.and_eq_true, decide_eq_true_eq, hstay, Path.isIdle,
    Bool.not_or, Bool.not_eq_true', decide_eq_false_iff_not]
  tauto

/-- The steps of a path whose last segment is a name end there. -/
theorem exists_steps_eq_append_name {p : Path} {n : Text} (hn : IsEntryName n)
    (hlast : (splitOn '/' p.text).getLast? = some n) :
    ∃ way, steps p.text = way ++ [.name n] ∧
      way.filter (· ≠ .stay) = p.stops.dropLast.map .ofSegment := by
  obtain ⟨front, hsplit⟩ := List.getLast?_eq_some_iff.1 hlast
  have hne : n ≠ [] := fun h => by simpa [h, Path.isIdle] using hn.proper
  have hslash : slashEnd p = [] := by simp [slashEnd, hlast, hne]
  have hsteps : steps p.text = (front.filter (· ≠ [])).map .ofSegment ++ [.name n] := by
    have hall : steps p.text =
        ((splitOn '/' p.text).filter (· ≠ [])).map .ofSegment ++ slashEnd p := rfl
    rw [hall, hslash, hsplit, List.filter_append]
    simp [hne, Step.ofSegment_name hn]
  refine ⟨_, hsteps, ?_⟩
  have hfilter := filter_steps p
  rw [hslash, List.append_nil, hsteps, List.filter_append] at hfilter
  rw [List.map_dropLast, ← hfilter]
  simp

/-- A path whose last segment is a name has a last stop. -/
theorem getLast?_stops {p : Path} {n : Text} (hn : IsEntryName n)
    (hlast : (splitOn '/' p.text).getLast? = some n) : p.stops.getLast? = some n := by
  obtain ⟨front, hsplit⟩ := List.getLast?_eq_some_iff.1 hlast
  rw [Path.stops, hsplit, List.filter_append]
  simp [hn.proper]

end Tree

namespace Artifact

/-- The name of a draft. -/
def draftName (a : Artifact) : Text := '.' :: (a.path.fileName?).getD [] ++ ".resolvgen.tmp".toList

theorem isEntryName_draftName (a : Artifact) : IsEntryName a.draftName where
  proper := by simp [draftName, Path.isIdle]
  not_up := fun h => by simpa [draftName] using congrArg List.length h
  whole := by
    have hname : '/' ∉ (a.path.fileName?).getD [] := by
      cases hname : a.path.fileName? with
      | none => simp
      | some n =>
        have hlast := (Path.fileName?_eq_some_iff.1 hname).1
        exact notMem_of_mem_splitOn (List.mem_filter.1 (List.mem_of_getLast? hlast)).1
    have htmp : '/' ∉ ".resolvgen.tmp".toList := by decide
    simp only [draftName, List.cons_append, List.mem_cons, List.mem_append, not_or]
    exact ⟨by decide, hname, htmp⟩

/-- The steps to a draft end at its name, and before that they are steps to the artifact. -/
theorem exists_steps_draftPath (a : Artifact) :
    ∃ way rest, Tree.steps a.draftPath.text = way ++ [.name a.draftName] ∧
      (Tree.steps a.path.text).filter (· ≠ .stay) = way.filter (· ≠ .stay) ++ rest := by
  -- the draft lies beside the artifact, or below its path where that has no file name
  have hdraft : ∃ (q : Path) (more : List Text),
      a.draftPath = q.join a.draftName ∧ a.path.stops = q.stops ++ more := by
    rw [draftPath, Path.withFileName]
    split
    · have hparent := Path.stops_parent a.path
      exact ⟨_, a.path.stops.drop (a.path.stops.length - 1), rfl,
        by rw [hparent, List.dropLast_eq_take, List.take_append_drop]⟩
    · exact ⟨a.path, [], rfl, (List.append_nil _).symm⟩
  obtain ⟨q, more, hq, hmore⟩ := hdraft
  obtain ⟨hstops, hsplit⟩ := Path.stops_join q a.isEntryName_draftName.isStop
  rw [← hq] at hstops hsplit
  obtain ⟨way, hsteps, hway⟩ := Tree.exists_steps_eq_append_name a.isEntryName_draftName hsplit
  refine ⟨way, more.map .ofSegment ++ Tree.slashEnd a.path, hsteps, ?_⟩
  rw [Tree.filter_steps, hmore, hway, hstops, List.dropLast_concat]
  simp

/-- The draft of an artifact whose path ends with a name lies in the same directory, under another
name. -/
theorem exists_steps_of_isEntryName (a : Artifact) {n : Text} (hn : IsEntryName n)
    (hlast : (splitOn '/' a.path.text).getLast? = some n) :
    ∃ way way', Tree.steps a.path.text = way ++ [.name n] ∧
      Tree.steps a.draftPath.text = way' ++ [.name a.draftName] ∧ a.draftName ≠ n ∧
      way.filter (· ≠ .stay) = way'.filter (· ≠ .stay) := by
  have hname : a.path.fileName? = some n :=
    Path.fileName?_eq_some_iff.2 ⟨Tree.getLast?_stops hn hlast, hn.not_up⟩
  have hdraft : a.draftPath = (a.path.parent?.getD ⟨[]⟩).join a.draftName := by
    rw [draftPath, Path.withFileName, draftName, hname, Option.isSome_some, if_pos rfl]
  obtain ⟨hstops, hsplit⟩ :=
    Path.stops_join (a.path.parent?.getD ⟨[]⟩) a.isEntryName_draftName.isStop
  rw [← hdraft] at hstops hsplit
  obtain ⟨way, hsteps, hway⟩ := Tree.exists_steps_eq_append_name hn hlast
  obtain ⟨way', hsteps', hway'⟩ := Tree.exists_steps_eq_append_name a.isEntryName_draftName hsplit
  refine ⟨way, way', hsteps, hsteps', fun h => ?_, ?_⟩
  · have hlength := congrArg List.length h
    simp only [draftName, hname, Option.getD_some, List.cons_append, List.length_cons,
      List.length_append] at hlength
    omega
  · rw [hway, hway', hstops, List.dropLast_concat, Path.stops_parent]

end Artifact

end Scaffold
