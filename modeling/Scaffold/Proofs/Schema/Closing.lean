import Scaffold.Proofs.Schema.Documentation

/-!
# Interiors that can be glued together

An interior that a brace closes is written in closed bits, if its descriptions end on their lines
(`exists_bits_of_closeBlock`). Such an interior can be trimmed and set on lines of its own in any block: a
comment at its end ends with the line, and no quote and no brace of it stays open (`isSealed_trimmed`).
-/

namespace Scaffold.Schema

open Text

/-! ## Bits in front of a text -/

/-- Bits are closed if the first of them are before the others, and the others are. -/
theorem areClosedBefore_append {after : Text} {bits bits' : List Bit} :
    AreClosedBefore after (bits ++ bits') ↔
      AreClosedBefore (written bits' ++ after) bits ∧ AreClosedBefore after bits' := by
  induction bits with
  | nil => simp [AreClosedBefore]
  | cons b bits ih => simp [AreClosedBefore, ih, and_assoc]

/-- A bit is closed by the first character behind it. -/
theorem Bit.IsClosed.congr {b : Bit} {after after' : Text} (h : b.IsClosed after)
    (hhead : after.head? = after'.head?) : b.IsClosed after' := by
  cases b with
  | solid | blank | comma | block => exact h
  | comment => exact ⟨h.1, hhead ▸ h.2⟩
  | quoted => exact ⟨h.1, hhead ▸ h.2⟩

/-- Whether bits are closed depends on the first character behind them. -/
theorem AreClosedBefore.congr {after after' : Text} {bits : List Bit} (h : AreClosedBefore after bits)
    (hhead : after.head? = after'.head?) : AreClosedBefore after' bits := by
  induction bits with
  | nil => trivial
  | cons b bits ih => exact ⟨h.1.congr (by simp [List.head?_append, hhead]), ih h.2⟩

/-! ## Bits of an interior -/

/-- Whether every description of a text ends with a quote on its line. -/
def DescriptionsClosed (s : Text) : Prop :=
  ∀ region, .found () region ∈ pieces documentation s → region.head? = some '"' →
    after? blockQuotes region = none → ∃ t, region = (Bit.quoted t).text ∧ isDescription t

/-- All descriptions among closed bits are. -/
theorem descriptionsClosed_written {bits : List Bit} (h : AreClosed bits) :
    DescriptionsClosed (written bits) := by
  intro region hregion hhead hnone
  rcases isClosedRegion_of_mem_pieces h hregion with hcomment | hdescription | ⟨t, rfl, -⟩
  · rw [hhead] at hcomment
    cases hcomment
  · exact hdescription
  · rw [Bit.text, List.append_assoc, after?_append] at hnone
    cases hnone

theorem length_descriptionRest (s : Text) : (descriptionRest s).length ≤ s.length :=
  (descriptionRest_suffix s).length_le

/-- A description that takes nothing stands at the end of its line. -/
private theorem head?_of_descriptionRest {s : Text} (h : descriptionRest s = s) :
    ∀ c ∈ s.head?, c = '\n' := by
  have hlength := congrArg List.length h
  fun_cases descriptionRest s with
  | case1 => simp
  | case2 => simp [descriptionRest] at h
  | case3 d s =>
    have := length_descriptionRest s
    simp only [descriptionRest, List.length_cons] at hlength
    omega
  | case4 => simp [descriptionRest] at h
  | case5 => simp
  | case6 c s hlone hescape hquote hnewline =>
    have := length_descriptionRest s
    rw [descriptionRest.eq_6 _ _ hlone hescape hquote hnewline, List.length_cons] at hlength
    omega

/-- A description ends where it ends when something follows. -/
private theorem descriptionRest_of_append {t u : Text} {c : Char} {s : Text} (hc : c ≠ '\n')
    (h : descriptionRest (t ++ (u ++ c :: s)) = u ++ c :: s) : descriptionRest (t ++ u) = u := by
  have hlength := congrArg List.length h
  fun_induction descriptionRest t with
  | case1 =>
    rw [List.nil_append] at h ⊢
    cases u with
    | nil => exact absurd (head?_of_descriptionRest h c rfl) hc
    | cons d u =>
      obtain rfl := head?_of_descriptionRest h d rfl
      rfl
  | case2 =>
    -- a backslash takes the next character
    obtain ⟨d, rest, hrest⟩ := List.exists_cons_of_ne_nil (l := u ++ c :: s) (by simp)
    have := length_descriptionRest rest
    rw [hrest] at hlength
    simp only [List.cons_append, List.nil_append, descriptionRest, List.length_cons] at hlength
    omega
  | case3 d t ih => exact ih h hlength
  | case4 t =>
    obtain rfl : t = [] := by simpa [descriptionRest] using h
    rfl
  | case5 t =>
    simp only [List.cons_append, descriptionRest, List.length_cons, List.length_append] at hlength
    omega
  | case6 d t hlone hescape hquote hnewline ih =>
    have hbackslash := ne_backslash hlone hescape
    rw [List.cons_append, descriptionRest_cons hbackslash hquote hnewline] at h hlength ⊢
    exact ih h hlength

/-- A bit that is closed before a text is closed before its front. -/
theorem Bit.IsClosed.of_append {b : Bit} {s t : Text} (h : b.IsClosed (s ++ t)) : b.IsClosed s := by
  cases s with
  | nil =>
    cases b with
    | solid | blank | comma | block => exact h
    | comment => exact ⟨h.1, by simp⟩
    | quoted => exact ⟨h.1, by simp⟩
  | cons c s => exact h.congr rfl

/-- A region that something other than the end of its line follows is a bit. -/
private theorem exists_bit_of_docRest? {c d : Char} {t u s : Text} (hd : d ≠ '\n')
    (h : docRest? (c :: t ++ (u ++ d :: s)) = some (u ++ d :: s))
    (hdescriptions : DescriptionsClosed (c :: t ++ u)) :
    ∃ b : Bit, b.text = c :: t ∧ b.IsClosed (u ++ d :: s) ∧
      (b.isComment ∨ b.isQuoted ∨ b.isBlock) := by
  refine exists_bit h ?_
  by_cases hcomment : c = '#'
  · exact .inl (by rw [hcomment]; rfl)
  right
  obtain rfl : c = '"' := by
    by_contra hquote
    have hnone := docRest?_eq_none hcomment hquote (t ++ (u ++ d :: s))
    rw [List.cons_append, hnone] at h
    cases h
  have hquote := docRest?_quote_eq (t ++ (u ++ d :: s))
  rw [← List.cons_append, h, Option.some.injEq] at hquote
  cases hafter : after? blockQuotes ('"' :: t ++ (u ++ d :: s)) with
  | some inside =>
    rw [hafter] at hquote
    cases hcut : cutAt? blockQuotes inside with
    | none => simp [hcut] at hquote
    | some cut =>
      obtain ⟨front, rest⟩ := cut
      obtain rfl : u ++ d :: s = rest := by simpa [hcut] using hquote
      obtain rfl := cutAt?_eq_some hcut
      have htext : '"' :: t = (Bit.block front).text := by
        refine (List.append_left_inj (u ++ d :: s)).1 ?_
        simpa [Bit.text] using after?_eq_some hafter
      refine .inr ⟨front, htext, ?_⟩
      simpa using cutAt?_congr hcut []
  | none =>
    rw [hafter] at hquote
    have hrest : descriptionRest (t ++ u) = u := descriptionRest_of_append hd hquote.symm
    have hnone : after? blockQuotes ('"' :: (t ++ u)) = none := by
      refine after?_eq_none_of_append (t := d :: s) ?_
      simpa using hafter
    have htakes : documentation.Takes ('"' :: t) u () := by
      refine ⟨List.cons_ne_nil _ _, ?_⟩
      rw [List.cons_append, documentation, docRest?_quote_eq, hnone, hrest]
      rfl
    refine .inl (hdescriptions _ ?_ rfl (after?_eq_none_of_append hafter))
    rw [pieces_append_of_takes isForward_documentation htakes]
    exact List.mem_cons_self

private theorem DescriptionsClosed.behind {s t : Text} {piece : Piece Unit} (h : DescriptionsClosed s)
    (hpieces : pieces documentation s = piece :: pieces documentation t) : DescriptionsClosed t :=
  fun region hregion => h region (hpieces ▸ List.mem_cons_of_mem _ hregion)

/-- No brace of documentation counts. -/
private theorem Bit.depth?_of_region {b : Bit} (h : b.isComment ∨ b.isQuoted ∨ b.isBlock) (depth : Nat) :
    b.depth? depth = some depth := by
  cases b with
  | solid | blank | comma => simp [Bit.isComment, Bit.isQuoted, Bit.isBlock] at h
  | comment | quoted | block => rfl

/-- A character outside documentation does not close the block that it is in. -/
private theorem exists_depth_of_closeBlock {c : Char} {s t : Text} {depth : Nat}
    (h : closeBlock 0 depth (c :: t) = c :: s) (hdoc : docRest? (c :: t) = none) :
    (Bit.solid c).IsClosed t ∧
      ∃ depth', Bit.depth? depth (.solid c) = some depth' ∧ closeBlock 0 depth' t = s := by
  have hcomment : c ≠ '#' := by
    rintro rfl
    cases hdoc
  have hquote : c ≠ '"' := by
    rintro rfl
    have hsome := docRest?_quote t
    rw [hdoc] at hsome
    cases hsome
  obtain ⟨depth', hstep⟩ : ∃ depth', Bit.depth? depth (.solid c) = some depth' := by
    by_contra hnone
    obtain ⟨rfl, rfl⟩ : c = '}' ∧ depth = 0 := by
      simp only [Bit.depth?] at hnone
      split_ifs at hnone <;> simp_all
    rw [closeBlock_closing] at h
    cases h
  rw [closeBlock_brace hcomment hquote hstep] at h
  exact ⟨⟨hcomment, hquote⟩, depth', hstep, (List.cons.inj h).2⟩

/-- Documentation in a block ends before the brace that closes the block. -/
private theorem exists_region_of_closeBlock {c : Char} {s rest tail : Text} {depth : Nat}
    (h : closeBlock 0 depth (c :: (s ++ '}' :: rest)) = c :: s)
    (hdoc : docRest? (c :: (s ++ '}' :: rest)) = some tail) :
    ∃ t u, s = t ++ u ∧ tail = u ++ '}' :: rest ∧ closeBlock 0 depth (u ++ '}' :: rest) = u := by
  obtain ⟨t, ht⟩ := docRest?_suffix hdoc
  have hcopied : closeBlock 0 depth (c :: t ++ tail) = c :: t ++ closeBlock 0 depth tail := by
    refine closeBlock_documentation (List.cons_ne_nil c t) ?_ depth
    rwa [List.cons_append, ht]
  rw [← ht, ← List.cons_append, hcopied, List.cons_append] at h
  have hs : s = t ++ closeBlock 0 depth tail := (List.cons.inj h).2.symm
  have htail : tail = closeBlock 0 depth tail ++ '}' :: rest := by
    refine (List.append_right_inj t).1 ?_
    rw [ht, ← List.append_assoc, ← hs]
  exact ⟨t, closeBlock 0 depth tail, hs, htail, congrArg _ htail.symm⟩

/-- An interior that a brace closes is written in closed bits. -/
theorem exists_bits_of_closeBlock {s rest : Text} {depth : Nat}
    (h : closeBlock 0 depth (s ++ '}' :: rest) = s) (hdescriptions : DescriptionsClosed s) :
    ∃ bits, written bits = s ∧ AreClosedBefore ('}' :: rest) bits ∧ (∀ c, .blank c ∉ bits) ∧
      depthAfter? depth bits = some 0 := by
  -- on the length, since a region of documentation takes out more than one character
  induction hlen : s.length using Nat.strong_induction_on generalizing s depth with
  | h n ih =>
  subst hlen
  cases s with
  | nil =>
    obtain rfl : depth = 0 := by
      by_contra hne
      have hbrace := closeBlock_brace (by decide) (by decide)
        (show Bit.depth? depth (.solid '}') = some (depth - 1) by simp [Bit.depth?, hne]) rest
      rw [List.nil_append, hbrace] at h
      cases h
    exact ⟨[], rfl, trivial, by simp, rfl⟩
  | cons c s =>
    rw [List.cons_append] at h
    cases hdoc : docRest? (c :: (s ++ '}' :: rest)) with
    | none =>
      obtain ⟨hclosed, depth', hstep, hrest⟩ := exists_depth_of_closeBlock h hdoc
      have hnone : documentation none (c :: s) = none :=
        congrArg (Option.map _) (docRest?_eq_none hclosed.1 hclosed.2 s)
      obtain ⟨bits, rfl, hbits, hblanks, hdepth⟩ := ih s.length (by simp) hrest
        (hdescriptions.behind (pieces_cons_of_none isForward_documentation hnone)) rfl
      refine ⟨.solid c :: bits, rfl, ⟨hclosed, hbits⟩, by simp [hblanks], ?_⟩
      rw [depthAfter?, List.foldlM_cons, hstep]
      exact hdepth
    | some tail =>
      obtain ⟨t, u, rfl, rfl, hrest⟩ := exists_region_of_closeBlock h hdoc
      obtain ⟨b, htext, hclosed, hregion⟩ := exists_bit_of_docRest? (show '}' ≠ '\n' by decide)
        (by simpa using hdoc) hdescriptions
      have htakes : documentation.Takes (c :: t) u () := by
        refine ⟨List.cons_ne_nil c t, ?_⟩
        rw [← htext, documentation, docRest?_append hclosed.of_append hregion]
        rfl
      obtain ⟨bits, rfl, hbits, hblanks, hdepth⟩ := ih u.length
        (by rw [List.length_cons, List.length_append]; omega) hrest
        (hdescriptions.behind (pieces_append_of_takes isForward_documentation htakes)) rfl
      refine ⟨b :: bits, by rw [written_cons, htext]; rfl, ⟨hclosed, hbits⟩, fun c hmem => ?_, ?_⟩
      · rcases List.mem_cons.1 hmem with rfl | hmem
        · simp [Bit.isComment, Bit.isQuoted, Bit.isBlock] at hregion
        · exact hblanks c hmem
      · rw [depthAfter?, List.foldlM_cons, Bit.depth?_of_region hregion]
        exact hdepth

/-! ## Trimming bits -/

/-- A bit with more than white space in it can be trimmed, and the end of a line closes it. -/
private theorem Bit.exists_trimEnd {b : Bit} {after : Text} (h : b.IsClosed after)
    (hb : ∀ c, b ≠ .blank c) (hne : trimEnd b.text ≠ []) :
    ∃ b' : Bit, b'.text = trimEnd b.text ∧ (∀ t, b'.IsClosed ('\n' :: t)) ∧
      (∀ depth, b'.depth? depth = b.depth? depth) ∧ ∀ c, b' ≠ .blank c := by
  have hsame (hlast : trimEnd b.text = b.text) (hclosed : ∀ t, b.IsClosed ('\n' :: t)) :
      ∃ b' : Bit, b'.text = trimEnd b.text ∧ (∀ t, b'.IsClosed ('\n' :: t)) ∧
        (∀ depth, b'.depth? depth = b.depth? depth) ∧ ∀ c, b' ≠ .blank c :=
    ⟨b, hlast.symm, hclosed, fun _ => rfl, hb⟩
  cases b with
  | solid c =>
    have hc : isBlank c = false := by simpa [Bit.text, trimEnd_eq_nil_iff] using hne
    exact hsame (trimEnd_eq_self rfl hc) fun _ => h
  | blank c => exact absurd rfl (hb c)
  | comma => exact hsame (by decide) fun _ => trivial
  | comment t =>
    -- the line ends right behind what is left of the comment
    refine ⟨.comment (trimEnd t), ?_, fun _ => ⟨?_, by simp⟩, fun _ => rfl, by simp⟩
    · exact (trimEnd_append_of_trimmed (a := ['#']) (by decide) t).symm
    · exact fun hmem => h.1 ((trimEnd_isPrefix t).subset hmem)
  | quoted t =>
    refine hsame (trimEnd_eq_self (c := '"') ?_ (by decide)) fun _ => ⟨h.1, by simp⟩
    exact List.getLast?_append_of_ne_nil ('"' :: t) (List.cons_ne_nil _ _)
  | block t =>
    refine hsame (trimEnd_eq_self (c := '"') ?_ (by decide)) fun _ => h
    exact List.getLast?_append_of_ne_nil (blockQuotes ++ t) (List.cons_ne_nil _ _)

/-- White space on its own does not move the depth. -/
private theorem Bit.depth?_of_trimEnd {b : Bit} (h : trimEnd b.text = []) (depth : Nat) :
    b.depth? depth = some depth := by
  cases b with
  | solid c =>
    have hc : isBlank c := by simpa [Bit.text, trimEnd_eq_nil_iff] using h
    obtain ⟨hopen, hclose, -⟩ := isBlank_brace hc
    simp [Bit.depth?, hopen, hclose]
  | blank | comma | comment | quoted | block => rfl

/-- Closed bits can be trimmed, and the end of a line closes them. -/
theorem exists_trimEnd_written {bits : List Bit} {after : Text} (h : AreClosedBefore after bits)
    (hblanks : ∀ c, .blank c ∉ bits) (depth : Nat) :
    ∃ trimmed, written trimmed = trimEnd (written bits) ∧ (∀ t, AreClosedBefore ('\n' :: t) trimmed) ∧
      (∀ c, .blank c ∉ trimmed) ∧ depthAfter? depth trimmed = depthAfter? depth bits := by
  induction bits using List.reverseRecOn generalizing after with
  | nil => exact ⟨[], rfl, fun _ => trivial, by simp, rfl⟩
  | append_singleton bits b ih =>
    obtain ⟨hbits, hb, -⟩ := areClosedBefore_append.1 h
    have hblanks' : ∀ c, .blank c ∉ bits := fun c hmem => hblanks c (List.mem_append_left _ hmem)
    have hsingle : written [b] = b.text := List.append_nil _
    by_cases hne : trimEnd b.text = []
    · obtain ⟨trimmed, htext, hclosed, hnone, hdepth⟩ := ih hbits hblanks'
      have hlast (depth : Nat) : depthAfter? depth [b] = some depth :=
        congrArg (·.bind some) (Bit.depth?_of_trimEnd hne depth)
      refine ⟨trimmed, ?_, hclosed, hnone, ?_⟩
      · rw [htext, written_append, hsingle, trimEnd_append_of_blank (trimEnd_eq_nil_iff.1 hne)]
      · simp [hdepth, depthAfter?_append, hlast]
    · have hkind : ∀ c, b ≠ .blank c := fun c heq => hblanks c (by simp [heq])
      obtain ⟨b', htext, hclosed, hdepth, hnone⟩ := Bit.exists_trimEnd hb hkind hne
      have hhead (t : Text) : (written [b] ++ after).head? = (written [b'] ++ '\n' :: t).head? := by
        have hb' : written [b'] = trimEnd b.text := by rw [← htext]; exact List.append_nil _
        rw [hsingle, hb', List.head?_append_of_ne_nil _ b.text_ne_nil,
          List.head?_append_of_ne_nil _ hne, head?_trimEnd hne]
      refine ⟨bits ++ [b'], ?_, fun t => ?_, ?_, ?_⟩
      · rw [written_append, written_append, hsingle, trimEnd_append_of_ne_nil hne, ← htext]
        exact congrArg _ (List.append_nil _)
      · exact areClosedBefore_append.2 ⟨hbits.congr (hhead t), hclosed t, trivial⟩
      · intro c hmem
        rcases List.mem_append.1 hmem with hmem | hmem
        · exact hblanks' c hmem
        · exact hnone c (List.mem_singleton.1 hmem).symm
      · simp only [depthAfter?_append]
        congr 1
        funext depth
        exact congrArg (·.bind some) (hdepth depth)

/-- A bit that begins with white space is no longer than that. -/
private theorem Bit.text_of_isBlank {b : Bit} {c : Char} {t : Text} (htext : b.text = c :: t)
    (hc : isBlank c) : b.text = [c] := by
  obtain ⟨-, -, hcomment, hquote⟩ := isBlank_brace hc
  cases b with
  | solid | blank => rw [htext, (List.cons.inj htext).2]
  | comma => rw [htext, ← (List.cons.inj htext).2]
  | comment => exact absurd (List.cons.inj htext).1.symm hcomment
  | quoted | block => exact absurd (List.cons.inj htext).1.symm hquote

/-- White space in front of bits is bits of its own. -/
theorem exists_dropWhile_written {p : Char → Bool} (hp : ∀ c, p c → isBlank c) (bits : List Bit)
    (depth : Nat) :
    ∃ left, left <:+ bits ∧ written left = (written bits).dropWhile p ∧
      depthAfter? depth left = depthAfter? depth bits := by
  induction bits with
  | nil => exact ⟨[], List.suffix_rfl, rfl, rfl⟩
  | cons b bits ih =>
    obtain ⟨c, t, htext⟩ := List.exists_cons_of_ne_nil b.text_ne_nil
    by_cases hc : p c
    · have hsingle := Bit.text_of_isBlank htext (hp c hc)
      have hdepth : b.depth? depth = some depth :=
        Bit.depth?_of_trimEnd (by simpa [hsingle, trimEnd_eq_nil_iff] using hp c hc) depth
      obtain ⟨left, hsuffix, hleft, hbits⟩ := ih
      refine ⟨left, hsuffix.trans (List.suffix_cons b bits), ?_, ?_⟩
      · rw [hleft, written_cons, hsingle, List.singleton_append, List.dropWhile_cons_of_pos hc]
      · rw [hbits, depthAfter?, depthAfter?, List.foldlM_cons, hdepth]
        rfl
    · refine ⟨b :: bits, List.suffix_rfl, ?_, rfl⟩
      rw [written_cons, htext, List.cons_append, List.dropWhile_cons_of_neg hc]

/-! ## Interiors on lines of their own -/

/-- Whether a block goes on behind a text as it did in front of it: nothing in the text stays open. -/
def IsSealed (s : Text) : Prop := ∀ t, closeBlock 0 0 (s ++ t) = s ++ closeBlock 0 0 t

/-- Sealed texts one behind the other are sealed. -/
theorem IsSealed.append {s t : Text} (hs : IsSealed s) (ht : IsSealed t) : IsSealed (s ++ t) := by
  intro rest
  rw [List.append_assoc, hs, ht, List.append_assoc]

/-- A row of sealed texts is sealed. -/
theorem isSealed_flatMap {α : Type} {f : α → Text} {items : List α} (h : ∀ a ∈ items, IsSealed (f a)) :
    IsSealed (items.flatMap f) := by
  induction items with
  | nil => exact fun _ => rfl
  | cons a items ih =>
    obtain ⟨ha, hitems⟩ := List.forall_mem_cons.1 h
    exact ha.append (ih hitems)

theorem isSealed_newline : IsSealed ['\n'] :=
  closeBlock_brace (by decide) (by decide) (by decide)

/-- A sealed text is the interior of any block. -/
theorem IsSealed.closeBlock_eq {s : Text} (h : IsSealed s) (rest : Text) :
    closeBlock 0 0 (s ++ '}' :: rest) = s := by
  rw [h, closeBlock_closing, List.append_nil]

/-- An interior can be trimmed and set on lines of its own: whatever it ends with ends there. -/
theorem isSealed_trimmed {s rest : Text} (h : closeBlock 0 0 (s ++ '}' :: rest) = s)
    (hdescriptions : DescriptionsClosed s) {p : Char → Bool} (hp : ∀ c, p c → isBlank c) :
    IsSealed (trimEnd (s.dropWhile p) ++ ['\n']) := by
  obtain ⟨bits, rfl, hclosed, hblanks, hdepth⟩ := exists_bits_of_closeBlock h hdescriptions
  obtain ⟨left, ⟨front, rfl⟩, hleft, hdepth'⟩ := exists_dropWhile_written hp bits 0
  obtain ⟨trimmed, htrimmed, hlines, hblanks', hdepth''⟩ :=
    exists_trimEnd_written (areClosedBefore_append.1 hclosed).2
      (fun c hmem => hblanks c (List.mem_append_right front hmem)) 0
  intro t
  have hwalk := closeBlock_written_append (hlines t) (fun c hmem => absurd hmem (hblanks' c))
    (hdepth''.trans (hdepth'.trans hdepth))
  rw [← hleft, ← htrimmed, List.append_assoc, List.append_assoc, ← isSealed_newline t]
  exact hwalk

end Scaffold.Schema
