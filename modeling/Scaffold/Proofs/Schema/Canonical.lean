import Mathlib.Data.List.Chain
import Scaffold.Proofs.Schema.FlatText

/-!
# Canonical text

Flat text has one form for each way to part its tokens: no white space, no comma, and a separator only
where it parts two characters neither of which makes it superfluous (`IsCanonical`). Whatever an interior
looks like, its flat text has this form, and but for separators it is what stripping leaves of the
interior, without white space and commas (`isCanonical_flatten`).

In the pass that flattens (`tighten`) each separator is put between the character that was kept last and
the one that is kept next, so that both are looked at when it is put there.
-/

namespace Scaffold.Schema

open Text

/-- Text in which each separator is needed. -/
structure IsCanonical (t : Text) : Prop where
  solid : ∀ c ∈ t, isBlank c = false ∧ c ≠ ','
  /-- What makes a separator behind it superfluous. -/
  behind : ∀ c ∈ [separator, '(', ')', ':', '['], ¬[c, separator] <:+: t
  /-- What makes a separator in front of it superfluous. -/
  before : ∀ c ∈ [separator, '(', ')', ':', '!', ']'], ¬[separator, c] <:+: t

/-- Whether two characters may stand side by side: one that is a separator is not superfluous. -/
def Adjoins (c d : Char) : Prop :=
  (d = separator → isSnug (some c) none = false) ∧
    (c = separator → d ≠ separator ∧ isSnug none (some d) = false)

/-- A gap is snug for what is before it or for what is after it. -/
theorem isSnug_eq_or (before after : Option Char) :
    isSnug before after = (isSnug before none || isSnug none after) := by
  simp [isSnug]

/-- Characters that are not separators may stand side by side. -/
theorem adjoins_of_ne {c d : Char} (hc : c ≠ separator) (hd : d ≠ separator) : Adjoins c d :=
  ⟨fun h => absurd h hd, fun h => absurd h hc⟩

/-- A separator that is put after a character may stand there. -/
theorem adjoins_separator {c : Char} {after : Option Char} (hc : c ≠ separator)
    (h : isSnug (some c) after = false) : Adjoins c separator := by
  rw [isSnug_eq_or, Bool.or_eq_false_iff] at h
  exact ⟨fun _ => h.1, fun heq => absurd heq hc⟩

/-- A separator is kept in front of a character that needs it. -/
theorem separator_adjoins {before : Option Char} {d : Char} (hd : d ≠ separator)
    (h : isSnug before (some d) = false) : Adjoins separator d := by
  rw [isSnug_eq_or, Bool.or_eq_false_iff] at h
  exact ⟨fun heq => absurd heq hd, fun _ => ⟨hd, h.2⟩⟩

/-- The separator that flattening leaves for a gap, if it leaves one. -/
private def gapText (before : Option Char) (gap : Bool) (after : Option Char) : Text :=
  if gap && !isSnug before after then [separator] else []

private theorem tighten_nil (before : Option Char) (gap : Bool) :
    tighten before gap [] = gapText before gap none := rfl

private theorem tighten_cons (before : Option Char) (gap : Bool) (c : Char) (s : Text) :
    tighten before gap (c :: s) = if isBlank c then tighten before true s
      else gapText before gap (some c) ++ c :: tighten (some c) false s := rfl

private theorem gapText_cases (before : Option Char) (gap : Bool) (after : Option Char) :
    gapText before gap after = [] ∨
      gapText before gap after = [separator] ∧ isSnug before after = false := by
  unfold gapText
  split
  · next h =>
    obtain ⟨-, hsnug⟩ := Bool.and_eq_true_iff.1 h
    exact .inr ⟨rfl, by simpa using hsnug⟩
  · exact .inl rfl

/-- Whatever is kept last, and whether or not there was a gap since, side by side stand only characters
that may. -/
theorem isChain_tighten {s : Text} (hs : separator ∉ s) {before : Option Char}
    (hbefore : before ≠ some separator) (gap : Bool) :
    (before.toList ++ tighten before gap s).IsChain Adjoins := by
  induction s generalizing before gap with
  | nil =>
    rw [tighten_nil]
    cases before with
    | none => rcases gapText_cases none gap none with h | ⟨h, -⟩ <;> rw [h] <;> simp
    | some b =>
      have hb : b ≠ separator := fun heq => hbefore (congrArg some heq)
      rcases gapText_cases (some b) gap none with h | ⟨h, hsnug⟩
      · rw [h]
        simp
      · rw [h]
        exact List.isChain_pair.2 (adjoins_separator hb hsnug)
  | cons c s ih =>
    have hc : c ≠ separator := fun heq => hs (heq ▸ List.mem_cons_self)
    have hs' : separator ∉ s := fun hmem => hs (List.mem_cons_of_mem c hmem)
    rw [tighten_cons]
    split
    · exact ih hs' hbefore true
    · have hrest : (c :: tighten (some c) false s).IsChain Adjoins :=
        ih hs' (fun heq => hc (Option.some.inj heq)) false
      -- in front of the character stands what was kept last, with or without a separator between them
      rcases gapText_cases before gap (some c) with h | ⟨h, hsnug⟩
      · rw [h, List.nil_append]
        cases before with
        | none => exact hrest
        | some b =>
          have hb : b ≠ separator := fun heq => hbefore (congrArg some heq)
          exact List.isChain_cons_cons.2 ⟨adjoins_of_ne hb hc, hrest⟩
      · rw [h, List.singleton_append]
        have hgap : (separator :: c :: tighten (some c) false s).IsChain Adjoins :=
          List.isChain_cons_cons.2 ⟨separator_adjoins hc hsnug, hrest⟩
        cases before with
        | none => exact hgap
        | some b =>
          have hb : b ≠ separator := fun heq => hbefore (congrArg some heq)
          exact List.isChain_cons_cons.2 ⟨adjoins_separator hb hsnug, hgap⟩

/-- Without its separators, flat text is the text without white space. -/
theorem filter_tighten {s : Text} (hs : separator ∉ s) (before : Option Char) (gap : Bool) :
    (tighten before gap s).filter (· ≠ separator) = s.filter (!isBlank ·) := by
  have hgap (before after : Option Char) (gap : Bool) :
      (gapText before gap after).filter (· ≠ separator) = [] := by
    rcases gapText_cases before gap after with h | ⟨h, -⟩ <;> rw [h] <;> rfl
  induction s generalizing before gap with
  | nil => exact hgap before none gap
  | cons c s ih =>
    have hc : c ≠ separator := fun heq => hs (heq ▸ List.mem_cons_self)
    have hs' : separator ∉ s := fun hmem => hs (List.mem_cons_of_mem c hmem)
    rw [tighten_cons]
    split
    · next hblank => rw [ih hs', List.filter_cons_of_neg (by simp [hblank])]
    · next hblank =>
      rw [List.filter_append, hgap, List.nil_append, List.filter_cons_of_pos (by simpa using hc), ih hs',
        List.filter_cons_of_pos (by simpa using hblank)]

/-- The flat text of any interior is canonical, and but for its separators it is what is left of the
interior without documentation, white space and commas. -/
theorem isCanonical_flatten (interior : Text) :
    IsCanonical (flatten interior) ∧
      (flatten interior).filter (· ≠ separator) =
        (stripDocs interior).filter fun c => !isBlank c && c ≠ ',' := by
  have hplain : separator ∉ (stripDocs interior).filter (· ≠ ',') := fun hmem =>
    separator_notMem_stripDocs interior (List.mem_filter.1 hmem).1
  have hchain := isChain_tighten hplain (Option.some_ne_none separator).symm false
  have hfilter := filter_tighten hplain none false
  rw [← flatten_eq_tighten] at hchain hfilter
  rw [List.filter_filter] at hfilter
  -- two characters side by side are two neighbours of the chain
  have hadjoins {c d : Char} (h : [c, d] <:+: flatten interior) : Adjoins c d :=
    List.isChain_pair.1 <| List.IsChain.infix hchain h
  refine ⟨⟨?_, ?_, ?_⟩, hfilter⟩
  · intro c hc
    by_cases hseparator : c = separator
    · rw [hseparator]
      decide
    · have hmem : c ∈ (flatten interior).filter (· ≠ separator) :=
        List.mem_filter.2 ⟨hc, by simpa using hseparator⟩
      rw [hfilter] at hmem
      simpa using (List.mem_filter.1 hmem).2
  · intro c hc hinfix
    have hsnug : ∀ c ∈ [separator, '(', ')', ':', '['], isSnug (some c) none = true := by
      decide
    have hneeded := (hadjoins hinfix).1 rfl
    rw [hsnug c hc] at hneeded
    cases hneeded
  · intro c hc hinfix
    have hsnug : ∀ c ∈ [separator, '(', ')', ':', '!', ']'],
        c = separator ∨ isSnug none (some c) = true := by
      decide
    obtain ⟨hne, hneeded⟩ := (hadjoins hinfix).2 rfl
    rw [(hsnug c hc).resolve_left hne] at hneeded
    cases hneeded

/-- Separators that two marks make superfluous go as well, and one that parts a mark and a bracket stays. -/
example : flatten "f ( ! [ , ] ) : b !".toList = "f(!#[]):b!".toList := by
  decide

end Scaffold.Schema
