import Scaffold.Proofs.Schema.Interior
import Scaffold.Schema.FlatText

/-!
# Flat text in one pass

Flattening goes over the text four times. One pass does the same (`flatten_eq_tighten`): it remembers
the last character that was kept and whether white space stands behind it, and a separator is left for
white space that is not beside a mark (`isSnug`).
-/

namespace Scaffold.Schema

open Text

/-- Whether white space between two characters leaves no separator: one of them is a mark or a bracket
that it belongs to, or a separator stands there already. -/
def isSnug (before after : Option Char) : Bool :=
  before.any (fun c => isMark c || c = '[' || c = separator) ||
    after.any fun c => isMark c || c = '!' || c = ']'

/-- Flat text in one pass. The last character that was kept is `before`, and `gap` says whether white
space was met since. -/
def tighten : (before : Option Char) → (gap : Bool) → Text → Text
  | before, gap, [] => if gap && !isSnug before none then [separator] else []
  | before, gap, c :: s =>
    if isBlank c then tighten before true s
    else (if gap && !isSnug before (some c) then [separator] else []) ++ c :: tighten (some c) false s

/-! ## Comments leave no separators behind -/

/-- Outside comments there are no separators: a separator opens a comment. -/
private theorem loose_ne_separator (skip : Nat) (before : Option Char) (s : Text) :
    ∀ c, .loose c ∈ piecesFrom lineComment skip before s → c ≠ separator := by
  fun_induction piecesFrom lineComment skip before s with
  | case1 => simp
  | case2 skip before c s ih => exact ih
  | case3 before c s value rest hfound ih =>
    intro d hd
    exact ih d (by simpa using hd)
  | case4 before c s hnone ih =>
    intro d hd
    rcases List.mem_cons.1 hd with heq | hd
    · obtain rfl := Piece.loose.inj heq
      rintro rfl
      simp [lineComment, separator] at hnone
    · exact ih d hd

/-- Without comments there is no character that could be taken for a separator. -/
theorem separator_notMem_stripDocs (s : Text) : separator ∉ stripDocs s := by
  intro h
  obtain ⟨piece, hpiece, hmem⟩ := List.mem_flatMap.1 h
  cases piece with
  | loose c =>
    obtain rfl := List.mem_singleton.1 hmem
    exact loose_ne_separator 0 none _ _ hpiece rfl
  | found value taken => simp at hmem

/-! ## The passes together -/

/-- The marks before which no separator stands. -/
private def closesMark (c : Char) : Bool := isMark c || c = '!'

/-- Both passes over a text whose white space is collapsed. -/
private def drop (openedMark openedBracket : Bool) (s : Text) : Text :=
  dropSeparators (· = '[') (· = ']') openedBracket
    (dropSeparators isMark closesMark openedMark s)

/-- A character that is not a separator is kept. -/
private theorem drop_cons {c : Char} (hc : c ≠ separator) (openedMark openedBracket : Bool)
    (s : Text) : drop openedMark openedBracket (c :: s) = c :: drop (isMark c) (c = '[') s := by
  simp [drop, dropSeparators, hc]

/-- A separator is dropped if a neighbour makes it superfluous. -/
private theorem drop_separator {c : Char} (hc : c ≠ separator) (openedMark openedBracket : Bool)
    (s : Text) :
    drop openedMark openedBracket (separator :: c :: s) =
      (if openedMark || openedBracket || closesMark c || c = ']' then [] else [separator]) ++
        c :: drop (isMark c) (c = '[') s := by
  cases openedMark <;> cases openedBracket <;> by_cases hmark : closesMark c <;>
    by_cases hbracket : c = ']' <;>
    simp_all [drop, dropSeparators, separator]

private theorem drop_separator_nil (openedMark openedBracket : Bool) :
    drop openedMark openedBracket [separator] =
      if openedMark || openedBracket then [] else [separator] := by
  cases openedMark <;> cases openedBracket <;> simp [drop, dropSeparators]

/-- What both passes look at is what the one pass looks at. -/
private theorem isSnug_eq {before : Option Char} (h : before ≠ some separator)
    (after : Option Char) :
    isSnug before after =
      (before.any isMark || before.any (· = '[') || after.any closesMark || after.any (· = ']')) := by
  have hbefore : before.any (fun c => isMark c || c = '[' || c = separator) =
      (before.any isMark || before.any (· = '[')) := by
    cases before with
    | none => rfl
    | some b =>
      have hb : b ≠ separator := fun heq => h (congrArg some heq)
      simp [hb]
  unfold isSnug
  rw [hbefore]
  cases after with
  | none => simp
  | some c => simp [closesMark, Bool.or_assoc]

/-- The state of both passes behind a character is what the one pass remembers of it. -/
private theorem drop_collapse {s : Text} (hs : separator ∉ s) {before : Option Char}
    (hbefore : before ≠ some separator) :
    drop (before.any isMark) (before.any (· = '[')) (collapse false s) = tighten before false s ∧
      drop (before.any isMark) (before.any (· = '[')) (separator :: collapse true s) =
        tighten before true s := by
  induction s generalizing before with
  | nil =>
    refine ⟨rfl, ?_⟩
    rw [collapse, drop_separator_nil, tighten, isSnug_eq hbefore]
    cases before.any isMark <;> cases before.any (· = '[') <;> rfl
  | cons c s ih =>
    have hc : c ≠ separator := fun h => hs (h ▸ List.mem_cons_self)
    have hs' : separator ∉ s := fun h => hs (List.mem_cons_of_mem c h)
    by_cases hblank : isBlank c
    · -- white space: one separator, whether or not there was white space before
      obtain ⟨-, hgap⟩ := ih hs' hbefore
      simp only [collapse, tighten, hblank, if_true, Bool.false_eq_true, if_false]
      exact ⟨hgap, hgap⟩
    · have hnext : some c ≠ some separator := fun h => hc (Option.some.inj h)
      obtain ⟨hsolid, -⟩ := ih hs' hnext
      simp only [Option.any_some] at hsolid
      simp only [collapse, tighten, hblank, if_false, Bool.false_and, List.nil_append,
        Bool.false_eq_true, drop_cons hc, drop_separator hc, Bool.true_and, hsolid,
        isSnug_eq hbefore, Option.any_some]
      refine ⟨trivial, congrArg (· ++ _) ?_⟩
      cases before.any isMark || before.any (· = '[') || closesMark c || decide (c = ']') <;> rfl

/-- Flattening is one pass over the text without documentation and commas. -/
theorem flatten_eq_tighten (interior : Text) :
    flatten interior = tighten none false ((stripDocs interior).filter (· ≠ ',')) := by
  have hs : separator ∉ (stripDocs interior).filter (· ≠ ',') := fun h =>
    separator_notMem_stripDocs interior (List.mem_filter.1 h).1
  exact (drop_collapse hs (Option.some_ne_none separator).symm).1

end Scaffold.Schema
