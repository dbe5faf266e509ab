import Mathlib.Data.List.Basic
import Mathlib.Data.List.Chain
import Mathlib.Data.List.Induction
import Mathlib.Tactic.Common

/-!
# Changes of a value

What is reported of a sequence of values when only changes are, and some values always.
-/

namespace Changes

variable {α : Type} [DecidableEq α] {always : α → Bool} {old : α} {as : List α}

/-- The value `a` after `old`. -/
def change (always : α → Bool) (old a : α) : List α :=
  if a ≠ old ∨ always a = true then [a] else []

def reported (always : α → Bool) : α → List α → List α
  | _, [] => []
  | old, a :: as => change always old a ++ reported always a as

/-- The last of some values that begin with `old`. -/
def last (old : α) (as : List α) : α := as.getLast?.getD old

omit [DecidableEq α] in
@[simp]
theorem last_snoc (old : α) (as : List α) (a : α) : last old (as ++ [a]) = a := by
  simp [last]

omit [DecidableEq α] in
theorem last_cons (old a : α) (as : List α) : last old (a :: as) = last a as := by
  rw [last, last, List.getLast?_cons, Option.getD_some]

theorem reported_snoc (always : α → Bool) (old : α) (as : List α) (a : α) :
    reported always old (as ++ [a]) =
      reported always old as ++ change always (last old as) a := by
  induction as generalizing old with
  | nil => exact List.append_nil _
  | cons b as ih =>
      rw [List.cons_append, reported, reported, ih, last_cons, List.append_assoc]

omit [DecidableEq α] in
theorem last_append (old : α) (as bs : List α) : last old (as ++ bs) = last (last old as) bs := by
  induction as generalizing old with
  | nil => rfl
  | cons a as ih => rw [List.cons_append, last_cons, last_cons, ih]

/-- What is reported of one sequence after another. -/
theorem reported_append (always : α → Bool) (old : α) (as bs : List α) :
    reported always old (as ++ bs) =
      reported always old as ++ reported always (last old as) bs := by
  induction as generalizing old with
  | nil => rfl
  | cons a as ih =>
      rw [List.cons_append, reported, reported, ih, last_cons, List.append_assoc]

/-- Who hears of the changes knows the last value. -/
theorem last_reported : last old (reported always old as) = last old as := by
  induction as using List.reverseRecOn with
  | nil => rfl
  | append_singleton as a ih =>
      rw [reported_snoc, last_snoc, change]
      split
      · exact last_snoc old _ a
      · rename_i hsame
        have heq : a = last old as := by
          by_contra hne
          exact hsame (.inl hne)
        rw [List.append_nil, ih, heq]

/-- A value is reported twice in a row only if it always is. -/
theorem isChain_reported :
    (reported always old as).IsChain fun a b => a = b → always a = true := by
  induction as using List.reverseRecOn with
  | nil => exact .nil
  | append_singleton as a ih =>
      rw [reported_snoc, change]
      split
      · rename_i hchange
        apply ih.append (.singleton a)
        intro b hb c hc heq
        obtain rfl : a = c := by simpa using hc
        have hlast : b = last old as := by
          have hreported := @last_reported _ _ always old as
          rw [← hreported, last, Option.mem_def.mp hb, Option.getD_some]
        rcases hchange with hne | halways
        · exact absurd (heq.symm.trans hlast) hne
        · rw [heq]
          exact halways
      · rw [List.append_nil]
        exact ih

/-- Values other than the first one are not missed. -/
theorem getLast?_reported (hne : ∀ a ∈ as, a ≠ old) :
    (reported always old as).getLast? = as.getLast? := by
  cases has : as.getLast? with
  | none =>
      rw [List.getLast?_eq_none_iff.mp has]
      rfl
  | some a =>
      have hlast : last old (reported always old as) = a := by
        rw [last_reported, last, has, Option.getD_some]
      cases hreported : (reported always old as).getLast? with
      | none =>
          rw [last, hreported, Option.getD_none] at hlast
          exact absurd hlast.symm (hne a (List.mem_of_getLast? has))
      | some b =>
          rw [last, hreported, Option.getD_some] at hlast
          rw [hlast]

end Changes
