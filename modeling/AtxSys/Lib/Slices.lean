import Mathlib.Data.List.Basic
import Mathlib.Tactic.Common

/-!
# Pieces of a list

What is left of a list behind an offset, the lists that stand inside it, and its pieces between
separators.
-/

namespace Slices

variable {α : Type} {l l' s s' rest : List α} {a : α} {i : Nat}

/-! ### What is left -/

theorem getElem?_of_left (hleft : l.drop i = a :: rest) : l[i]? = some a := by
  have hget := congrArg (·[0]?) hleft
  simpa using hget

theorem left_append (hleft : l.drop i = s ++ rest) : l.drop (i + s.length) = rest := by
  rw [← List.drop_drop, hleft, List.drop_left]

theorem left_cons (hleft : l.drop i = a :: rest) : l.drop (i + 1) = rest :=
  left_append (s := [a]) hleft

theorem length_of_left (hleft : l.drop i = a :: rest) : l.length = i + (rest.length + 1) := by
  have hlen := congrArg List.length hleft
  simp only [List.length_drop, List.length_cons] at hlen
  omega

theorem slice_cons {stop : Nat} (hget : l[i]? = some a) (hlt : i < stop) :
    (l.drop i).take (stop - i) = a :: (l.drop (i + 1)).take (stop - (i + 1)) := by
  obtain ⟨hi, rfl⟩ := List.getElem?_eq_some_iff.mp hget
  rw [List.drop_eq_getElem_cons hi]
  have hsucc : stop - i = (stop - (i + 1)) + 1 := by omega
  rw [hsucc, List.take_succ_cons]

theorem take_offset_append {n m k : Nat} (hk : k ≤ ((l.drop n).take m).length) :
    l.take n ++ ((l.drop n).take m).take k = l.take (n + k) := by
  have hkm : k ≤ m := Nat.le_trans hk (List.length_take_le m (l.drop n))
  rw [List.take_take, Nat.min_eq_left hkm, List.take_add]

theorem modify_append_cons {α : Type} (l : List α) (a : α) (l' : List α) (f : α → α) :
    (l ++ a :: l').modify l.length f = l ++ f a :: l' := by
  induction l with
  | nil => rfl
  | cons b l ih => simp [ih]

/-! ### Writing over a list -/

theorem prefix_overwrite (hfront : s <+: l) (s' rest : List α) :
    s ++ s' <+: l.take s.length ++ (s' ++ rest) := by
  rw [← List.prefix_iff_eq_take.mp hfront, ← List.append_assoc]
  exact List.prefix_append _ rest

theorem length_overwrite (hle : i + s.length ≤ l.length) :
    (l.take i ++ (s ++ l.drop (i + s.length))).length = l.length := by
  simp only [List.length_append, List.length_take, List.length_drop]
  omega

/-- What stands in front of an element that only the middle of a list has. -/
theorem split_middle {pre middle post before later : List α}
    (h : pre ++ (middle ++ post) = before ++ a :: later) (hpre : a ∉ pre) (hpost : a ∉ post) :
    ∃ piece, before = pre ++ piece ∧ ∀ b ∈ piece, b ∈ middle := by
  rcases List.append_eq_append_iff.mp h with ⟨piece, hbefore, hrest⟩ | ⟨piece, hpiece, hrest⟩
  · refine ⟨piece, hbefore, fun b hb => ?_⟩
    rcases List.append_eq_append_iff.mp hrest with ⟨rest, -, hafter⟩ | ⟨rest, hmiddle, -⟩
    · exact absurd (by rw [hafter]; simp) hpost
    · rw [hmiddle]
      exact List.mem_append_left rest hb
  · cases piece with
    | nil =>
        refine ⟨[], ?_, by simp⟩
        rw [hpiece, List.append_nil, List.append_nil]
    | cons b piece =>
        have hhead : a = b := (List.cons.inj hrest).1
        exact absurd (by rw [hpiece, hhead]; simp) hpre

/-! ### Lists inside lists -/

/-- `s` stands in `l` at `i`. -/
def At (l : List α) (i : Nat) (s : List α) : Prop := s <+: l.drop i

theorem at_append_iff : At l i (s ++ s') ↔ At l i s ∧ At l (i + s.length) s' := by
  unfold At
  rw [← List.drop_drop]
  constructor
  · rintro ⟨rest, hrest⟩
    rw [← hrest, List.append_assoc]
    refine ⟨List.prefix_append s (s' ++ rest), ?_⟩
    rw [List.drop_left]
    exact List.prefix_append s' rest
  · rintro ⟨⟨rest, hrest⟩, hs'⟩
    rw [← hrest, List.drop_left] at hs'
    rw [← hrest]
    exact (List.prefix_append_right_inj s).mpr hs'

theorem at_cons_iff : At l i (a :: s) ↔ l[i]? = some a ∧ At l (i + 1) s := by
  have happend : At l i (a :: s) ↔ At l i [a] ∧ At l (i + 1) s := at_append_iff (s := [a])
  rw [happend]
  refine and_congr ?_ Iff.rfl
  unfold At
  constructor
  · rintro ⟨rest, hrest⟩
    have hget := congrArg (·[0]?) hrest
    simpa using hget.symm
  · intro hget
    obtain ⟨hi, rfl⟩ := List.getElem?_eq_some_iff.mp hget
    rw [List.drop_eq_getElem_cons hi]
    exact List.prefix_append [l[i]] _

theorem At.length_le (h : At l i s) (hs : s ≠ []) : i + s.length ≤ l.length := by
  have hle := List.IsPrefix.length_le h
  have hpos := List.length_pos_iff.mpr hs
  rw [List.length_drop] at hle
  omega

theorem At.take (h : At l i s) : (l.drop i).take s.length = s :=
  (List.prefix_iff_eq_take.mp h).symm

theorem At.of_same (h : At l i s)
    (hsame : ∀ j a, i ≤ j → j < i + s.length → l[j]? = some a → l'[j]? = some a) : At l' i s := by
  induction s generalizing i with
  | nil => exact List.nil_prefix
  | cons a s ih =>
      rw [at_cons_iff] at h ⊢
      have hlen : i + (a :: s).length = i + 1 + s.length := by
        rw [List.length_cons]
        omega
      refine ⟨hsame i a (Nat.le_refl i) (by omega) h.1, ih h.2 ?_⟩
      intro j b hij hj hb
      exact hsame j b (by omega) (by omega) hb

/-! ### Up to a separator -/

section Up

variable [DecidableEq α]

theorem prefix_takeWhile_iff :
    s <+: l.takeWhile (· ≠ a) ↔ s <+: l ∧ a ∉ s := by
  induction l generalizing s with
  | nil =>
      simp only [List.takeWhile_nil, List.prefix_nil]
      constructor
      · rintro rfl
        exact ⟨rfl, List.not_mem_nil⟩
      · exact And.left
  | cons b l ih =>
      cases s with
      | nil => simp
      | cons c s =>
          by_cases hb : b = a
          · subst hb
            simp only [List.takeWhile_cons, ne_eq, not_true_eq_false, decide_false,
              Bool.false_eq_true, if_false, List.prefix_nil, reduceCtorEq, false_iff]
            rintro ⟨hfront, hmem⟩
            exact hmem (by rw [(List.cons_prefix_cons.mp hfront).1]; exact List.mem_cons_self)
          · simp only [List.takeWhile_cons, ne_eq, hb, not_false_eq_true, decide_true, if_true,
              List.cons_prefix_cons, ih, List.mem_cons, not_or]
            constructor
            · rintro ⟨rfl, hfront, hmem⟩
              exact ⟨⟨rfl, hfront⟩, Ne.symm hb, hmem⟩
            · rintro ⟨⟨rfl, hfront⟩, -, hmem⟩
              exact ⟨rfl, hfront, hmem⟩

theorem takeWhile_append_cons (hs : a ∉ s) : (s ++ a :: l).takeWhile (· ≠ a) = s := by
  induction s with
  | nil => simp
  | cons b s ih =>
      simp only [List.mem_cons, not_or] at hs
      have hb : b ≠ a := Ne.symm hs.1
      rw [List.cons_append, List.takeWhile_cons, if_pos (by simpa using hb), ih hs.2]

theorem length_takeWhile (l : List α) (a : α) :
    (l.takeWhile (· ≠ a)).length = (l.idxOf? a).getD l.length := by
  induction l with
  | nil => rfl
  | cons b l ih =>
      by_cases hb : b = a
      · simp [hb, List.idxOf?_cons]
      · rw [List.takeWhile_cons, if_pos (by simpa using hb), List.length_cons, ih,
          List.idxOf?_cons, if_neg (by simpa using hb)]
        cases l.idxOf? a with
        | none => rfl
        | some i => rfl

end Up

/-! ### Pieces between separators -/

section Split

variable [BEq α] [LawfulBEq α]

theorem notMem_of_mem_splitOn {text line : List α} (h : line ∈ text.splitOn a) : a ∉ line := by
  induction text generalizing line with
  | nil =>
      rw [List.splitOn_nil, List.mem_singleton] at h
      subst h
      exact List.not_mem_nil
  | cons c text ih =>
      rw [List.splitOn_cons_eq_if_modifyHead] at h
      split at h
      · rcases List.mem_cons.mp h with rfl | h
        · exact List.not_mem_nil
        · exact ih h
      · next hc =>
        obtain ⟨first, rest, hsplit⟩ := List.exists_cons_of_ne_nil (List.splitOn_ne_nil a text)
        rw [hsplit, List.modifyHead_cons] at h
        rcases List.mem_cons.mp h with rfl | h
        · have hfirst : a ∉ first := ih (by simp [hsplit])
          intro hmem
          rcases List.mem_cons.mp hmem with rfl | hmem
          · exact hc (beq_self_eq_true a)
          · exact hfirst hmem
        · exact ih (by simp [hsplit, h])

theorem splitOn_eq_iff {text : List α} {lines : List (List α)} (hlines : lines ≠ []) :
    text.splitOn a = lines ↔ text = [a].intercalate lines ∧ ∀ line ∈ lines, a ∉ line := by
  constructor
  · rintro rfl
    exact ⟨(List.intercalate_splitOn a).symm, fun line h => notMem_of_mem_splitOn h⟩
  · rintro ⟨rfl, hnone⟩
    exact List.splitOn_intercalate a hnone hlines

end Split

theorem intercalate_ended (a : α) (lines : List (List α)) :
    [a].intercalate (lines ++ [[]]) = lines.flatMap (· ++ [a]) := by
  induction lines with
  | nil => rfl
  | cons line lines ih =>
      rw [List.cons_append, List.intercalate_cons_of_ne_nil (by simp), ih, List.flatMap_cons]

end Slices
