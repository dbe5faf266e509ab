import Mathlib.Data.List.Nodup
import Mathlib.Data.List.Perm.Basic
import Mathlib.Logic.Function.Basic
import Mathlib.Tactic.Common

/-!
# Dictionaries

A partial function with finitely many arguments, and the lists of its pairs. The order of a list is
that of the program that keeps it, the function is what its callers rely on.
-/

namespace Dictionary

variable {κ α : Type} {l l' before after : List (κ × α)} {f : κ → Option α} {k : κ} {a b : α}

/-- The pairs of `f`, each of them once. -/
structure Lists (l : List (κ × α)) (f : κ → Option α) : Prop where
  nodup : (l.map Prod.fst).Nodup
  mem_iff : ∀ k a, (k, a) ∈ l ↔ f k = some a

theorem lists_nil : Lists [] fun _ : κ => (none : Option α) :=
  ⟨List.nodup_nil, fun _ _ => by simp⟩

namespace Lists

theorem eq_none_iff (h : Lists l f) : f k = none ↔ ∀ a, (k, a) ∉ l := by
  constructor
  · intro hnone a hmem
    rw [h.mem_iff, hnone] at hmem
    cases hmem
  · intro hnone
    cases hk : f k with
    | none => rfl
    | some a => exact absurd ((h.mem_iff k a).mpr hk) (hnone a)

theorem perm (h : Lists l f) (hperm : l'.Perm l) : Lists l' f where
  nodup := (hperm.map Prod.fst).nodup_iff.mpr h.nodup
  mem_iff k a := hperm.mem_iff.trans (h.mem_iff k a)

variable [DecidableEq κ]

theorem cons (h : Lists l f) (hk : f k = none) (a : α) :
    Lists ((k, a) :: l) (Function.update f k (some a)) where
  nodup := by
    rw [List.map_cons, List.nodup_cons]
    refine ⟨?_, h.nodup⟩
    rw [List.mem_map]
    rintro ⟨⟨k', a'⟩, hmem, rfl⟩
    exact h.eq_none_iff.mp hk a' hmem
  mem_iff k' a' := by
    rw [List.mem_cons, h.mem_iff]
    by_cases hkk : k' = k
    · subst hkk
      rw [Function.update_self, hk]
      simp [eq_comm]
    · rw [Function.update_of_ne hkk]
      simp [hkk]

theorem tail (h : Lists ((k, a) :: l) f) : Lists l (Function.update f k none) := by
  have hnodup := h.nodup
  rw [List.map_cons, List.nodup_cons] at hnodup
  refine ⟨hnodup.2, fun k' a' => ?_⟩
  by_cases hkk : k' = k
  · subst hkk
    rw [Function.update_self]
    refine iff_of_false (fun hmem => hnodup.1 ?_) (by simp)
    exact List.mem_map.mpr ⟨_, hmem, rfl⟩
  · rw [Function.update_of_ne hkk, ← h.mem_iff, List.mem_cons]
    simp [hkk]

/-- The value of a key that is there is replaced. -/
theorem replace (h : Lists (before ++ (k, a) :: after) f) (b : α) :
    Lists (before ++ (k, b) :: after) (Function.update f k (some b)) := by
  have htail := (h.perm (List.perm_middle (a := (k, a))).symm).tail
  have hcons := htail.cons (Function.update_self k none f) b
  rw [Function.update_idem] at hcons
  exact hcons.perm List.perm_middle

theorem find?_eq (h : Lists l f) (k : κ) : (l.find? fun e => e.1 = k).map Prod.snd = f k := by
  cases hfind : l.find? fun e => e.1 = k with
  | none =>
      refine (h.eq_none_iff.mpr fun a hmem => ?_).symm
      have hne := List.find?_eq_none.mp hfind (k, a) hmem
      simp at hne
  | some e =>
      have hkey : e.1 = k := by simpa using List.find?_some hfind
      exact ((h.mem_iff k e.2).mp (hkey ▸ List.mem_of_find?_eq_some hfind)).symm

end Lists

end Dictionary
