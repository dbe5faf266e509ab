import Mathlib.Data.List.Basic
import Mathlib.Tactic.Common

/-!
# Handles

Calls that acquire, use and release handles: which handles are open after them, and the calls of a
program that keeps at most one open handle, in a slot.
-/

namespace Handles

variable {η : Type} [DecidableEq η]

inductive Call (η : Type) where
  | acquire (h : η)
  | use (h : η)
  | release (h : η)
  deriving DecidableEq

namespace Call

def after (start : List η) : Call η → List η
  | .acquire h => h :: start
  | .use _ => start
  | .release h => start.erase h

/-- A handle is used and released only while it is open, and not acquired again meanwhile. -/
def Allowed (start : List η) : Call η → Prop
  | .acquire h => h ∉ start
  | .use h | .release h => h ∈ start

end Call

/-- The handles that are open after the calls. -/
def opened (start : List η) (calls : List (Call η)) : List η := calls.foldl Call.after start

def Legal (start : List η) (calls : List (Call η)) : Prop :=
  ∀ before call later, calls = before ++ call :: later → call.Allowed (opened start before)

section Opened

variable {start : List η} {call : Call η} {calls more : List (Call η)}

@[simp]
theorem opened_nil : opened start [] = start := rfl

@[simp]
theorem opened_cons : opened start (call :: calls) = opened (call.after start) calls := rfl

theorem opened_append : opened start (calls ++ more) = opened (opened start calls) more :=
  List.foldl_append

theorem legal_nil : Legal start [] := by
  intro before call later h
  simp at h

theorem legal_cons_iff :
    Legal start (call :: calls) ↔ call.Allowed start ∧ Legal (call.after start) calls := by
  constructor
  · intro h
    refine ⟨h [] call calls rfl, fun before next later heq => ?_⟩
    exact h (call :: before) next later (congrArg (call :: ·) heq)
  · rintro ⟨hcall, hcalls⟩ before next later heq
    rcases List.cons_eq_append_iff.mp heq with ⟨rfl, hhead⟩ | ⟨before', rfl, htail⟩
    · obtain ⟨rfl, -⟩ := List.cons.inj hhead
      exact hcall
    · exact hcalls before' next later htail

theorem legal_append_iff :
    Legal start (calls ++ more) ↔ Legal start calls ∧ Legal (opened start calls) more := by
  induction calls generalizing start with
  | nil => simp [legal_nil]
  | cons call calls ih =>
      rw [List.cons_append, legal_cons_iff, legal_cons_iff, ih, opened_cons, and_assoc]

theorem count_after (hcall : call.Allowed start) (h : η) :
    [call].count (.acquire h) + start.count h =
      [call].count (.release h) + (call.after start).count h := by
  cases call with
  | acquire h' =>
      simp only [Call.after, List.count_cons, List.count_nil, beq_iff_eq, reduceCtorEq,
        Call.acquire.injEq, if_false]
      omega
  | use h' => simp [Call.after]
  | release h' =>
      have hmem : h' ∈ start := hcall
      by_cases heq : h' = h
      · subst heq
        have hpos : 0 < start.count h' := List.count_pos_iff.mpr hmem
        simp only [Call.after, List.count_erase_self, List.count_cons, List.count_nil, beq_iff_eq,
          reduceCtorEq, if_false, if_true]
        omega
      · simp [Call.after, List.count_erase_of_ne (Ne.symm heq), heq]

/-- What was acquired was released, or is still open. -/
theorem Legal.count_eq (hlegal : Legal start calls) (h : η) :
    calls.count (.acquire h) + start.count h =
      calls.count (.release h) + (opened start calls).count h := by
  induction calls generalizing start with
  | nil => rfl
  | cons call calls ih =>
      obtain ⟨hcall, hcalls⟩ := legal_cons_iff.mp hlegal
      have hhead := count_after hcall h
      have htail := ih hcalls
      have hsplit : ∀ c : Call η,
          (call :: calls).count c = [call].count c + calls.count c := by
        intro c
        rw [← List.singleton_append, List.count_append]
      rw [hsplit, hsplit, opened_cons]
      omega

end Opened

/-! ### A single slot -/

/-- The calls take the slot from `a` to `b`, with at most one handle open in between. -/
structure Moves (a : Option η) (calls : List (Call η)) (b : Option η) : Prop where
  legal : Legal a.toList calls
  opened_eq : opened a.toList calls = b.toList
  single : ∀ before, before <+: calls → (opened a.toList before).length ≤ 1

namespace Moves

variable {a b c : Option η} {h : η} {calls more : List (Call η)}

theorem refl (a : Option η) : Moves a [] a where
  legal := legal_nil
  opened_eq := rfl
  single := by
    intro before hbefore
    rw [List.prefix_nil.mp hbefore]
    exact Option.length_toList_le

theorem trans (hcalls : Moves a calls b) (hmore : Moves b more c) : Moves a (calls ++ more) c where
  legal := legal_append_iff.mpr ⟨hcalls.legal, hcalls.opened_eq ▸ hmore.legal⟩
  opened_eq := by rw [opened_append, hcalls.opened_eq, hmore.opened_eq]
  single := by
    intro before hbefore
    rcases List.prefix_or_prefix_of_prefix hbefore (List.prefix_append calls more) with
      hshort | ⟨rest, rfl⟩
    · exact hcalls.single before hshort
    · rw [opened_append, hcalls.opened_eq]
      exact hmore.single rest ((List.prefix_append_right_inj calls).mp hbefore)

/-- A single call. -/
theorem call {call : Call η} (hallowed : call.Allowed a.toList)
    (hafter : call.after a.toList = b.toList) : Moves a [call] b where
  legal := legal_cons_iff.mpr ⟨hallowed, legal_nil⟩
  opened_eq := hafter
  single := by
    intro before hbefore
    rcases List.prefix_cons_iff.mp hbefore with rfl | ⟨rest, rfl, hrest⟩
    · exact Option.length_toList_le
    · rw [List.prefix_nil.mp hrest, opened_cons, opened_nil, hafter]
      exact Option.length_toList_le

theorem acquire (h : η) : Moves none [.acquire h] (some h) := call List.not_mem_nil rfl

theorem use (h : η) : Moves (some h) [.use h] (some h) := call (List.mem_singleton_self h) rfl

theorem release (h : η) : Moves (some h) [.release h] none :=
  call (List.mem_singleton_self h) (List.erase_cons_head ..)

/-- From an empty slot to an empty one, each handle is released as often as it is acquired. -/
theorem balanced (hmoves : Moves none calls (none : Option η)) (h : η) :
    calls.count (.acquire h) = calls.count (.release h) := by
  have hcount := hmoves.legal.count_eq h
  rw [hmoves.opened_eq] at hcount
  simpa using hcount

end Moves

end Handles
