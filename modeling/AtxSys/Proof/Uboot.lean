import AtxSys.Lib.Slices
import AtxSys.Uboot
import Mathlib.Tactic.Common

/-!
# The life of the U-Boot context

The requests use the context whether or not `env_init` left a valid one.
-/

namespace AtxSys

open CText Slices

/-- The context is iterated only after it was initialised and opened and before its exit, and every
context that was created has one exit. -/
structure UbootSafe (ops : List UbootOp) : Prop where
  iterated : ∀ before ctx later, ops = before ++ .libubootIterator ctx :: later →
    ctx ≠ none ∧ .libubootInitialize ctx ∈ before ∧
      (∃ ret, 0 ≤ ret ∧ .libubootOpen ctx ret ∈ before) ∧ .libubootExit ctx ∉ before
  exited : ∀ c, .libubootInitialize (some c) ∈ ops → ops.count (.libubootExit (some c)) = 1

/-- `env_init` succeeds. -/
def UbootIo.Success (io : UbootIo) : Prop :=
  0 ≤ io.libubootInitialize ∧ 0 ≤ io.libubootReadConfig ∧ 0 ≤ io.libubootOpen

section Requests

variable {env : Env} {op : UbootOp} {requests : List EnvRequest}

theorem envReadVal_ops (key : Bytes) {vars : List (Bytes × Bytes)}
    (hop : op ∈ (envReadVal env key vars).2) : op = .libubootIterator env.ctx := by
  induction vars with
  | nil => exact List.mem_singleton.mp hop
  | cons v vars ih =>
      simp only [envReadVal] at hop
      split at hop
      · exact List.mem_singleton.mp hop
      · rcases List.mem_cons.mp hop with hhead | htail
        · exact hhead
        · exact ih htail

/-- A request makes no call but of the iterator, -/
theorem requests_ops (hop : op ∈ requests.flatMap (EnvRequest.ops env)) :
    op = .libubootIterator env.ctx := by
  obtain ⟨r, -, hr⟩ := List.mem_flatMap.mp hop
  cases r with
  | poll => cases hr
  | get key vars =>
      cases key with
      | none => exact List.eq_of_mem_replicate hr
      | some key => exact envReadVal_ops key hr

/-- and a GET makes one. -/
theorem iterator_mem_get (env : Env) (key : Option Bytes) (vars : List (Bytes × Bytes)) :
    .libubootIterator env.ctx ∈ (EnvRequest.get key vars).ops env := by
  cases key with
  | none => exact List.mem_replicate.mpr ⟨Nat.succ_ne_zero _, rfl⟩
  | some key =>
      cases vars with
      | nil => exact List.mem_singleton_self _
      | cons v vars =>
          simp only [EnvRequest.ops, envReadVal]
          split
          · exact List.mem_singleton_self _
          · exact List.mem_cons_self

end Requests

/-! ### The three ways through `env_init` -/

section Init

variable {io : UbootIo} {op : UbootOp}

theorem envInit_success (h : io.Success) :
    (envInit io).2 = ({ ctx := some io.ctx, valid := true },
      [.libubootInitialize (some io.ctx), .libubootReadConfig (some io.ctx) io.libubootReadConfig,
        .libubootOpen (some io.ctx) io.libubootOpen]) := by
  obtain ⟨hinit, hconfig, hopen⟩ := h
  simp only [envInit, if_neg (Int.not_lt.mpr hinit), if_neg (Int.not_lt.mpr hconfig),
    if_neg (Int.not_lt.mpr hopen), List.cons_append, List.nil_append]

/-- After a failure nothing was opened, and what was created was exited. -/
structure Failed (init : Env × List UbootOp) : Prop where
  invalid : init.1.valid = false
  opened : ∀ ctx ret, .libubootOpen ctx ret ∈ init.2 → ret < 0
  uniterated : ∀ ctx, .libubootIterator ctx ∉ init.2
  exited : ∀ c, .libubootInitialize (some c) ∈ init.2 → init.2.count (.libubootExit (some c)) = 1

theorem envInit_failed (h : ¬ io.Success) : Failed (envInit io).2 := by
  unfold envInit
  by_cases hinit : io.libubootInitialize < 0
  · rw [if_pos hinit]
    exact ⟨rfl, by simp, by simp, by simp⟩
  · rw [if_neg hinit]
    by_cases hconfig : io.libubootReadConfig < 0
    · rw [if_pos hconfig]
      exact ⟨rfl, by simp, by simp, by simp⟩
    · rw [if_neg hconfig]
      by_cases hopen : io.libubootOpen < 0
      · rw [if_pos hopen]
        refine ⟨rfl, ?_, by simp, by simp⟩
        intro ctx ret hmem
        simp only [List.cons_append, List.nil_append, List.mem_cons, reduceCtorEq,
          UbootOp.libubootOpen.injEq, List.not_mem_nil, or_false, false_or] at hmem
        rw [hmem.2]
        exact hopen
      · exact absurd ⟨by omega, by omega, by omega⟩ h

/-- The context is open exactly after `env_init` succeeded. -/
theorem envInit_isOpen : (envInit io).2.1.isOpen = true ↔ io.Success := by
  by_cases h : io.Success
  · rw [envInit_success h]
    exact iff_of_true rfl h
  · have hinvalid := (envInit_failed h).invalid
    refine iff_of_false ?_ h
    simp [Env.isOpen, hinvalid]

end Init

/-! ### Lives -/

section Life

variable {io : UbootIo} {requests : List EnvRequest}

theorem envLife_eq : envLife io requests =
    (envInit io).2.2 ++ (requests.flatMap (EnvRequest.ops (envInit io).2.1) ++
      (envDeinit (envInit io).2.1).2) := rfl

theorem envLife_of_failed (h : Failed (envInit io).2) :
    envLife io requests =
      (envInit io).2.2 ++ requests.flatMap (EnvRequest.ops (envInit io).2.1) := by
  have hdeinit : (envDeinit (envInit io).2.1).2 = [] := by
    rw [envDeinit, h.invalid]
    rfl
  rw [envLife_eq, hdeinit, List.append_nil]

theorem life_of_success (h : io.Success) : UbootSafe (envLife io requests) := by
  have hrequests : ∀ op ∈ requests.flatMap
      (EnvRequest.ops { ctx := some io.ctx, valid := true }),
      op = .libubootIterator (some io.ctx) := fun op hop => requests_ops hop
  rw [envLife_eq, envInit_success h]
  refine ⟨fun before ctx later hsplit => ?_, fun c hc => ?_⟩
  · have hctx : ctx = some io.ctx := by
      have hmem : .libubootIterator ctx ∈ before ++ .libubootIterator ctx :: later := by simp
      rw [← hsplit] at hmem
      simp only [envDeinit, if_true, List.mem_append, List.mem_cons, reduceCtorEq,
        List.not_mem_nil, or_false, false_or] at hmem
      exact UbootOp.libubootIterator.inj (hrequests _ hmem)
    obtain ⟨piece, hbefore, hpiece⟩ := split_middle hsplit (by simp) (by simp [envDeinit])
    rw [hbefore, hctx]
    refine ⟨by simp, by simp, ⟨io.libubootOpen, h.2.2, by simp⟩, fun hexit => ?_⟩
    rcases List.mem_append.mp hexit with hinit | hmiddle
    · simp at hinit
    · cases hrequests _ (hpiece _ hmiddle)
  · have hzero : (requests.flatMap
        (EnvRequest.ops { ctx := some io.ctx, valid := true })).count
          (.libubootExit (some c)) = 0 :=
      List.count_eq_zero.mpr fun hmem => by cases hrequests _ hmem
    have hc : c = io.ctx := by
      simp only [envDeinit, if_true, List.mem_append, List.mem_cons, reduceCtorEq,
        UbootOp.libubootInitialize.injEq, Option.some.injEq, List.not_mem_nil, or_false] at hc
      rcases hc with hc | hc
      · exact hc
      · cases hrequests _ hc
    rw [List.count_append, List.count_append, hzero, hc]
    simp [envDeinit]

theorem life_of_polls (h : Failed (envInit io).2) (hpolls : ∀ r ∈ requests, r = .poll) :
    UbootSafe (envLife io requests) := by
  have hnone : requests.flatMap (EnvRequest.ops (envInit io).2.1) = [] := by
    rw [List.flatMap_eq_nil_iff]
    intro r hr
    rw [hpolls r hr]
    rfl
  rw [envLife_of_failed h, hnone, List.append_nil]
  refine ⟨fun before ctx later hsplit => ?_, h.exited⟩
  exact absurd (by rw [hsplit]; simp) (h.uniterated ctx)

theorem life_not_safe (h : Failed (envInit io).2) {key : Option Bytes}
    {vars : List (Bytes × Bytes)} (hget : .get key vars ∈ requests) :
    ¬ UbootSafe (envLife io requests) := by
  intro hsafe
  have hmem : .libubootIterator (envInit io).2.1.ctx ∈ envLife io requests := by
    rw [envLife_of_failed h]
    apply List.mem_append_right
    exact List.mem_flatMap.mpr ⟨_, hget, iterator_mem_get _ key vars⟩
  obtain ⟨before, later, hsplit⟩ := List.append_of_mem hmem
  obtain ⟨-, -, ⟨ret, hret, hopened⟩, -⟩ := hsafe.iterated before _ later hsplit
  have hall : .libubootOpen (envInit io).2.1.ctx ret ∈ envLife io requests := by
    rw [hsplit]
    exact List.mem_append_left _ hopened
  rw [envLife_of_failed h] at hall
  rcases List.mem_append.mp hall with hinit | hrequest
  · have hneg := h.opened _ ret hinit
    omega
  · cases requests_ops hrequest

/-- **The context.** It is used as libuboot requires if and only if `env_init` succeeded or the
environment is never asked for. -/
theorem env_life_iff (io : UbootIo) (requests : List EnvRequest) :
    UbootSafe (envLife io requests) ↔ io.Success ∨ ∀ r ∈ requests, r = .poll := by
  by_cases hsuccess : io.Success
  · exact ⟨fun _ => .inl hsuccess, fun _ => life_of_success hsuccess⟩
  · have hfailed := envInit_failed hsuccess
    constructor
    · intro hsafe
      right
      intro r hr
      cases r with
      | poll => rfl
      | get key vars => exact absurd hsafe (life_not_safe hfailed hr)
    · intro h
      exact life_of_polls hfailed (h.resolve_left hsuccess)

/-- The configuration of libuboot can't be read, and the environment is asked for. -/
theorem env_life_use_after_exit :
    ¬ UbootSafe (envLife ⟨0, 0, -1, 0⟩ [.get (some (bytes "ver")) []]) := by
  intro hsafe
  obtain ⟨-, -, -, hexit⟩ := hsafe.iterated [.libubootInitialize (some 0),
    .libubootReadConfig (some 0) (-1), .libubootExit (some 0)] (some 0) [] rfl
  exact hexit (by decide)

end Life

end AtxSys
