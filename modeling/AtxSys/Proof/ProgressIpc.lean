import AtxSys.Lib.Handles
import AtxSys.Lib.Trace
import AtxSys.Proof.Progress

/-!
# The life of the progress connection

Polls connect to the IPC, receive from it, and connect again after it was lost. The progress is a
slot for one handle, and a positive handle is one it holds; a handle 0 is taken for none.
-/

namespace AtxSys

open Handles Trace

/-- `progress_ipc_receive` closes a connection that it doesn't leave as it is. -/
def ProgressOp.calls : ProgressOp → List (Call Int)
  | .connect ret => if ret < 0 then [] else [.acquire ret]
  | .receive handle left => if left = handle then [.use handle] else [.use handle, .release handle]
  | .close handle => [.release handle]

/-- The progress of the server, with the calls on the IPC so far. -/
structure ProgressIpc where
  progress : UpdaterProgress
  ops : List ProgressOp
  deriving DecidableEq

namespace ProgressIpc

/-- After `http_init`. -/
def init : ProgressIpc := { progress := updaterProgressInit, ops := [] }

def poll (s : ProgressIpc) (io : ProgressIo) : ProgressIpc where
  progress := (updaterProgressPoll updaterProgressCallbacks s.progress io).1
  ops := s.ops ++ progressOps s.progress io

/-- `http_deinit` with `updater_progress_free`. -/
def deinit (s : ProgressIpc) : ProgressIpc :=
  { progress := (updaterProgressFree s.progress).1
    ops := s.ops ++ (updaterProgressFree s.progress).2 }

/-- A poll, where a connection that is lost is closed and leaves -1. -/
def Step (s : ProgressIpc) (io : ProgressIo) (s' : ProgressIpc) : Prop :=
  (0 < s.progress.ipc → io.ipc = s.progress.ipc ∨ io.ipc = -1) ∧ s' = s.poll io

end ProgressIpc

/-! ### One poll -/

section Poll

variable {u : UpdaterProgress} {io : ProgressIo}

def UpdaterProgress.slot (u : UpdaterProgress) : Option Int :=
  if 0 < u.ipc then some u.ipc else none

theorem progressOps_moves (hleft : 0 < u.ipc → io.ipc = u.ipc ∨ io.ipc = -1)
    (hzero : ProgressOp.connect 0 ∉ progressOps u io) :
    Moves u.slot ((progressOps u io).flatMap ProgressOp.calls)
      (updaterProgressPoll updaterProgressCallbacks u io).1.slot := by
  rw [UpdaterProgress.slot, UpdaterProgress.slot, updaterProgressPoll_ipc, nextHandle]
  unfold progressOps at hzero ⊢
  by_cases hipc : 0 < u.ipc
  · rw [if_pos hipc, if_pos hipc, if_pos hipc, List.flatMap_singleton, ProgressOp.calls]
    rcases hleft hipc with hkept | hlost
    · rw [if_pos hkept, hkept, if_pos hipc]
      exact Moves.use u.ipc
    · have hne : io.ipc ≠ u.ipc := by omega
      rw [if_neg hne, hlost, if_neg (by decide)]
      exact (Moves.use u.ipc).trans (Moves.release u.ipc)
  · rw [if_neg hipc] at hzero
    rw [if_neg hipc, if_neg hipc, if_neg hipc, List.flatMap_singleton, ProgressOp.calls]
    have hne : io.connected ≠ 0 := by
      intro heq
      exact hzero (by rw [heq]; exact List.mem_singleton_self _)
    by_cases hneg : io.connected < 0
    · rw [if_pos hneg, if_neg (by omega)]
      exact Moves.refl none
    · rw [if_neg hneg, if_pos (by omega)]
      exact Moves.acquire io.connected

theorem updaterProgressFree_moves (u : UpdaterProgress) :
    Moves u.slot ((updaterProgressFree u).2.flatMap ProgressOp.calls) none := by
  rw [UpdaterProgress.slot, updaterProgressFree]
  by_cases hipc : u.ipc > 0
  · rw [if_pos hipc, if_pos hipc]
    exact Moves.release u.ipc
  · rw [if_neg hipc, if_neg hipc]
    exact Moves.refl none

/-- Nothing releases the handle 0. -/
theorem release_zero (u : UpdaterProgress) (io : ProgressIo) :
    Call.release 0 ∉ (progressOps u io).flatMap ProgressOp.calls := by
  unfold progressOps
  by_cases hipc : u.ipc > 0
  · have hne : (0 : Int) ≠ u.ipc := by omega
    rw [if_pos hipc, List.flatMap_singleton, ProgressOp.calls]
    by_cases hleft : io.ipc = u.ipc <;> simp [hleft, hne]
  · rw [if_neg hipc, List.flatMap_singleton, ProgressOp.calls]
    by_cases hneg : io.connected < 0 <;> simp [hneg]

end Poll

/-! ### Runs -/

namespace ProgressIpc

variable {s : ProgressIpc} {ios : List ProgressIo}

/-- The calls on handles from `http_init` to `http_deinit`. -/
def life (s : ProgressIpc) : List (Call Int) := s.deinit.ops.flatMap ProgressOp.calls

theorem run_moves (hrun : Steps Step init ios s) (hzero : ProgressOp.connect 0 ∉ s.ops) :
    Moves none (s.ops.flatMap ProgressOp.calls) s.progress.slot := by
  induction hrun with
  | nil => exact Moves.refl none
  | @snoc s s' ios io run last ih =>
      obtain ⟨hleft, rfl⟩ := last
      simp only [poll, List.mem_append, not_or] at hzero
      rw [poll, List.flatMap_append]
      exact (ih hzero.1).trans (progressOps_moves hleft hzero.2)

theorem run_keeps_zero (hrun : Steps Step init ios s) :
    Call.release 0 ∉ s.ops.flatMap ProgressOp.calls := by
  let I (s : ProgressIpc) : Prop := Call.release 0 ∉ s.ops.flatMap ProgressOp.calls
  have hinit : I init := List.not_mem_nil
  refine hrun.invariant (I := I) (fun s io s' hkeeps hstep => ?_) hinit
  obtain ⟨-, rfl⟩ := hstep
  change Call.release 0 ∉ (s.ops ++ progressOps s.progress io).flatMap ProgressOp.calls
  rw [List.flatMap_append, List.mem_append, not_or]
  exact ⟨hkeeps, release_zero s.progress io⟩

theorem life_moves (hrun : Steps Step init ios s) (hzero : ProgressOp.connect 0 ∉ s.ops) :
    Moves none s.life none := by
  rw [life, deinit, List.flatMap_append]
  exact (run_moves hrun hzero).trans (updaterProgressFree_moves s.progress)

/-- A connection with the handle 0 is opened and never closed. -/
theorem life_leaks (hrun : Steps Step init ios s) (hzero : ProgressOp.connect 0 ∈ s.ops) :
    0 < s.life.count (.acquire 0) ∧ s.life.count (.release 0) = 0 := by
  rw [life, deinit, List.flatMap_append]
  constructor
  · apply List.count_pos_iff.mpr
    exact List.mem_append_left _
      (List.mem_flatMap.mpr ⟨_, hzero, List.mem_singleton_self (Call.acquire (0 : Int))⟩)
  · apply List.count_eq_zero.mpr
    rw [List.mem_append, not_or]
    refine ⟨run_keeps_zero hrun, ?_⟩
    unfold updaterProgressFree
    by_cases hipc : s.progress.ipc > 0
    · have hne : (0 : Int) ≠ s.progress.ipc := by omega
      rw [if_pos hipc]
      simp [ProgressOp.calls, hne]
    · rw [if_neg hipc]
      exact List.not_mem_nil

/-- **Progress connections.** Each connection is closed once by the end of `http_deinit` if and only
if none has the handle 0; then at most one is open at any time, and nothing is received from it, nor
is it closed, unless it is open. -/
theorem connections_closed_iff (hrun : Steps Step init ios s) :
    ((∀ handle, s.life.count (.acquire handle) = s.life.count (.release handle)) ↔
      ProgressOp.connect 0 ∉ s.ops) ∧
    (ProgressOp.connect 0 ∉ s.ops → Legal [] s.life ∧ opened [] s.life = [] ∧
      ∀ before, before <+: s.life → (opened [] before).length ≤ 1) := by
  refine ⟨⟨fun hbalanced hzero => ?_, fun hzero => ?_⟩, fun hzero => ?_⟩
  · obtain ⟨hopened, hkept⟩ := life_leaks hrun hzero
    have hsame := hbalanced 0
    omega
  · exact (life_moves hrun hzero).balanced
  · have hmoves := life_moves hrun hzero
    exact ⟨hmoves.legal, hmoves.opened_eq, hmoves.single⟩

/-- A connection is lost, and made again. -/
theorem connections_closed_iff_lost :
    ∃ s : ProgressIpc, s.ops.length = 3 ∧ opened [] s.life = [] := by
  let io (connected ipc : Int) : ProgressIo := { received := none, ipc, connected }
  let s₁ := init.poll (io 3 0)
  let s₂ := s₁.poll (io 0 (-1))
  let s₃ := s₂.poll (io 4 0)
  have hconnect : Step init (io 3 0) s₁ := ⟨fun h => absurd h (by decide), rfl⟩
  have hlost : Step s₁ (io 0 (-1)) s₂ := ⟨fun _ => .inr rfl, rfl⟩
  have hagain : Step s₂ (io 4 0) s₃ := ⟨fun h => absurd h (by decide), rfl⟩
  have hrun := ((Steps.single hconnect).snoc hlost).snoc hagain
  have hops : s₃.ops = [.connect 3, .receive 3 (-1), .connect 4] := rfl
  exact ⟨s₃, rfl, ((connections_closed_iff hrun).2 (by rw [hops]; decide)).2.1⟩

end ProgressIpc

end AtxSys
