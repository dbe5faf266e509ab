import AtxSys.Lib.Handles
import AtxSys.Proof.Upload
import Mathlib.Data.List.Induction

/-!
# The life of the IPC sessions

`update_handler` on the events of any parts in any order, from `http_init` to `http_deinit`. The
updater is a slot for one handle, and every event moves that slot by calls that are allowed.
-/

namespace AtxSys

open CText Handles Trace

def IpcOp.call : IpcOp → Call Int
  | .start handle _ => .acquire handle
  | .write handle _ _ => .use handle
  | .stop handle => .release handle

/-- The sessions that are open after the calls. -/
def openSessions (calls : List IpcOp) : List Int := opened [] (calls.map IpcOp.call)

/-- The updater of the server, with the calls on the IPC so far. -/
structure Ipc where
  updater : Updater
  calls : List IpcOp
  deriving DecidableEq

namespace Ipc

/-- After `http_init`. -/
def init : Ipc := { updater := .clear, calls := [] }

/-- `http_deinit` begins with `updater_free`. -/
def deinit (s : Ipc) : Ipc :=
  { updater := (updaterFree s.updater).1, calls := s.calls ++ (updaterFree s.updater).2 }

/-- An event, where a handle that is not negative is positive. -/
def Step (s : Ipc) (e : MultipartPart × UpdateEvent) (s' : Ipc) : Prop :=
  e.2 ≠ .partBegin 0 ∧
    ∃ o, updateHandler s.updater e.1 e.2 = .ok o ∧ s' = ⟨o.updater, s.calls ++ o.calls⟩

/-- No session has a handle that an earlier one had. -/
def Fresh (calls : List IpcOp) : Prop :=
  ∀ before handle info later, calls = before ++ .start handle info :: later →
    ∀ info', .start handle info' ∉ before

end Ipc

/-! ### One event -/

section Moves

variable {u : Updater}

def Updater.slot (u : Updater) : Option Int := if u.ipc = 0 then none else some u.ipc

theorem ipcEnd_moves (u : Updater) : Moves u.slot ((ipcEnd u).map IpcOp.call) none := by
  unfold Updater.slot ipcEnd
  by_cases hipc : u.ipc = 0
  · rw [if_pos hipc, if_neg (not_not_intro hipc)]
    exact Moves.refl none
  · rw [if_neg hipc, if_pos hipc]
    exact Moves.release u.ipc

theorem updaterInit_moves {u' : Updater} {calls : List IpcOp} {data : Bytes} {handle : Int}
    (hhandle : handle ≠ 0) (h : updaterInit u data handle = .ok (u', calls)) :
    Moves u.slot (calls.map IpcOp.call) u'.slot := by
  unfold updaterInit at h
  split at h
  · cases h
  · obtain ⟨rfl, rfl⟩ := Prod.mk.inj (Except.ok.inj h)
    have hslot : Updater.slot { Updater.clear with ipc := handle } = some handle := if_neg hhandle
    rw [List.map_append, hslot]
    exact (ipcEnd_moves u).trans (Moves.acquire handle)

theorem updaterWrite_moves (hactive : updaterActive u) (data : Bytes) (ret : Int) :
    Moves u.slot ((updaterWrite u data ret).2.1.map IpcOp.call)
      (updaterWrite u data ret).1.slot := by
  have hipc : u.ipc ≠ 0 := by simpa [updaterActive] using hactive
  have hslot : u.slot = some u.ipc := if_neg hipc
  have hslot' : (updaterWrite u data ret).1.slot = some u.ipc := if_neg hipc
  rw [hslot, hslot']
  exact Moves.use u.ipc

theorem updateHandler_moves {mp : MultipartPart} {e : UpdateEvent} {o : UpdateOutcome}
    (hhandle : e ≠ .partBegin 0) (h : updateHandler u mp e = .ok o) :
    Moves u.slot (o.calls.map IpcOp.call) o.updater.slot := by
  cases e with
  | multipartRequest | multipartRequestEnd =>
      obtain rfl := Except.ok.inj h
      exact Moves.refl u.slot
  | partBegin handle =>
      obtain ⟨⟨u', calls⟩, hinit, ho⟩ := run_bind_eq_ok h
      obtain rfl := Except.ok.inj ho
      have hne : handle ≠ 0 := by
        intro hzero
        exact hhandle (congrArg UpdateEvent.partBegin hzero)
      exact updaterInit_moves hne hinit
  | partData ret =>
      by_cases hidle : ¬ updaterActive u ∨ u.status ≠ .ok
      · rw [updateHandler, if_pos hidle] at h
        obtain rfl := Except.ok.inj h
        exact Moves.refl u.slot
      · rw [updateHandler, if_neg hidle] at h
        obtain rfl := Except.ok.inj h
        have hactive : updaterActive u := by
          by_contra hnot
          exact hidle (.inl hnot)
        exact updaterWrite_moves hactive mp.data ret
  | partEnd =>
      obtain ⟨reply, -, ho⟩ := run_bind_eq_ok h
      obtain rfl := Except.ok.inj ho
      exact ipcEnd_moves u

end Moves

/-! ### Runs -/

namespace Ipc

variable {s : Ipc} {es : List (MultipartPart × UpdateEvent)}

theorem run_moves (hrun : Steps Step init es s) :
    Moves none (s.calls.map IpcOp.call) s.updater.slot := by
  let I (s : Ipc) : Prop := Moves none (s.calls.map IpcOp.call) s.updater.slot
  have hinit : I init := Moves.refl none
  refine hrun.invariant (I := I) (fun s e s' hmoves hstep => ?_) hinit
  obtain ⟨hhandle, o, ho, rfl⟩ := hstep
  change Moves none ((s.calls ++ o.calls).map IpcOp.call) o.updater.slot
  rw [List.map_append]
  exact hmoves.trans (updateHandler_moves hhandle ho)

theorem deinit_moves (hrun : Steps Step init es s) :
    Moves none (s.deinit.calls.map IpcOp.call) none := by
  rw [deinit, List.map_append]
  exact (run_moves hrun).trans (ipcEnd_moves s.updater)

theorem count_stop (handle : Int) (calls : List IpcOp) :
    (calls.map IpcOp.call).count (.release handle) = calls.count (.stop handle) := by
  induction calls with
  | nil => rfl
  | cons op calls ih =>
      rw [List.map_cons, List.count_cons, List.count_cons, ih]
      cases op <;> simp [IpcOp.call]

/-- A handle that is fresh whenever it is acquired is acquired once. -/
theorem count_start_le {calls : List IpcOp} (hfresh : Fresh calls) (handle : Int) :
    (calls.map IpcOp.call).count (.acquire handle) ≤ 1 := by
  induction calls using List.reverseRecOn with
  | nil => simp
  | append_singleton calls op ih =>
      have hfresh' : Fresh calls := by
        intro before h info later heq
        exact hfresh before h info (later ++ [op]) (by rw [heq]; simp)
      rw [List.map_append, List.count_append]
      cases op with
      | start h info =>
          by_cases heq : h = handle
          · subst heq
            have hzero : (calls.map IpcOp.call).count (.acquire h) = 0 := by
              apply List.count_eq_zero.mpr
              intro hmem
              obtain ⟨op, hop, hcall⟩ := List.mem_map.mp hmem
              cases op with
              | start h' info' =>
                  obtain rfl : h' = h := Call.acquire.inj hcall
                  exact hfresh calls h' info [] rfl info' hop
              | write | stop => cases hcall
            rw [hzero]
            simp [IpcOp.call]
          · have hlast := ih hfresh'
            simpa [IpcOp.call, heq] using hlast
      | write | stop =>
          have hlast := ih hfresh'
          simpa [IpcOp.call] using hlast

/-- **Sessions.** At most one session is open at any time, with its handle in the updater between
the events; nothing is written to a session, nor is it ended, unless it is open; and after
`http_deinit` every session has been ended once. -/
theorem sessions_ended (hrun : Steps Step init es s) :
    openSessions s.calls = (if s.updater.ipc = 0 then [] else [s.updater.ipc]) ∧
      s.deinit.updater.ipc = 0 ∧ openSessions s.deinit.calls = [] ∧
      (∀ before, before <+: s.deinit.calls → (openSessions before).length ≤ 1) ∧
      (∀ before handle data ret later, s.deinit.calls = before ++ .write handle data ret :: later →
        handle ∈ openSessions before) ∧
      (∀ before handle later, s.deinit.calls = before ++ .stop handle :: later →
        handle ∈ openSessions before) ∧
      (∀ handle, (s.deinit.calls.map IpcOp.call).count (.acquire handle) =
        s.deinit.calls.count (.stop handle)) ∧
      (Fresh s.deinit.calls → ∀ handle info, .start handle info ∈ s.deinit.calls →
        s.deinit.calls.count (.stop handle) = 1) := by
  have hmoves := run_moves hrun
  have hdeinit := deinit_moves hrun
  have hlegal : ∀ before op later, s.deinit.calls = before ++ op :: later →
      op.call.Allowed (openSessions before) := by
    intro before op later heq
    apply hdeinit.legal (before.map IpcOp.call) op.call (later.map IpcOp.call)
    rw [heq, List.map_append, List.map_cons]
  have hcount : ∀ handle, (s.deinit.calls.map IpcOp.call).count (.acquire handle) =
      s.deinit.calls.count (.stop handle) := by
    intro handle
    rw [hdeinit.balanced handle, count_stop]
  refine ⟨?_, rfl, hdeinit.opened_eq, ?_, ?_, ?_, hcount, ?_⟩
  · have hopened : openSessions s.calls = s.updater.slot.toList := hmoves.opened_eq
    rw [hopened, Updater.slot]
    split <;> rfl
  · intro before hbefore
    exact hdeinit.single (before.map IpcOp.call) (hbefore.map IpcOp.call)
  · intro before handle data ret later heq
    exact hlegal before (.write handle data ret) later heq
  · intro before handle later heq
    exact hlegal before (.stop handle) later heq
  · intro hfresh handle info hmem
    have hle := count_start_le hfresh handle
    have hpos : 0 < (s.deinit.calls.map IpcOp.call).count (.acquire handle) :=
      List.count_pos_iff.mpr (List.mem_map_of_mem (f := IpcOp.call) hmem)
    rw [← hcount]
    omega

/-- Two parts begin, and one is written to. -/
theorem sessions_ended_two :
    ∃ s : Ipc, s.calls.length = 4 ∧ openSessions s.deinit.calls = [] := by
  let mp : MultipartPart := ⟨bytes "image.swu", bytes "abc", 3, true⟩
  let next (s : Ipc) (e : UpdateEvent) : Ipc :=
    match updateHandler s.updater mp e with
    | .ok o => ⟨o.updater, s.calls ++ o.calls⟩
    | .error _ => s
  let s₀ := next init (.partBegin 5)
  let s₁ := next s₀ (.partBegin 6)
  let s₂ := next s₁ (.partData 2)
  have hfirst : Step init (mp, .partBegin 5) s₀ := ⟨by decide, _, rfl, rfl⟩
  have hsecond : Step s₀ (mp, .partBegin 6) s₁ := ⟨by decide, _, rfl, rfl⟩
  have hdata : Step s₁ (mp, .partData 2) s₂ := ⟨by decide, _, rfl, rfl⟩
  have hrun := ((Steps.single hfirst).snoc hsecond).snoc hdata
  exact ⟨s₂, rfl, (sessions_ended hrun).2.2.1⟩

end Ipc

end AtxSys
