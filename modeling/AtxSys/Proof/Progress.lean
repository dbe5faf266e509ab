import AtxSys.Lib.Changes
import AtxSys.Progress

/-!
# What the callbacks tell

The callbacks for the status, the source and the step are told the changes of these values over the
full messages, whatever happens to the connection in between.
-/

namespace AtxSys

open CText Changes

/-- The calls of the status callback, the source callback and the step callback. -/
def statuses (calls : List ProgressCall) : List UInt32 :=
  calls.filterMap fun
    | .status status => some status
    | _ => none

def sources (calls : List ProgressCall) : List UInt32 :=
  calls.filterMap fun
    | .source source => some source
    | _ => none

def steps (calls : List ProgressCall) : List (UInt8 × UInt8) :=
  calls.filterMap fun
    | .step _ step _ per => some (step, per)
    | _ => none

/-- The step and the percentage of a message, if it has a step. -/
def ProgressMsg.position (msg : ProgressMsg) : Option (UInt32 × UInt32) :=
  if msg.curStep ≠ 0 then some (msg.curStep, msg.curPercent) else none

/-- As the callback takes them. -/
def narrow (position : UInt32 × UInt32) : UInt8 × UInt8 :=
  (position.1.toUInt8, position.2.toUInt8)

/-! ### What the IPC says

The results of `progress_ipc_connect` and `progress_ipc_receive` alone say what was received. -/

/-- The handle that the result of a poll leaves behind another handle. -/
def nextHandle (handle : Int) (io : ProgressIo) : Int :=
  if 0 < handle then io.ipc else io.connected

def handleAfter (handle : Int) (ios : List ProgressIo) : Int := ios.foldl nextHandle handle

/-- The full message that a poll with the handle receives. -/
def receivedOn (handle : Int) (io : ProgressIo) : Option ProgressMsg :=
  if 0 < handle then io.received else none

/-- The full messages received. -/
def received : Int → List ProgressIo → List ProgressMsg
  | _, [] => []
  | handle, io :: ios => (receivedOn handle io).toList ++ received (nextHandle handle io) ios

theorem handleAfter_snoc (handle : Int) (ios : List ProgressIo) (io : ProgressIo) :
    handleAfter handle (ios ++ [io]) = nextHandle (handleAfter handle ios) io :=
  List.foldl_concat ..

theorem received_snoc (handle : Int) (ios : List ProgressIo) (io : ProgressIo) :
    received handle (ios ++ [io]) =
      received handle ios ++ (receivedOn (handleAfter handle ios) io).toList := by
  induction ios generalizing handle with
  | nil => simp [received, handleAfter]
  | cons first ios ih =>
      rw [List.cons_append, received, received, ih, List.append_assoc]
      rfl

/-- An element of a list with one more is the last one, or one of the list. -/
theorem snoc_eq_split_iff {α : Type} {l before after : List α} {last a : α} :
    l ++ [last] = before ++ a :: after ↔
      (l = before ∧ last = a ∧ after = []) ∨
        ∃ init, after = init ++ [last] ∧ l = before ++ a :: init := by
  constructor
  · intro hsplit
    rcases List.eq_nil_or_concat after with rfl | ⟨init, b, rfl⟩
    · obtain ⟨rfl, hlast⟩ := List.append_inj' hsplit rfl
      exact .inl ⟨rfl, List.singleton_inj.mp hlast, rfl⟩
    · rw [List.concat_eq_append, ← List.cons_append, ← List.append_assoc] at hsplit
      obtain ⟨hl, hlast⟩ := List.append_inj' hsplit rfl
      obtain rfl := List.singleton_inj.mp hlast
      exact .inr ⟨init, List.concat_eq_append, hl⟩
  · rintro (⟨rfl, rfl, rfl⟩ | ⟨init, rfl, rfl⟩)
    · rfl
    · simp

/-- There is a connection exactly if one was made when there was none, and every message since then
left it. -/
theorem handleAfter_pos_iff (ios : List ProgressIo) :
    0 < handleAfter 0 ios ↔ ∃ before io after, ios = before ++ io :: after ∧
      ¬0 < handleAfter 0 before ∧ 0 < io.connected ∧ ∀ io ∈ after, 0 < io.ipc := by
  induction ios using List.reverseRecOn with
  | nil =>
      constructor
      · exact fun h => absurd h (by decide)
      · rintro ⟨before, io, after, hsplit, -⟩
        cases before <;> cases hsplit
  | append_singleton ios last ih =>
      rw [handleAfter_snoc, nextHandle]
      by_cases hopen : 0 < handleAfter 0 ios
      · rw [if_pos hopen]
        constructor
        · intro hleft
          obtain ⟨before, io, after, hsplit, hclosed, hmade, hkept⟩ := ih.mp hopen
          refine ⟨before, io, after ++ [last], snoc_eq_split_iff.mpr (.inr ⟨after, rfl, hsplit⟩),
            hclosed, hmade, ?_⟩
          rw [List.forall_mem_append, List.forall_mem_singleton]
          exact ⟨hkept, hleft⟩
        · rintro ⟨before, io, after, hsplit, hclosed, -, hkept⟩
          obtain ⟨rfl, -⟩ | ⟨init, rfl, -⟩ := snoc_eq_split_iff.mp hsplit
          · exact absurd hopen hclosed
          · exact hkept last (List.mem_append_right _ (List.mem_singleton_self last))
      · rw [if_neg hopen]
        constructor
        · exact fun hmade => ⟨ios, last, [], rfl, hopen, hmade, by simp⟩
        · rintro ⟨before, io, after, hsplit, hclosed, hmade, hkept⟩
          obtain ⟨-, rfl, -⟩ | ⟨init, rfl, hios⟩ := snoc_eq_split_iff.mp hsplit
          · exact hmade
          · have hinit : ∀ io ∈ init, 0 < io.ipc :=
              fun io hio => hkept io (List.mem_append_left _ hio)
            exact absurd (ih.mpr ⟨before, io, init, hios, hclosed, hmade, hinit⟩) hopen

/-- A sequence of polls: the callbacks made. -/
structure Watch where
  progress : UpdaterProgress
  calls : List ProgressCall

namespace Watch

def start : Watch := { progress := updaterProgressInit, calls := [] }

def poll (w : Watch) (io : ProgressIo) : Watch where
  progress := (updaterProgressPoll updaterProgressCallbacks w.progress io).1
  calls := w.calls ++ (updaterProgressPoll updaterProgressCallbacks w.progress io).2

def run (ios : List ProgressIo) : Watch := ios.foldl poll start

end Watch

/-! ### One message -/

section Message

variable (u : UpdaterProgress) (msg : ProgressMsg)

/-- The status that is told even if it did not change. -/
def isFailure (status : UInt32) : Bool := status = failure

def never {α : Type} (_ : α) : Bool := false

theorem pollStatus_eq :
    pollStatus updaterProgressCallbacks u msg =
      ({ u with status := msg.status },
        (change isFailure u.status msg.status).map ProgressCall.status) := by
  unfold pollStatus change
  by_cases hchange : msg.status ≠ u.status ∨ msg.status = failure
  · have hreport : msg.status ≠ u.status ∨ isFailure msg.status = true := by
      simpa [isFailure] using hchange
    rw [if_pos hchange, if_pos hreport]
    rfl
  · have hreport : ¬ (msg.status ≠ u.status ∨ isFailure msg.status = true) := by
      simpa [isFailure] using hchange
    have hsame : msg.status = u.status := by
      by_contra hne
      exact hchange (.inl hne)
    rw [if_neg hchange, if_neg hreport, hsame]
    rfl

theorem pollSource_eq :
    pollSource updaterProgressCallbacks u msg =
      ({ u with source := msg.source },
        (change never u.source msg.source).map ProgressCall.source) := by
  unfold pollSource change never
  by_cases hsame : msg.source = u.source
  · simp [hsame]
  · simp [hsame, updaterProgressCallbacks]

def stepCall (position : UInt32 × UInt32) : ProgressCall :=
  .step msg.curImage position.1.toUInt8 msg.nsteps.toUInt8 position.2.toUInt8

theorem pollStep_eq :
    pollStep updaterProgressCallbacks u msg =
      ({ u with
          step := (msg.position.getD (u.step, u.percent)).1
          percent := (msg.position.getD (u.step, u.percent)).2 },
        (msg.position.toList.flatMap (change never (u.step, u.percent))).map (stepCall msg)) := by
  by_cases hzero : msg.curStep = 0
  · have hposition : msg.position = none := if_neg (not_not_intro hzero)
    simp [pollStep, hposition, hzero]
  · have hposition : msg.position = some (msg.curStep, msg.curPercent) := if_pos hzero
    rw [hposition, Option.toList_some, List.flatMap_singleton]
    by_cases hsame : msg.curStep = u.step ∧ msg.curPercent = u.percent
    · simp [pollStep, hsame.1, hsame.2, change, never]
    · have hne : msg.curStep ≠ u.step ∨ msg.curPercent ≠ u.percent := by
        by_contra hnot
        simp only [not_or, not_not] at hnot
        exact hsame hnot
      have hchange : change never (u.step, u.percent) (msg.curStep, msg.curPercent) =
          [(msg.curStep, msg.curPercent)] := by
        apply if_pos
        left
        simpa using hsame
      rw [pollStep, if_pos ⟨hne, hzero⟩, hchange]
      simp [updaterProgressCallbacks, stepCall, hzero]

/-- What a full message adds to the calls of each callback, and what is remembered of it. -/
theorem pollMessage_eq :
    pollMessage updaterProgressCallbacks u msg =
      ({ u with
          status := msg.status
          source := msg.source
          step := (msg.position.getD (u.step, u.percent)).1
          percent := (msg.position.getD (u.step, u.percent)).2 },
        (change isFailure u.status msg.status).map ProgressCall.status ++
          ((change never u.source msg.source).map ProgressCall.source ++
            (pollInfo updaterProgressCallbacks msg ++
              (msg.position.toList.flatMap (change never (u.step, u.percent))).map
                (stepCall msg)))) := by
  simp only [pollMessage, pollStatus_eq, pollSource_eq, pollStep_eq]

end Message

/-! ### The calls of one callback -/

section Calls

variable (calls more : List ProgressCall) (msg : ProgressMsg)

@[simp]
theorem statuses_append : statuses (calls ++ more) = statuses calls ++ statuses more :=
  List.filterMap_append

@[simp]
theorem sources_append : sources (calls ++ more) = sources calls ++ sources more :=
  List.filterMap_append

@[simp]
theorem steps_append : steps (calls ++ more) = steps calls ++ steps more :=
  List.filterMap_append

@[simp]
theorem calls_status (values : List UInt32) :
    statuses (values.map .status) = values ∧ sources (values.map .status) = [] ∧
      steps (values.map .status) = [] := by
  simp [statuses, sources, steps, List.filterMap_map]

@[simp]
theorem calls_source (values : List UInt32) :
    statuses (values.map .source) = [] ∧ sources (values.map .source) = values ∧
      steps (values.map .source) = [] := by
  simp [statuses, sources, steps, List.filterMap_map]

@[simp]
theorem calls_info (cb : ProgressCallbacks) :
    statuses (pollInfo cb msg) = [] ∧ sources (pollInfo cb msg) = [] ∧
      steps (pollInfo cb msg) = [] := by
  unfold pollInfo
  split <;> exact ⟨rfl, rfl, rfl⟩

@[simp]
theorem calls_step (positions : List (UInt32 × UInt32)) :
    statuses (positions.map (stepCall msg)) = [] ∧ sources (positions.map (stepCall msg)) = [] ∧
      steps (positions.map (stepCall msg)) = positions.map narrow := by
  simp [statuses, sources, steps, List.filterMap_map, Function.comp_def, stepCall, narrow]

end Calls

/-! ### One poll -/

section Poll

variable {u : UpdaterProgress} {io : ProgressIo} {msg : ProgressMsg}

/-- A poll without a full message makes no calls and forgets nothing. -/
theorem updaterProgressPoll_none (hnone : receivedOn u.ipc io = none) :
    updaterProgressPoll updaterProgressCallbacks u io =
      ({ u with ipc := nextHandle u.ipc io }, []) := by
  unfold updaterProgressPoll nextHandle
  by_cases hipc : u.ipc > 0
  · have hreceived : io.received = none := by
      rw [receivedOn, if_pos hipc] at hnone
      exact hnone
    rw [if_pos hipc, if_pos hipc, hreceived]
  · rw [if_neg hipc, if_neg hipc]

theorem updaterProgressPoll_some (hsome : receivedOn u.ipc io = some msg) :
    updaterProgressPoll updaterProgressCallbacks u io =
      pollMessage updaterProgressCallbacks { u with ipc := nextHandle u.ipc io } msg := by
  unfold receivedOn at hsome
  split at hsome
  · next hipc => rw [updaterProgressPoll, if_pos hipc, hsome, nextHandle, if_pos hipc]
  · cases hsome

theorem updaterProgressPoll_ipc (u : UpdaterProgress) (io : ProgressIo) :
    (updaterProgressPoll updaterProgressCallbacks u io).1.ipc = nextHandle u.ipc io := by
  cases hreceived : receivedOn u.ipc io with
  | none => rw [updaterProgressPoll_none hreceived]
  | some msg => rw [updaterProgressPoll_some hreceived, pollMessage_eq]

end Poll

/-! ### Runs -/

namespace Watch

/-- The handle follows the results, the callbacks were told the changes of the messages, and the
last values are remembered. -/
structure Tracks (w : Watch) (handle : Int) (messages : List ProgressMsg) : Prop where
  handle : w.progress.ipc = handle
  status : w.progress.status = last 0 (messages.map ProgressMsg.status)
  statuses : statuses w.calls = reported isFailure 0 (messages.map ProgressMsg.status)
  source : w.progress.source = last 0 (messages.map ProgressMsg.source)
  sources : sources w.calls = reported never 0 (messages.map ProgressMsg.source)
  step : (w.progress.step, w.progress.percent) =
    last (0, 0) (messages.filterMap ProgressMsg.position)
  steps : steps w.calls =
    (reported never (0, 0) (messages.filterMap ProgressMsg.position)).map narrow

theorem start_tracks : start.Tracks 0 [] := ⟨rfl, rfl, rfl, rfl, rfl, rfl, rfl⟩

theorem Tracks.message {w w' : Watch} {handle ipc : Int} {messages : List ProgressMsg}
    {msg : ProgressMsg} (h : w.Tracks handle messages)
    (hpoll : w'.progress = (pollMessage updaterProgressCallbacks { w.progress with ipc } msg).1)
    (hcalls : w'.calls = w.calls ++
      (pollMessage updaterProgressCallbacks { w.progress with ipc } msg).2) :
    w'.Tracks ipc (messages ++ [msg]) := by
  rw [pollMessage_eq] at hpoll hcalls
  have hposition : (messages ++ [msg]).filterMap ProgressMsg.position =
      messages.filterMap ProgressMsg.position ++ msg.position.toList := by
    rw [List.filterMap_append]
    cases hposition : msg.position <;> simp [hposition]
  refine ⟨?_, ?_, ?_, ?_, ?_, ?_, ?_⟩
  · rw [hpoll]
  · simp [hpoll]
  · simp [hcalls, h.statuses, reported_snoc, h.status]
  · simp [hpoll]
  · simp [hcalls, h.sources, reported_snoc, h.source]
  · rw [hpoll, hposition]
    cases msg.position with
    | none => simpa using h.step
    | some position => simp
  · rw [hcalls, hposition]
    cases msg.position with
    | none => simp [h.steps]
    | some position => simp [h.steps, reported_snoc, ← h.step]

theorem Tracks.poll {w : Watch} {handle : Int} {messages : List ProgressMsg}
    (h : w.Tracks handle messages) (io : ProgressIo) :
    (w.poll io).Tracks (nextHandle handle io) (messages ++ (receivedOn handle io).toList) := by
  obtain rfl := h.handle
  cases hreceived : receivedOn w.progress.ipc io with
  | none =>
      have hpoll := updaterProgressPoll_none hreceived
      rw [Watch.poll, hpoll, Option.toList_none, List.append_nil, List.append_nil]
      exact ⟨rfl, h.status, h.statuses, h.source, h.sources, h.step, h.steps⟩
  | some msg =>
      have hpoll := updaterProgressPoll_some hreceived
      rw [Option.toList_some]
      apply h.message
      · rw [Watch.poll, hpoll]
      · rw [Watch.poll, hpoll]

theorem run_snoc (ios : List ProgressIo) (io : ProgressIo) :
    run (ios ++ [io]) = (run ios).poll io :=
  List.foldl_concat ..

theorem run_tracks (ios : List ProgressIo) :
    (run ios).Tracks (handleAfter 0 ios) (received 0 ios) := by
  induction ios using List.reverseRecOn with
  | nil => exact start_tracks
  | append_singleton ios io ih =>
      rw [run_snoc, handleAfter_snoc, received_snoc]
      exact ih.poll io

theorem positions_eq (messages : List ProgressMsg) :
    messages.filterMap ProgressMsg.position =
      (messages.filter fun msg => msg.curStep ≠ 0).map fun msg =>
        (msg.curStep, msg.curPercent) := by
  induction messages with
  | nil => rfl
  | cons msg messages ih =>
      rw [List.filterMap_cons, ProgressMsg.position, List.filter_cons, ih]
      by_cases hzero : msg.curStep = 0 <;> simp [hzero]

/-- **Progress.** After any polls the handle is what the IPC says, and it is one exactly if it was
made when there was none and no receipt has dropped it since. The callbacks were last told the
status and the source of the last full message and the step and the percentage of the last one with a
step; a status is told twice in a row only if it is `FAILURE`, a source never; and a poll without a
full message tells nothing. -/
theorem progress_told (ios : List ProgressIo) :
    (run ios).progress.ipc = handleAfter 0 ios ∧
      (0 < handleAfter 0 ios ↔ ∃ before io after, ios = before ++ io :: after ∧
        ¬0 < handleAfter 0 before ∧ 0 < io.connected ∧ ∀ io ∈ after, 0 < io.ipc) ∧
      (statuses (run ios).calls).getLast?.getD 0 =
        ((received 0 ios).map ProgressMsg.status).getLast?.getD 0 ∧
      (sources (run ios).calls).getLast?.getD 0 =
        ((received 0 ios).map ProgressMsg.source).getLast?.getD 0 ∧
      (steps (run ios).calls).getLast? =
        (((received 0 ios).filter fun msg => msg.curStep ≠ 0).map fun msg =>
          (msg.curStep.toUInt8, msg.curPercent.toUInt8)).getLast? ∧
      (statuses (run ios).calls).IsChain (fun before after => before = after → after = failure) ∧
      (sources (run ios).calls).IsChain (· ≠ ·) ∧
      ∀ io, receivedOn (handleAfter 0 ios) io = none →
        (run (ios ++ [io])).calls = (run ios).calls := by
  have h := run_tracks ios
  refine ⟨h.handle, handleAfter_pos_iff ios, ?_, ?_, ?_, ?_, ?_, fun io hnone => ?_⟩
  · rw [h.statuses]
    exact last_reported
  · rw [h.sources]
    exact last_reported
  · have hne : ∀ position ∈ (received 0 ios).filterMap ProgressMsg.position,
        position ≠ (0, 0) := by
      intro position hmem heq
      rw [positions_eq] at hmem
      obtain ⟨msg, hmsg, rfl⟩ := List.mem_map.mp hmem
      have hstep : msg.curStep ≠ 0 := by simpa using (List.mem_filter.mp hmsg).2
      exact hstep (Prod.mk.inj heq).1
    rw [h.steps, List.getLast?_map, getLast?_reported hne, ← List.getLast?_map, positions_eq,
      List.map_map]
    rfl
  · rw [h.statuses]
    refine isChain_reported.imp fun before after hrepeat heq => ?_
    rw [← heq]
    simpa [isFailure] using hrepeat heq
  · rw [h.sources]
    refine isChain_reported.imp fun before after hrepeat heq => ?_
    exact absurd (hrepeat heq) (by simp [never])
  · rw [← h.handle] at hnone
    rw [run_snoc, Watch.poll, updaterProgressPoll_none hnone]
    exact List.append_nil _

section Concrete

/-- A connection that fails and one that is made, two messages, a loss, a connection again, and the
message of the failure, two times. -/
def lostPolls : List ProgressIo :=
  let msg (status curStep curPercent : UInt32) : ProgressMsg :=
    ⟨status, 3, curStep, curPercent, bytes "rootfs", 1, 0, []⟩
  [⟨none, 0, -1⟩, ⟨none, 0, 7⟩, ⟨some (msg 1 0 0), 7, 0⟩, ⟨some (msg 2 1 50), 7, 0⟩,
    ⟨none, -1, 0⟩, ⟨none, 0, 8⟩, ⟨some (msg 4 1 50), 8, 0⟩, ⟨some (msg 4 1 50), 8, 0⟩]

theorem progress_told_lost :
    (run lostPolls).progress.ipc = 8 ∧ (received 0 lostPolls).length = 4 ∧
      statuses (run lostPolls).calls = [1, 2, 4, 4] ∧
      sources (run lostPolls).calls = [1] ∧
      (steps (run lostPolls).calls).getLast? = some (1, 50) ∧
      (run (lostPolls ++ [⟨none, -1, 0⟩])).calls = (run lostPolls).calls := by
  obtain ⟨hhandle, -, -, -, hsteps, -, -, hquiet⟩ := progress_told lostPolls
  refine ⟨hhandle, rfl, by decide, by decide, ?_, hquiet _ rfl⟩
  rw [hsteps]
  decide

end Concrete

end Watch

end AtxSys
