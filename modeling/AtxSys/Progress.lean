import AtxSys.Lib.CText

/-!
# The progress of an update

`updater_progress_poll` of `updater_swupdate.c`. What `progress_ipc_connect` and
`progress_ipc_receive` return is an argument. The `int`s `step` and `percent` only take and meet
values of type `unsigned int`.
-/

namespace AtxSys

open CText

/-- `struct progress_msg`, as far as it is read. -/
structure ProgressMsg where
  status : UInt32
  nsteps : UInt32
  curStep : UInt32
  curPercent : UInt32
  curImage : Bytes
  source : UInt32
  infolen : UInt32
  info : Bytes
  deriving DecidableEq

/-- `FAILURE` of `RECOVERY_STATUS`. -/
def failure : UInt32 := 4

structure UpdaterProgress where
  ipc : Int
  status : UInt32
  source : UInt32
  step : UInt32
  percent : UInt32
  deriving DecidableEq

/-- Which of the callbacks are set. -/
structure ProgressCallbacks where
  status : Bool
  source : Bool
  info : Bool
  step : Bool

/-- `updater_progress_callbacks` of `http.c`. -/
def updaterProgressCallbacks : ProgressCallbacks := ⟨true, true, true, true⟩

/-- A call of a callback. -/
inductive ProgressCall where
  | status (status : UInt32)
  | source (source : UInt32)
  | info (info : Bytes) (len : UInt32)
  | step (name : Bytes) (step total per : UInt8)
  deriving DecidableEq

/-- What the IPC does in a poll. -/
structure ProgressIo where
  /-- the message, if `progress_ipc_receive` returns its size -/
  received : Option ProgressMsg
  /-- the handle that `progress_ipc_receive` leaves -/
  ipc : Int
  /-- what `progress_ipc_connect` returns -/
  connected : Int

def updaterProgressInit : UpdaterProgress :=
  { ipc := 0, status := 0, source := 0, step := 0, percent := 0 }

section Poll

variable (cb : ProgressCallbacks) (u : UpdaterProgress) (msg : ProgressMsg)

def pollStatus : UpdaterProgress × List ProgressCall :=
  if msg.status ≠ u.status ∨ msg.status = failure then
    ({ u with status := msg.status }, if cb.status then [.status msg.status] else [])
  else (u, [])

def pollSource : UpdaterProgress × List ProgressCall :=
  if msg.source ≠ u.source then
    ({ u with source := msg.source }, if cb.source then [.source msg.source] else [])
  else (u, [])

def pollInfo : List ProgressCall :=
  if msg.infolen ≠ 0 ∧ cb.info then [.info msg.info msg.infolen] else []

def pollStep : UpdaterProgress × List ProgressCall :=
  if (msg.curStep ≠ u.step ∨ msg.curPercent ≠ u.percent) ∧ msg.curStep ≠ 0 then
    ({ u with step := msg.curStep, percent := msg.curPercent },
      if cb.step then
        [.step (if msg.curStep ≠ 0 then msg.curImage else []) msg.curStep.toUInt8
          msg.nsteps.toUInt8 msg.curPercent.toUInt8]
      else [])
  else (u, [])

/-- What a poll does with a full message. -/
def pollMessage : UpdaterProgress × List ProgressCall :=
  let (u, status) := pollStatus cb u msg
  let (u, source) := pollSource cb u msg
  let info := pollInfo cb msg
  let (u, step) := pollStep cb u msg
  (u, status ++ (source ++ (info ++ step)))

end Poll

def updaterProgressPoll (cb : ProgressCallbacks) (u : UpdaterProgress) (io : ProgressIo) :
    UpdaterProgress × List ProgressCall :=
  if u.ipc > 0 then
    let u := { u with ipc := io.ipc }
    match io.received with
    | none => (u, [])
    | some msg => pollMessage cb u msg
  else ({ u with ipc := io.connected }, [])

/-! ### The connection -/

inductive ProgressOp where
  /-- with what `progress_ipc_connect` returns -/
  | connect (ret : Int)
  /-- with the handle that `progress_ipc_receive` leaves -/
  | receive (handle left : Int)
  | close (handle : Int)
  deriving DecidableEq

/-- The call of a poll on the IPC. -/
def progressOps (u : UpdaterProgress) (io : ProgressIo) : List ProgressOp :=
  if u.ipc > 0 then [.receive u.ipc io.ipc] else [.connect io.connected]

/-- `memset` leaves the values that `updater_progress_init` starts with. -/
def updaterProgressFree (u : UpdaterProgress) : UpdaterProgress × List ProgressOp :=
  (updaterProgressInit, if u.ipc > 0 then [.close u.ipc] else [])

end AtxSys
