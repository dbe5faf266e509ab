import AtxSys.Broadcast
import AtxSys.Progress

/-!
# Polls of the server

The other callbacks for the progress of an update in `http.c`, and `http_poll`. A poll is taken from
where `mg_mgr_poll` returns; what `mg_next` enumerates then is an argument.
-/

namespace AtxSys

open CText

/-- The end of a callback: a text that was formatted into `b` is the format of the message, and its
length the argument. -/
def progressBroadcast (connections : List Connection) (fmt : Bytes) (args : List Arg) :
    Run (List (Connection × TextFrame)) := do
  let text ← printfText fmt args
  httpBroadcastJson connections (text.take (progressSize - 1)) [.int (snprintfResult text)]

/-! ### The status and the source -/

def statusMessages : List Bytes :=
  [bytes "idle", bytes "start", bytes "run", bytes "success", bytes "failure", bytes "download",
    bytes "done", bytes "subprocess", bytes "progress"]

def sourceMessages : List Bytes :=
  [bytes "unknown", bytes "webserver", bytes "suricatta", bytes "downloader", bytes "local"]

/-- An entry of an array of messages, behind an `assert` on the index. -/
def progressMessage (msgs : List Bytes) (i : UInt32) : Run Bytes :=
  match msgs[i.toNat]? with
  | none => .error .abort
  | some msg => .ok msg

def updaterProgressStatusMessage (status : UInt32) : Run Bytes :=
  progressMessage statusMessages status

def updaterProgressSourceMessage (source : UInt32) : Run Bytes :=
  progressMessage sourceMessages source

def progressStatusFormat : Bytes :=
  bytes "\x7b\"type\":\"status\",\"status\":\"" ++ (bytes "%s" ++ bytes "\"\x7d")

def progressSourceFormat : Bytes :=
  bytes "\x7b\"type\":\"source\",\"source\":\"" ++ (bytes "%s" ++ bytes "\"\x7d")

def progressStepFormat : Bytes :=
  bytes "\x7b\"type\":\"step\",\"step\":" ++ (bytes "%d" ++ (bytes ",\"total\":" ++
    (bytes "%d" ++ (bytes ",\"percent\":" ++ (bytes "%d" ++ bytes "\x7d")))))

section Callbacks

variable (connections : List Connection)

def updaterProgressStatus (status : UInt32) : Run (List (Connection × TextFrame)) := do
  let msg ← updaterProgressStatusMessage status
  progressBroadcast connections progressStatusFormat [.str msg]

def updaterProgressSource (source : UInt32) : Run (List (Connection × TextFrame)) := do
  let msg ← updaterProgressSourceMessage source
  progressBroadcast connections progressSourceFormat [.str msg]

/-- The name of the image is not sent. -/
def updaterProgressStep (_ : Bytes) (step total per : UInt8) :
    Run (List (Connection × TextFrame)) :=
  progressBroadcast connections progressStepFormat
    [.int step.toNat, .int total.toNat, .int per.toNat]

/-- A call through `updater_progress_callbacks`. -/
def progressCallback : ProgressCall → Run (List (Connection × TextFrame))
  | .status status => updaterProgressStatus connections status
  | .source source => updaterProgressSource connections source
  | .info info len => updaterProgressInfo connections info len
  | .step name step total per => updaterProgressStep connections name step total per

/-- The calls of a poll, in order. -/
def runProgressCalls : List ProgressCall → Run (List (Connection × TextFrame))
  | [] => .ok []
  | call :: calls => do
    let sent ← progressCallback connections call
    let more ← runProgressCalls calls
    .ok (sent ++ more)

end Callbacks

/-! ### The poll -/

/-- What is outside of a poll: the connections that are open after `mg_mgr_poll`, and the IPC. -/
structure PollIo where
  connections : List Connection
  progress : ProgressIo

/-- `http_poll` behind `mg_mgr_poll`, where `valid` is `env->valid`. -/
def httpPoll (valid : Bool) (u : UpdaterProgress) (io : PollIo) :
    Run (UpdaterProgress × List (Connection × TextFrame)) :=
  if valid then do
    let (u, calls) := updaterProgressPoll updaterProgressCallbacks u io.progress
    let sent ← runProgressCalls io.connections calls
    .ok (u, sent)
  else .ok (u, [])

/-- Poll after poll: what is sent in each. -/
def httpPolls (valid : Bool) (u : UpdaterProgress) :
    List PollIo → Run (List (List (Connection × TextFrame)))
  | [] => .ok []
  | io :: ios => do
    let (u, sent) ← httpPoll valid u io
    let more ← httpPolls valid u ios
    .ok (sent :: more)

end AtxSys
