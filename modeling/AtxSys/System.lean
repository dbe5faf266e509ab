import AtxSys.Routes
import AtxSys.UserConfig

/-!
# The program

`main.c` around `atxsys.c`: a start, the main loop, and the requests that the polls of the loop
handle. The configuration file and `/etc/network/interfaces` outlive a process; the flags belong to
one. Uploads and the progress of an update do not touch any of these.
-/

namespace AtxSys

open CText

structure Atxsys where
  /-- `http->network_config`, which is `c->usr` -/
  file : Option Bytes
  interfaces : Option Bytes
  /-- `http->shutdown` -/
  shutdown : Bool
  /-- `running` of `main.c` -/
  running : Bool
  deriving DecidableEq

/-- What happens in a poll. A handler finds the file as it is then. -/
inductive MainEvent where
  | request (ctx : RouteContext) (m : HttpMessage)
  /-- `ctrlc` -/
  | sigint

/-- What happens around a start: the stack, the path, and the outcomes of the file operations. -/
structure StartIo where
  stack : Stack
  usr : Option Bytes
  user : UserIo
  interfaces : InterfacesIo

section System

variable (http : HttpServer)

def mainEvent (s : Atxsys) : MainEvent → Run Atxsys
  | .request ctx m => do
    match ← evHandler http { ctx with file := s.file } m with
    | .route result =>
      .ok { s with file := result.file, shutdown := s.shutdown || result.shutdown }
    | .file _ | .notFound _ => .ok s
  | .sigint => .ok { s with running := false }

/-- The events of an `atxsys_poll`. -/
def mainPoll (s : Atxsys) : List MainEvent → Run Atxsys
  | [] => .ok s
  | event :: events => do
    let s ← mainEvent http s event
    mainPoll s events

def atxsysIsRunning (s : Atxsys) : Bool := !s.shutdown

/-- The loop of `main`, with the polls that it does not make. -/
def mainLoop (s : Atxsys) : List (List MainEvent) → Run (Atxsys × List (List MainEvent))
  | [] => .ok (s, [])
  | events :: polls =>
    if s.running && atxsysIsRunning s then do
      let s ← mainPoll http s events
      mainLoop s polls
    else .ok (s, events :: polls)

/-- A start, or an event in the process that was started last. -/
inductive SystemEvent where
  | start (io : StartIo)
  | event (event : MainEvent)

end System

end AtxSys
