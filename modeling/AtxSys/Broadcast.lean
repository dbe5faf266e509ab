import AtxSys.Env
import AtxSys.Lib.Printf
import AtxSys.Updater

/-!
# Progress to the browsers

`updater_progress_info` and `http_broadcast_json` of `http.c`. A message is formatted into a buffer on
the stack, and the buffer is the format for the next one, whose length goes along with the frame. A
frame is what `mg_send_websocket_frame` is called with. Logging is not modelled.
-/

namespace AtxSys

open CText

structure Connection where
  id : Nat
  /-- `is_websocket` -/
  websocket : Bool
  deriving DecidableEq

/-- The arguments of `mg_send_websocket_frame` with `WEBSOCKET_OP_TEXT`: what was formatted into the
buffer, and the length. -/
structure TextFrame where
  data : Bytes
  len : Int
  deriving DecidableEq

/-- `sizeof(mem)` in `http_broadcast_json`. -/
def broadcastSize : Nat := 1024

/-- `sizeof(b)` in `updater_progress_info`. -/
def progressSize : Nat := 512

/-- The text of a format with any conversion of the standard. -/
def printfText (fmt : Bytes) (args : List Arg) : Run Bytes :=
  match vprintf fmt args with
  | none => .error .format
  | some text => .ok text

/-- The loop of `http_broadcast_json` over what `mg_next` returns. -/
def broadcastLoop (frame : TextFrame) : List Connection → List (Connection × TextFrame)
  | [] => []
  | c :: connections =>
    if c.websocket then (c, frame) :: broadcastLoop frame connections
    else broadcastLoop frame connections

/-- `http_broadcast_json`, which does not look at its code. -/
def httpBroadcastJson (connections : List Connection) (fmt : Bytes) (args : List Arg) :
    Run (List (Connection × TextFrame)) := do
  let text ← printfText (cstr fmt) args
  let len := snprintfResult text
  if len ≠ 0 then .ok (broadcastLoop { data := text.take (broadcastSize - 1), len } connections)
  else .ok []

def progressInfoFormat : Bytes :=
  bytes "\x7b\"type\":\"info\",\"info\":\"" ++ (bytes "%.*s" ++ bytes "\"\x7d")

/-- `updater_progress_info`. The message is passed on as the format, and its length as the argument. -/
def updaterProgressInfo (connections : List Connection) (info : Bytes) (len : UInt32) :
    Run (List (Connection × TextFrame)) := do
  let text ← printfText progressInfoFormat [.int (toInt len.toNat), .str info]
  httpBroadcastJson connections (text.take (progressSize - 1)) [.int (snprintfResult text)]

end AtxSys
