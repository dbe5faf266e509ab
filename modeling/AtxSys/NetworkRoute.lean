import AtxSys.Http
import AtxSys.NetworkManagement

/-!
# The network route

`get` and `put` of `http_route_network.c`. The configuration file is its content, `none` when it
does not exist; the outcomes of the file operations are an argument. Logging is not modelled.
-/

namespace AtxSys

open CText

structure GetIo where
  opened : Bool
  /-- what `FIONREAD` stores in `n` -/
  available : Nat
  allocated : Bool
  /-- what `fread` returns -/
  read : Nat

/-- The outcomes when nothing fails on a file with this content. -/
def GetIo.success (content : Bytes) : GetIo :=
  { opened := true, available := content.length, allocated := true, read := content.length }

/-- `get`. The content of the file is passed as the format. -/
def networkGet (file : Option Bytes) (io : GetIo) : Run Response :=
  match if io.opened then file else none with
  | none => httpPrintfJson 404 (bytes "\x7b\"error\":\"Not found\"\x7d") []
  | some content =>
    if !io.allocated then .error .abort
    else if io.read ≠ io.available then .error .abort
    else httpPrintfJson 200 (content.take io.available) []

structure PutIo where
  opened : Bool
  /-- `strerror(errno)` when the file can't be opened -/
  openError : Bytes
  /-- what `fprintf` returns -/
  printed : Int
  /-- `strerror(errno)` when `fprintf` fails -/
  printError : Bytes
  /-- how much of the text is in the file when the stream has been closed -/
  kept : Nat

/-- The outcomes when nothing fails and this is the text. -/
def PutIo.success (text : Bytes) : PutIo :=
  { opened := true, openError := [], printed := text.length, printError := [], kept := text.length }

structure PutResult where
  file : Option Bytes
  response : Response
  deriving DecidableEq

/-- `sizeof(toks) / sizeof(*toks)` in `put`. -/
def putNumToks : Nat := 256

/-- The calls of `json_delve` in the condition of `put`, up to the first one that finds nothing. -/
def networkToks (mem : TokMem) (b : Bytes) (depth : Nat) : Run (Option NetToks) := do
  let some meth ← jsonDelve mem b depth 0 (bytes ".ipv4.meth") | .ok none
  let some ip ← jsonDelve mem b depth 0 (bytes ".ipv4.ip") | .ok none
  let some sn ← jsonDelve mem b depth 0 (bytes ".ipv4.sn") | .ok none
  let some gw ← jsonDelve mem b depth 0 (bytes ".ipv4.gw") | .ok none
  let some hn ← jsonDelve mem b depth 0 (bytes ".ipv4.hn") | .ok none
  .ok (some { meth, ip, sn, gw, hn })

/-- The condition of `put`, with the token array it leaves. -/
def putToks (stack : Stack) (b : Bytes) : Run (Option (TokMem × NetToks)) :=
  match jsmnParse b putNumToks with
  | .error _ => .ok none
  | .ok p =>
    if p.count = 0 then .ok none
    else do
      let mem := tokArray putNumToks p.toks stack
      let some toks ← networkToks mem b stack.depth | .ok none
      .ok (some (mem, toks))

def putErrorFormat : Bytes :=
  bytes "\x7b\"error\":\"" ++ (bytes "%s" ++ bytes "\"\x7d")

/-- `put`: opening the file for writing truncates it, and the response is sent before the stream is
closed. -/
def networkPut (stack : Stack) (b : Bytes) (io : PutIo) (file : Option Bytes) : Run PutResult := do
  match ← putToks stack b with
  | none =>
    let response ← httpPrintfJson 500 putErrorFormat [.str (bytes "parser error")]
    .ok { file, response }
  | some (mem, toks) =>
    if io.opened then
      let c ← networkConfigToks b mem toks
      let text ← printNetworkConfig c
      let response ←
        if io.printed < 0 then httpPrintfJson 500 putErrorFormat [.str io.printError]
        else httpPrintfJson 200 (bytes "\x7b\"error\":\"ok\"\x7d") []
      .ok { file := some (text.take io.kept), response }
    else
      let response ← httpPrintfJson 500 putErrorFormat [.str io.openError]
      .ok { file, response }

/-- The values that `put` reads from a request body; `none` if it rejects the body. -/
def putConfig (stack : Stack) (b : Bytes) : Run (Option NetConfig) := do
  match ← putToks stack b with
  | none => .ok none
  | some (mem, toks) =>
    let c ← networkConfigToks b mem toks
    .ok (some c)

end AtxSys
