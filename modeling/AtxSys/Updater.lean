import AtxSys.Http
import Mathlib.Algebra.Ring.Int.Defs
import Mathlib.Algebra.Ring.Nat

/-!
# The updater and its upload route

`updater_swupdate.c` on top of the IPC of swupdate, and `update_handler`. A call of
`ipc_inst_start_ext`, `write` or `ipc_end` is an `IpcOp` with what the call returned. `errno` only
selects the level of a log line, and `set_blocking` only writes one.
-/

namespace AtxSys

open CText

inductive UpdaterStatus where
  | ok
  | fail
  deriving DecidableEq

structure Updater where
  ipc : Int
  len : UInt32
  status : UpdaterStatus
  deriving DecidableEq

inductive IpcOp where
  | start (handle : Int) (info : Bytes)
  | write (handle : Int) (data : Bytes) (ret : Int)
  | stop (handle : Int)
  deriving DecidableEq

/-- A conversion to `int`. -/
def toInt (n : Int) : Int := n.bmod (2 ^ 32)

/-- `memset` to 0. -/
def Updater.clear : Updater := { ipc := 0, len := 0, status := .ok }

def updaterActive (u : Updater) : Bool := u.ipc != 0

/-- `if (updater->ipc) ipc_end(updater->ipc)`. -/
def ipcEnd (u : Updater) : List IpcOp := if u.ipc ≠ 0 then [.stop u.ipc] else []

/-- `ipc_inst_start_ext` returns `handle`. The calls are listed in order. -/
def updaterInit (u : Updater) (data : Bytes) (handle : Int) : Run (Updater × List IpcOp) :=
  if handle < 0 then .error .exit
  else .ok ({ Updater.clear with ipc := handle }, ipcEnd u ++ [.start handle data])

/-- `write` returns `ret`. The comparison `written != len` is one of `uint32_t`. -/
def updaterWrite (u : Updater) (data : Bytes) (ret : Int) : Updater × List IpcOp × Int :=
  let len := UInt32.ofNat data.length
  let written := toInt ret
  let written := if UInt32.ofInt written ≠ len ∧ written < 0 then 0 else written
  ({ u with len := u.len + UInt32.ofInt written },
    [.write u.ipc (data.take len.toNat) ret], written)

def updaterFree (u : Updater) : Updater × List IpcOp := (.clear, ipcEnd u)

/-! ### The upload route -/

/-- `struct mg_http_multipart_part`; `userData` tells whether its pointer is set. -/
structure MultipartPart where
  fileName : Bytes
  data : Bytes
  numDataConsumed : Nat
  userData : Bool
  deriving DecidableEq

inductive UpdateEvent where
  | multipartRequest
  /-- with what `ipc_inst_start_ext` returns -/
  | partBegin (handle : Int)
  /-- with what `write` returns -/
  | partData (ret : Int)
  | partEnd
  | multipartRequestEnd
  deriving DecidableEq

structure UpdateOutcome where
  updater : Updater
  part : MultipartPart
  calls : List IpcOp
  replies : List Response
  deriving DecidableEq

def partEndFormat : Bytes :=
  bytes "\x7b\"error\":\"" ++ (bytes "%s" ++ (bytes "\",\"received\":" ++ (bytes "%d" ++
    (bytes ",\"from\":\"" ++ (bytes "%s" ++ bytes "\"\x7d")))))

/-- The reply of `PART_END`: its code and the arguments of its format. -/
def partEndReply (u : Updater) (fileName : Bytes) : Nat × List Arg :=
  let code := if u.status = .fail then 500 else 200
  (code, [.str (httpErrorMessage code), .int (toInt u.len.toNat), .str fileName])

/-- `update_handler`, where `user_data` is the server. -/
def updateHandler (u : Updater) (mp : MultipartPart) : UpdateEvent → Run UpdateOutcome
  | .multipartRequest | .multipartRequestEnd =>
    .ok { updater := u, part := mp, calls := [], replies := [] }
  | .partBegin handle => do
    let (u, calls) ← updaterInit u (cstr mp.fileName) handle
    .ok { updater := u, part := { mp with userData := true }, calls, replies := [] }
  | .partData ret =>
    if ¬ updaterActive u ∨ u.status ≠ .ok then
      .ok { updater := u, part := mp, calls := [], replies := [] }
    else
      let (u, calls, l) := updaterWrite u mp.data ret
      -- an `int` to a `size_t`
      .ok { updater := u, part := { mp with numDataConsumed := (l % 2 ^ 64).toNat }, calls
            replies := [] }
  | .partEnd => do
    let (code, args) := partEndReply u mp.fileName
    let reply ← httpPrintfJson code partEndFormat args
    let (u, calls) := updaterFree u
    .ok { updater := u, part := { mp with userData := false }, calls, replies := [reply] }

end AtxSys
