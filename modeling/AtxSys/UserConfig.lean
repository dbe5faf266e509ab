import AtxSys.NetworkManagement

/-!
# The user's configuration at startup

`read_user_config` of `atxsys.c` and the part of `atxsys_create` that writes
`/etc/network/interfaces`. The outcomes of the file operations are arguments, and the file keeps its
content between `stat` and `fread`. Logging is not modelled.
-/

namespace AtxSys

open CText

def networkDefaults : NetConfig where
  meth := bytes "DHCP"
  hn := bytes "LinQM5"
  ip := bytes "192.168.168.168"
  sn := bytes "255.255.255.0"
  gw := bytes "192.168.168.1"

/-- What `stat` finds: a file with its content, `ENOENT`, or another error. -/
inductive Stat where
  | found (content : Bytes)
  | missing
  | failed
  deriving DecidableEq

structure UserIo where
  stat : Stat
  /-- whether the `fopen` that is tried succeeds -/
  opened : Bool
  /-- what `fread` returns -/
  read : Nat
  /-- what `fprintf` returns -/
  printed : Int
  /-- how much of the text is in the file when the stream has been closed -/
  kept : Nat

/-- The outcomes when nothing fails on a file with this content. -/
def UserIo.success (content : Bytes) : UserIo :=
  { stat := .found content, opened := true, read := content.length, printed := 0, kept := 0 }

inductive StreamOp where
  | fopen
  | fclose
  /-- `fclose` of the variable before a stream is assigned to it -/
  | fcloseUnset
  deriving DecidableEq

structure UserConfig (α : Type) where
  ret : Int
  values : NetFields α
  streams : List StreamOp
  /-- what the call wrote to the file, if it created it -/
  created : Option Bytes
  deriving DecidableEq

/-- `sizeof(b)` in `atxsys_create`. -/
def userConfigSize : Nat := 2048

/-- `read_user_config`; `usr` is `c->usr`, and `parse` is the call of `parse_network_config`. -/
def readUserFields {α : Type} (parse : Bytes → Run (Int × NetFields α)) (defaults : NetFields α)
    (usr : Option Bytes) (io : UserIo) : Run (UserConfig α) :=
  if (usr.map cstr).getD [] = [] then
    .ok { ret := -1, values := .unset, streams := [.fcloseUnset], created := none }
  else match io.stat with
  | .found content =>
    if content.length < userConfigSize ∧ io.opened then
      if io.read ≠ content.length then
        .ok { ret := -1, values := .unset, streams := [.fopen, .fclose], created := none }
      else do
        let (err, values) ← parse content
        .ok { ret := if err ≠ 0 then -1 else err, values, streams := [.fopen, .fclose]
              created := none }
    -- `err` is still the 0 of `stat`
    else .ok { ret := 0, values := .unset, streams := [], created := none }
  | .missing =>
    if io.opened then do
      let text ← printNetworkConfig networkDefaults
      .ok { ret := if io.printed ≤ 0 then -1 else 0, values := defaults
            streams := [.fopen, .fclose], created := some (text.take io.kept) }
    else .ok { ret := -1, values := .unset, streams := [], created := none }
  | .failed => .ok { ret := -1, values := .unset, streams := [], created := none }

/-- The variables that `read_user_config` makes point at the defaults. -/
def defaultSlices : NetSlices where
  meth := some (.literal networkDefaults.meth)
  hn := some (.literal networkDefaults.hn)
  ip := some (.literal networkDefaults.ip)
  sn := some (.literal networkDefaults.sn)
  gw := some (.literal networkDefaults.gw)

/-- `read_user_config` with the pointers and lengths that it assigns. -/
def readUserSlices (stack : Stack) (usr : Option Bytes) (io : UserIo) :
    Run (UserConfig JsmnValue) :=
  readUserFields (fun content => parseNetworkSlices stack content .unset) defaultSlices usr io

/-- `read_user_config` with the bytes that a caller finds at its values. -/
def readUserConfig (stack : Stack) (usr : Option Bytes) (io : UserIo) : Run (UserConfig Bytes) :=
  readUserFields (fun content => parseNetworkConfig stack content .unset)
    (.ofConfig networkDefaults) usr io

structure InterfacesIo where
  opened : Bool
  kept : Nat

/-- `/etc/network/interfaces` after `read_user_config` has returned. -/
def interfacesAfter {α : Type} (text : α → Run Bytes) (config : UserConfig α)
    (interfacesIo : InterfacesIo) (interfaces : Option Bytes) : Run (Option Bytes) :=
  if config.ret = 0 ∧ interfacesIo.opened then do
    let values ← config.values.read text
    let text ← printNetworkInterface values
    .ok (some (text.take interfacesIo.kept))
  else .ok interfaces

/-- The bytes in `b`, when a file was read. -/
def UserIo.buffer (io : UserIo) : Bytes :=
  match io.stat with
  | .found content => content
  | .missing | .failed => []

/-- `/etc/network/interfaces` after `atxsys_create` has read the configuration: the values are read
from `b` when they are printed. -/
def atxsysInterfacesSlices (stack : Stack) (usr : Option Bytes) (io : UserIo)
    (interfacesIo : InterfacesIo) (interfaces : Option Bytes) : Run (Option Bytes) := do
  let config ← readUserSlices stack usr io
  interfacesAfter (JsmnValue.text io.buffer) config interfacesIo interfaces

end AtxSys
