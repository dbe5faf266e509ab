import AtxSys.Env
import AtxSys.Http
import AtxSys.Query
import AtxSys.Uboot

/-!
# The environment route

`get` of `http_route_env.c`. The buffers of the function are automatic variables: `key` gets its
text before it is read, and `buffer` holds what the stack held until `env_read` writes to it.
-/

namespace AtxSys

open CText

/-- `sizeof(keyp)`, the size of a pointer. The array `key` has room for more. -/
structure Abi where
  pointerSize : Nat
  hpos : 0 < pointerSize
  hle : pointerSize ≤ 32

/-- `sz` in `get`. -/
def envBufferSize : Nat := 4096

structure EnvBuffer where
  bytes : Bytes
  hsize : bytes.length = envBufferSize

/-- What an access leaves in the buffer. A `snprintf` whose result an `int` can't hold fails, and
leaves what it likes. -/
def BuffAccess.apply (buff : Bytes) : BuffAccess → Run Bytes
  | .store offset c => if offset < buff.length then .ok (buff.set offset c) else .error .text
  | .print offset size text =>
    if 2 ^ 31 ≤ text.length then .error .unset
    else if size = 0 then .ok buff
    else
      let out := text.take (size - 1) ++ [0]
      if offset + out.length ≤ buff.length then
        .ok (buff.take offset ++ (out ++ buff.drop (offset + out.length)))
      else .error .text

def applyAll (buff : Bytes) : List BuffAccess → Run Bytes
  | [] => .ok buff
  | access :: accesses => do
    let buff ← access.apply buff
    applyAll buff accesses

/-- The string in an array, for `%s`. -/
def arrayText (buff : Bytes) : Run Bytes := if 0 ∈ buff then .ok (cstr buff) else .error .text

def envValFormat : Bytes := bytes "\x7b\"val\":\"" ++ (bytes "%s" ++ bytes "\"")

def envErrorFormat : Bytes := bytes "\x7b\"error\":\"" ++ (bytes "%s" ++ bytes "\"")

section Get

variable (abi : Abi) (strstr : MgStrstr) (env : Env) (vars : List (Bytes × Bytes))
  (buffer : EnvBuffer) (q : QueryString)

/-- `key` after the `snprintf` with the size of a pointer. -/
def envKey (keyp keyl : Nat) : Run Bytes := do
  let text ← formatText (bytes "%.*s") [.int keyl, .str (q.text.drop keyp)]
  .ok (text.take (abi.pointerSize - 1))

/-- The branch without a `var`; what `env_read` returns is not looked at. -/
def envGetAll : Run Response := do
  let r ← envRead vars (UInt32.ofNat envBufferSize)
  let buff ← applyAll buffer.bytes r.accesses
  let text ← arrayText buff
  httpPrintfJson 200 (bytes "%s") [.str text]

/-- The first call of `libuboot_iterator`, which goes to the context. -/
def libubootIterator : Run Unit := if env.isOpen then .ok () else .error .context

/-- `get`; both of its branches iterate over the variables. -/
def envGet : Run Response := do
  match ← httpParseQueryStr strstr q (bytes "var") with
  | some (keyp, keyl) =>
    let key ← envKey abi q keyp keyl
    libubootIterator env
    match (envReadVal env key vars).1 with
    | some val => httpPrintfJson 200 envValFormat [.str val]
    | none => httpPrintfJson 404 envErrorFormat [.str (httpErrorMessage 404)]
  | none =>
    libubootIterator env
    envGetAll vars buffer

end Get

end AtxSys
