import AtxSys.Run

/-!
# Responses

What `http.c` writes to a connection: the arguments of `HTTP_FORMAT_HEADERS` and the body after the
headers. Bodies are shorter than 2^31 bytes, where the length `vsnprintf` returns is exact.
-/

namespace AtxSys

open CText

def httpErrorCode (e : Int) : Nat :=
  if e = -1 then 400
  else if e = 0 then 200
  else if e = 200 ∨ e = 400 ∨ e = 403 ∨ e = 404 ∨ e = 500 ∨ e = 504 then e.toNat
  else 0

def httpErrorMessage (e : Int) : Bytes :=
  let code := httpErrorCode e
  if code = 200 then bytes "ok"
  else if code = 400 then bytes "client error"
  else if code = 403 then bytes "authorization error"
  else if code = 404 then bytes "not found"
  else if code = 500 then bytes "server error"
  else if code = 504 then bytes "try again later"
  else bytes "server error"

structure Response where
  code : Nat
  contentType : Bytes
  contentLength : Nat
  body : Bytes
  deriving DecidableEq

/-- `http_printf_json`: the format is rendered once for the length, and once more as the body. -/
def httpPrintfJson (code : Nat) (fmt : Bytes) (args : List Arg) : Run Response := do
  let text ← formatText (cstr fmt) args
  .ok { code, contentType := bytes "application/json", contentLength := text.length, body := text }

end AtxSys
