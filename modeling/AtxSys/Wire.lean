import AtxSys.Routes

/-!
# What a connection carries

The bytes that `c_vprintf` hands to mongoose for the requests of one connection, which stays open
(`keep-alive`). `mg_printf` and `mg_vprintf` send the whole text that they render.
-/

namespace AtxSys

open CText

/-- `HTTP_FORMAT_HEADERS`. -/
def httpFormatHeaders : Bytes :=
  bytes "HTTP/1.0 " ++ (bytes "%d" ++
  (bytes " \r\nServer: Altronix atx-update Embedded Web Server\r\nConnection: " ++ (bytes "%s" ++
  (bytes "\r\nContent-Type: " ++ (bytes "%s" ++
  (bytes "\r\nContent-Length: " ++ (bytes "%d" ++
  (bytes "\r\n" ++ (bytes "%s" ++
  (bytes "X-Frame-Options: SAMEORIGIN\r\n" ++
  bytes "Content-Security-Policy: script-src 'self' 'unsafe-eval';\r\n\r\n"))))))))))

def ConnOp.sent : ConnOp → Run Bytes
  | .headers code contentType contentLength =>
    formatText httpFormatHeaders
      [.int code, .str (bytes "keep-alive"), .str contentType, .int contentLength, .str []]
  | .body text => .ok text

/-- The bytes of some calls, one behind the other. -/
def sentBytes : List ConnOp → Run Bytes
  | [] => .ok []
  | op :: ops => do
    let text ← op.sent
    let rest ← sentBytes ops
    .ok (text ++ rest)

/-- What `ev_handler` writes itself; a file is written by mongoose. -/
def Handled.ops : Handled → List ConnOp
  | .route result => result.ops
  | .file _ => []
  | .notFound response => response.ops

/-- The requests of a connection, each with what its handler finds. -/
def handleAll (http : HttpServer) : List (RouteContext × HttpMessage) → Run (List Handled)
  | [] => .ok []
  | (ctx, m) :: requests => do
    let handled ← evHandler http ctx m
    let rest ← handleAll http requests
    .ok (handled :: rest)

end AtxSys
