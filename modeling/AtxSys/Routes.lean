import AtxSys.EnvRoute
import AtxSys.NetworkRoute

/-!
# Requests

`ev_handler` of `http.c` for an HTTP request: the route that takes it, the handlers of
`http_listen`, and the files. A handler of an application is a function. Logging is not modelled.
-/

namespace AtxSys

open CText

/-! ### A request -/

inductive HttpMethod where
  | get
  | post
  | put
  | delete
  deriving DecidableEq

/-- `struct http_message`. Its body is shorter than 2^32 bytes. -/
structure HttpMessage where
  method : Bytes
  uri : Bytes
  query : QueryString
  body : Bytes

/-- `m->method.p[i]`; behind the method there is a space. -/
def HttpMessage.methodByte (m : HttpMessage) (i : Nat) : UInt8 := (m.method[i]?).getD space

/-- The bytes `P`, `U` and `D` decide. -/
def getMethod (m : HttpMessage) : HttpMethod :=
  if m.methodByte 0 = 0x50 then if m.methodByte 1 = 0x55 then .put else .post
  else if m.methodByte 0 = 0x44 then .delete
  else .get

/-! ### A connection -/

/-- What `c_vprintf` sends. -/
inductive ConnOp where
  | headers (code : Int) (contentType : Bytes) (contentLength : Int)
  | body (text : Bytes)
  deriving DecidableEq

/-- The headers announce what the first `vsnprintf` returned. -/
def Response.ops (r : Response) : List ConnOp :=
  [.headers r.code r.contentType (snprintfResult r.body), .body r.body]

/-! ### The handlers -/

/-- What a handler finds: the environment, the stack, the configuration file and the outcomes of
the operations on it. -/
structure RouteContext where
  abi : Abi
  strstr : MgStrstr
  env : Env
  vars : List (Bytes × Bytes)
  buffer : EnvBuffer
  stack : Stack
  file : Option Bytes
  getIo : GetIo
  /-- `n + 1` is an `int` -/
  hint : getIo.available + 1 < 2 ^ 31
  putIo : PutIo

structure RouteResult where
  ops : List ConnOp
  file : Option Bytes
  shutdown : Bool
  deriving DecidableEq

namespace RouteContext

variable (ctx : RouteContext)

def silent : RouteResult := { ops := [], file := ctx.file, shutdown := false }

def respond (response : Response) : RouteResult := { ctx.silent with ops := response.ops }

end RouteContext

section Handlers

variable (ctx : RouteContext) (m : HttpMessage)

/-- `post`, `put` and `del` have no statements. -/
def routeEnv : Run RouteResult :=
  match getMethod m with
  | .get => do
    let response ← envGet ctx.abi ctx.strstr ctx.env ctx.vars ctx.buffer m.query
    .ok (ctx.respond response)
  | .put | .post | .delete => .ok ctx.silent

def routeNetwork : Run RouteResult :=
  match getMethod m with
  | .get => do
    let response ← networkGet ctx.file ctx.getIo
    .ok (ctx.respond response)
  | .put | .post => do
    let r ← networkPut ctx.stack m.body ctx.putIo ctx.file
    .ok { ctx.respond r.response with file := r.file }
  | .delete => .ok ctx.silent

/-- `sizeof(resp)`. -/
def killSize : Nat := 256

def killFormat : Bytes :=
  bytes "\x7b\"error\":200,\"message\":\"" ++ (bytes "%s" ++ bytes "\"\x7d")

/-- The text in `resp` is passed as the format. -/
def routeKill : Run RouteResult := do
  let text ← formatText killFormat [.str (httpErrorMessage 200)]
  let response ← httpPrintfJson 200 (text.take (killSize - 1)) []
  .ok { ctx.respond response with shutdown := true }

def aboutFormat : Bytes :=
  bytes "\x7b" ++
  bytes "\"sid\":\"%s\"," ++
  bytes "\"product\":\"%s\"," ++
  bytes "\"prjVersion\":\"%s\"," ++
  bytes "\"atxVersion\":\"%s\"," ++
  bytes "\"webVersion\":\"%s\"," ++
  bytes "\"mac\":\"%s\"," ++
  bytes "\x7d"

def routeAbout : Run RouteResult := do
  let response ← httpPrintfJson 200 aboutFormat
    [.str (bytes "linqm5serialnumberhere"), .str (bytes "linqm5"), .str (bytes "0.0.1"),
      .str (bytes "0.0.1"), .str (bytes "0.0.1"), .str (bytes "00:00:00:00:00:00")]
  .ok (ctx.respond response)

/-- The routes that `http_listen` registers with `http_use`. -/
inductive ApiRoute where
  | env
  | network
  | kill
  | about
  deriving DecidableEq

def listenRoutes : List (Bytes × ApiRoute) :=
  [(bytes "/api/v1/env", .env), (bytes "/api/v1/network", .network),
    (bytes "/api/v1/kill", .kill), (bytes "/api/v1/about", .about)]

/-- The call of `cb`. -/
def ApiRoute.handle (route : ApiRoute) : Run RouteResult :=
  match route with
  | .env => routeEnv ctx m
  | .network => routeNetwork ctx m
  | .kill => routeKill ctx
  | .about => routeAbout ctx

/-- A route of the program, or one of an application with its own `cb`. -/
inductive Route where
  | api (route : ApiRoute)
  | other (cb : RouteContext → HttpMessage → Run RouteResult)

def processRoute (route : Route) : Run RouteResult :=
  match route with
  | .api route => route.handle ctx m
  | .other cb => cb ctx m

end Handlers

/-! ### The table -/

section Table

variable {ρ : Type}

/-- The map of the routes, in the order in which `routes_map_foreach` visits it. -/
structure RouteTable (ρ : Type) where
  entries : List (Bytes × ρ)
  hkeys : ∀ e ∈ entries, 0 ∉ e.1
  hnodup : (entries.map Prod.fst).Nodup

/-- `routes_map_get`. -/
def RouteTable.get (routes : RouteTable ρ) (path : Bytes) : Option ρ :=
  (routes.entries.find? fun e => e.1 = path).map Prod.snd

/-- The conditions of `foreach_route_check_path`. -/
def wildcardMatches (testPath path : Bytes) : Bool :=
  let tlen := testPath.length
  (4 ≤ tlen && testPath.drop (tlen - 4) = bytes "/...") &&
    (tlen < path.length && testPath.take (tlen - 4) = path.take (tlen - 4))

def foreachRouteCheckPath (path : Bytes) (found : Option ρ) (entry : Bytes × ρ) : Option ρ :=
  match found with
  | some route => some route
  | none => if wildcardMatches entry.1 path then some entry.2 else none

/-- `sizeof(path)` in `resolve_route`. -/
def pathSize : Nat := 128

def resolveRoute (routes : RouteTable ρ) (uri : Bytes) : Run (Option ρ) :=
  if pathSize ≤ uri.length then .error .abort
  else do
    let text ← formatText (bytes "%.*s") [.int uri.length, .str uri]
    let path := text.take (pathSize - 1)
    match routes.get path with
    | some route => .ok (some route)
    | none => .ok (routes.entries.foldl (foreachRouteCheckPath path) none)

end Table

/-! ### Files -/

/-- What `process_file` calls: the path that `mg_parse_uri` finds, and whether `stat` succeeds. -/
structure FileCalls where
  parseUri : Bytes → Option Bytes
  stat : Bytes → Bool

inductive Served where
  | nothing
  /-- `mg_http_serve_file` with this name -/
  | file (name : Bytes)
  /-- `mg_serve_http` -/
  | tree
  deriving DecidableEq

/-- `sizeof(b)` in `process_file`. -/
def fileNameSize : Nat := 512

def processFile (calls : FileCalls) (root uri : Bytes) : Run Served :=
  match calls.parseUri uri with
  | none => .ok .nothing
  | some path => do
    let b ← formatText (bytes "%s" ++ bytes "%.*s") [.str root, .int path.length, .str path]
    if calls.stat (b.take (fileNameSize - 1)) then .ok .tree
    else
      let b ← formatText (bytes "%s" ++ bytes "%s") [.str root, .str (bytes "/index.html")]
      .ok (.file (b.take (fileNameSize - 1)))

/-! ### The event -/

/-- What of `http_s` an HTTP request reads. -/
structure HttpServer where
  routes : RouteTable Route
  documentRoot : Option Bytes
  calls : FileCalls

inductive Handled where
  | route (result : RouteResult)
  | file (served : Served)
  | notFound (response : Response)

def notFoundFormat : Bytes :=
  bytes "\x7b\"error\":\"" ++ (bytes "%s" ++ bytes "\"\x7d")

/-- `ev_handler` for `MG_EV_HTTP_REQUEST`. `c_printf_json` and `http_printf_json` are the same. -/
def evHandler (http : HttpServer) (ctx : RouteContext) (m : HttpMessage) : Run Handled := do
  match ← resolveRoute http.routes m.uri with
  | some route =>
    let result ← processRoute ctx m route
    .ok (.route result)
  | none =>
    match http.documentRoot with
    | some root =>
      let served ← processFile http.calls root m.uri
      .ok (.file served)
    | none =>
      let response ← httpPrintfJson 404 notFoundFormat [.str (bytes "not found")]
      .ok (.notFound response)

end AtxSys
