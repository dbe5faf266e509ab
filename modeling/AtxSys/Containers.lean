import AtxSys.Khash
import AtxSys.Routes

/-!
# Maps and the routes of the server

`MAP_INIT` of `containers.h` over the hash table, and what `http.c` keeps in the map of its routes.
A pointer to a value of a map is the bucket of the value. A key is the string that the caller's
pointer points to; it stays as it is while the map is used.
-/

namespace AtxSys

open CText

/-! ### Maps -/

section Map

variable {κ ν : Type} [DecidableEq κ] (hash : κ → BitVec 32)

def khExist (h : Khash κ ν) (x : Nat) : Kh Bool := do
  let either ← acIsEither h.flags x
  .ok (!either)

def mapCreate : Khash κ ν := khInit

/-- `kh_val`; a value that was not written is not read. -/
def khVal (h : Khash κ ν) (x : Nat) : Kh ν := readKey h.vals x

def mapAdd (alloc : KhAlloc) (nodes : Khash κ ν) (key : κ) (node : ν) : Kh (Nat × Khash κ ν) := do
  let (k, ret, nodes) ← khPut hash alloc nodes key
  if ret < 0 then .error .abort
  else
    let vals ← writeAt nodes.vals k (some node)
    .ok (k, { nodes with vals })

/-- `map_remove_iter`: the value that goes to `map_free_fn`, and the map. -/
def mapRemoveIter (nodes : Khash κ ν) (k : Nat) : Kh (ν × Khash κ ν) := do
  let d ← khVal nodes k
  let nodes ← khDel nodes k
  .ok (d, nodes)

def mapRemove (nodes : Khash κ ν) (serial : κ) : Kh (Option ν × Khash κ ν) := do
  let k ← khGet hash nodes serial
  if k = nodes.nBuckets then .ok (none, nodes)
  else
    let (d, nodes) ← mapRemoveIter nodes k
    .ok (some d, nodes)

def mapGet (nodes : Khash κ ν) (serial : κ) : Kh (Option Nat) := do
  let k ← khGet hash nodes serial
  .ok (if k = nodes.nBuckets then none else some k)

def mapSize (nodes : Khash κ ν) : Nat := nodes.size

/-- The loop of `map_foreach`, with the number of rounds that are left. -/
def foreachLoop {σ : Type} (fn : σ → κ → Nat → σ) (nodes : Khash κ ν) : Nat → σ → Kh σ
  | 0, ctx => .ok ctx
  | left + 1, ctx => do
    let k := nodes.nBuckets - (left + 1)
    if ← khExist nodes k then
      let key ← readKey nodes.keys k
      foreachLoop fn nodes left (fn ctx key k)
    else foreachLoop fn nodes left ctx

def mapForeach {σ : Type} (fn : σ → κ → Nat → σ) (nodes : Khash κ ν) (ctx : σ) : Kh σ :=
  foreachLoop fn nodes nodes.nBuckets ctx

/-- The loop of `map_destroy`: the values that go to `map_free_fn`. -/
def destroyLoop (nodes : Khash κ ν) : Nat → List ν → Kh (List ν)
  | 0, freed => .ok freed
  | left + 1, freed => do
    let k := nodes.nBuckets - (left + 1)
    if ← khExist nodes k then
      let d ← khVal nodes k
      destroyLoop nodes left (freed ++ [d])
    else destroyLoop nodes left freed

def mapDestroy (nodes : Khash κ ν) : Kh (List ν) := destroyLoop nodes nodes.nBuckets []

/-! ### Calls -/

/-- The calls on a map, with what the allocations do in them. -/
inductive MapCall (κ ν : Type) where
  | add (alloc : KhAlloc) (key : κ) (node : ν)
  | remove (serial : κ)
  | get (serial : κ)
  | size
  | foreach
  | clear
  | resize (alloc : KhAlloc) (newNBuckets : Nat)

/-- What the caller sees of a call. -/
inductive MapResult (κ ν : Type) where
  | done
  | freed (node : Option ν)
  | found (node : Option ν)
  | count (n : Nat)
  | visited (keys : List κ)
  | resized (ret : Int)

def mapCall (nodes : Khash κ ν) : MapCall κ ν → Kh (MapResult κ ν × Khash κ ν)
  | .add alloc key node => do
    let (_, nodes) ← mapAdd hash alloc nodes key node
    .ok (.done, nodes)
  | .remove serial => do
    let (node, nodes) ← mapRemove hash nodes serial
    .ok (.freed node, nodes)
  | .get serial => do
    match ← mapGet hash nodes serial with
    | none => .ok (.found none, nodes)
    | some k =>
      let node ← khVal nodes k
      .ok (.found (some node), nodes)
  | .size => .ok (.count (mapSize nodes), nodes)
  | .foreach => do
    let keys ← mapForeach (fun keys key _ => keys ++ [key]) nodes []
    .ok (.visited keys, nodes)
  | .clear => .ok (.done, khClear nodes)
  | .resize alloc newNBuckets => do
    let (ret, nodes) ← khResize hash alloc nodes newNBuckets
    .ok (.resized ret, nodes)

/-- One call after the other. -/
def mapCalls (nodes : Khash κ ν) : List (MapCall κ ν) → Kh (List (MapResult κ ν) × Khash κ ν)
  | [] => .ok ([], nodes)
  | call :: calls => do
    let (result, nodes) ← mapCall hash nodes call
    let (results, nodes) ← mapCalls nodes calls
    .ok (result :: results, nodes)

end Map

/-! ### The routes -/

section Routes

variable {ρ : Type} (hash : CString → BitVec 32)

/-- A `route_context` that `http_use` allocated: the number of its block, and what is written there.
-/
abbrev RouteBlock (ρ : Type) := Nat × ρ

/-- What of `http_s` belongs to the routes, and how many blocks `http_use` has allocated. -/
structure HttpRoutes (ρ : Type) where
  allocated : Nat
  routes : Khash CString (RouteBlock ρ)

def httpRoutesInit : HttpRoutes ρ := { allocated := 0, routes := mapCreate }

/-- A call of `http_use` with the outcomes of its allocations. -/
structure Use (ρ : Type) where
  path : CString
  route : ρ
  malloc : Bool
  alloc : KhAlloc

def httpUse (http : HttpRoutes ρ) (use : Use ρ) : Kh (HttpRoutes ρ) := do
  if !use.malloc then .error .abort
  else
    let (_, routes) ← mapAdd hash use.alloc http.routes use.path (http.allocated, use.route)
    .ok { allocated := http.allocated + 1, routes }

/-- One call after the other. -/
def httpUses (http : HttpRoutes ρ) : List (Use ρ) → Kh (HttpRoutes ρ)
  | [] => .ok http
  | use :: uses => do
    let http ← httpUse hash http use
    httpUses http uses

/-- `foreach_route_check_path`; the pointer to a route is its bucket. -/
def checkPath (path : CString) (found : Option Nat) (testPath : CString) (k : Nat) : Option Nat :=
  foreachRouteCheckPath path.1 found (testPath.1, k)

/-- `resolve_route` for the text in `path`, and the route that `process_route` reads. -/
def resolvePath (http : HttpRoutes ρ) (path : CString) : Kh (Option (RouteBlock ρ)) := do
  let found ← mapGet hash http.routes path
  let found ← match found with
    | some k => .ok (some k)
    | none => mapForeach (checkPath path) http.routes none
  match found with
  | none => .ok none
  | some k =>
    let route ← khVal http.routes k
    .ok (some route)

/-- What `http_deinit` frees of the routes. -/
def httpRoutesDeinit (http : HttpRoutes ρ) : Kh (List (RouteBlock ρ)) := mapDestroy http.routes

end Routes

end AtxSys
