import AtxSys.Run

/-!
# The U-Boot context

`env_uboot.c` as the calls it makes on libuboot, from `env_init` to `env_deinit`. A context is a
number, and a pointer to one is `none` where it is NULL. A call carries what it returned.
-/

namespace AtxSys

open CText

inductive UbootOp where
  /-- with the context that it created -/
  | libubootInitialize (created : Option Nat)
  | libubootReadConfig (ctx : Option Nat) (ret : Int)
  | libubootOpen (ctx : Option Nat) (ret : Int)
  | libubootIterator (ctx : Option Nat)
  | libubootClose (ctx : Option Nat)
  | libubootExit (ctx : Option Nat)
  deriving DecidableEq

/-- `env_s`. -/
structure Env where
  ctx : Option Nat
  valid : Bool
  deriving DecidableEq

/-- `env_init` opened the context. -/
def Env.isOpen (env : Env) : Bool := env.valid && env.ctx.isSome

/-- What `libuboot_initialize`, `libuboot_read_config` and `libuboot_open` return, and the context
that the first one creates unless it fails. -/
structure UbootIo where
  libubootInitialize : Int
  ctx : Nat
  libubootReadConfig : Int
  libubootOpen : Int

def envInit (io : UbootIo) : Int × Env × List UbootOp :=
  let ret := io.libubootInitialize
  if ret < 0 then (ret, { ctx := none, valid := false }, [.libubootInitialize none])
  else
    let ctx := some io.ctx
    let ret := io.libubootReadConfig
    let ops : List UbootOp := [.libubootInitialize ctx, .libubootReadConfig ctx ret]
    if ret < 0 then (ret, { ctx, valid := false }, ops ++ [.libubootExit ctx])
    else
      let ret := io.libubootOpen
      let ops := ops ++ [.libubootOpen ctx ret]
      if ret < 0 then (ret, { ctx, valid := false }, ops ++ [.libubootExit ctx])
      else (ret, { ctx, valid := true }, ops)

def envDeinit (env : Env) : Env × List UbootOp :=
  ({ ctx := none, valid := false },
    if env.valid then [.libubootClose env.ctx, .libubootExit env.ctx] else [])

/-- The calls of `env_read` on the variables that the iterator visits. -/
def envReadOps (env : Env) (vars : List (Bytes × Bytes)) : List UbootOp :=
  List.replicate (vars.length + 1) (.libubootIterator env.ctx)

/-- `env_read_val`: the value, `none` for NULL, and the calls. -/
def envReadVal (env : Env) (key : Bytes) : List (Bytes × Bytes) → Option Bytes × List UbootOp
  | [] => (none, [.libubootIterator env.ctx])
  | (name, value) :: vars =>
    if cstr name = cstr key then (some value, [.libubootIterator env.ctx])
    else
      let (ret, ops) := envReadVal env key vars
      (ret, .libubootIterator env.ctx :: ops)

/-! ### A life of the environment -/

inductive EnvRequest where
  /-- a GET of the environment with the buffer `key`, if the query has a `var`, and the variables
  that the iterator visits -/
  | get (key : Option Bytes) (vars : List (Bytes × Bytes))
  | poll

/-- The calls of `get` of `http_route_env.c`; `http_poll` makes none. -/
def EnvRequest.ops (env : Env) : EnvRequest → List UbootOp
  | .get none vars => envReadOps env vars
  | .get (some key) vars => (envReadVal env key vars).2
  | .poll => []

/-- `env_init`, requests, and `env_deinit`. -/
def envLife (io : UbootIo) (requests : List EnvRequest) : List UbootOp :=
  let (_, env, ops) := envInit io
  ops ++ (requests.flatMap (EnvRequest.ops env) ++ (envDeinit env).2)

end AtxSys
