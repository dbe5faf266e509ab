import AtxSys.Lib.Getopt
import AtxSys.UserConfig

/-!
# The start

`args_parse` and the settings of `main.c`, and the part of `atxsys_create` that is about names: the
path of the log, the daemon, and the names under which the configuration, the environment, the pages
and the log are opened. A name is opened relative to the working directory of that moment.
-/

namespace AtxSys

open CText Getopt

/-! ### The command line -/

structure AtxsysConfig where
  log : Option Bytes
  env : Option Bytes
  usr : Option Bytes
  port : Option Bytes
  www : Option Bytes
  daemon : Bool
  deriving DecidableEq

/-- `ATX_SYS_HTTP_PORT` -/
def httpPort : Bytes := bytes "8080"

/-- `ATX_SYS_ENV_CONFIG_FILE` -/
def envConfigFile : Bytes := bytes "/etc/fw_env.config"

/-- `ATX_SYS_CONFIG_FILE` -/
def configFile : Bytes := bytes "/etc/atx.config.sys.json"

/-- The settings of `main` before `args_parse`. -/
def mainConfig : AtxsysConfig where
  log := none
  env := some envConfigFile
  usr := some configFile
  port := some httpPort
  www := none
  daemon := false

def optString : Bytes := bytes "lwpehdu?"

/-- A round of the loop of `args_parse`; the error is the code of `print_usage_and_exit`. -/
def argsStep (config : AtxsysConfig) (opt : Opt) : Except Int AtxsysConfig :=
  match opt.char with
  | 0x70 => .ok { config with port := opt.arg } -- p
  | 0x65 => .ok { config with env := opt.arg } -- e
  | 0x75 => .ok { config with usr := opt.arg } -- u
  | 0x64 => .ok { config with daemon := true } -- d
  | 0x6C => .ok { config with log := opt.arg } -- l
  | 0x77 => .ok { config with www := opt.arg } -- w
  | 0x3F | 0x68 => .error 0 -- ? and h
  | _ => .error (-1)

/-- `args_parse` on the elements behind the name of the program. -/
def argsParse (permute : Bool) (config : AtxsysConfig) (argv : List Bytes) :
    Except Int AtxsysConfig :=
  (scan optString permute argv).foldlM argsStep config

/-! ### The names -/

abbrev slash : UInt8 := 0x2F

/-- The working directory in which the program is started. -/
structure WorkingDir where
  path : Bytes
  habsolute : path.head? = some slash
  htext : 0 ∉ path

/-- The path that a name stands for in a working directory, as a string: two paths of one file, with
`..` or through a link, are two. -/
def resolve (dir name : Bytes) : Bytes :=
  if (cstr name).head? = some slash then cstr name else dir ++ slash :: cstr name

/-- `sizeof(b)` in `atxsys_create`. -/
def logPathSize : Nat := 2048

/-- `getcwd(b, sizeof(b))`; on failure the content of `b` is undefined. -/
def getcwd (cwd : WorkingDir) : Run Bytes :=
  if cwd.path.length < logPathSize then .ok cwd.path else .error .unset

/-- `b` after the normalization of the path of the log. -/
def logPath (cwd : WorkingDir) : Option Bytes → Run Bytes
  | none => .ok []
  | some log => do
    let log ← formatText (bytes "%s") [.str log]
    if log.head? = some slash ∨ log.head? = some backslash then
      .ok (log.take (logPathSize - 1))
    else
      let b ← getcwd cwd
      -- compared with half of the array
      let b := if b.length < logPathSize - b.length then b ++ [slash] else b
      .ok (b ++ log.take (logPathSize - b.length - 1))

/-- What `fork`, `setsid` and `chdir` return. -/
structure DaemonIo where
  fork : Int
  setsid : Int
  chdir : Int

/-- The working directory behind `if (c->daemon)`, in the process that goes on. -/
def daemonDir (cwd : WorkingDir) (io : DaemonIo) (daemon : Bool) : Run Bytes :=
  if daemon then
    if io.fork ≠ 0 ∨ io.setsid < 0 ∨ io.chdir < 0 then .error .exit else .ok [slash]
  else .ok cwd.path

/-- The paths that the names of the settings stand for where they are used. -/
structure Opened where
  /-- by `read_user_config` -/
  usr : Option Bytes
  /-- by `fopen` with `"a+"` -/
  log : Option Bytes
  /-- by `env_init` -/
  env : Bytes
  /-- by the routes, as `http->network_config` -/
  networkConfig : Option Bytes
  /-- by `http_serve` -/
  www : Option Bytes
  deriving DecidableEq

def atxsysOpened (c : AtxsysConfig) (cwd : WorkingDir) (io : DaemonIo) : Run Opened := do
  let b ← logPath cwd c.log
  let dir ← daemonDir cwd io c.daemon
  .ok { usr := c.usr.map (resolve cwd.path)
        log := if b = [] then none else some (resolve dir b)
        env := resolve dir (c.env.getD envConfigFile)
        networkConfig := c.usr.map (resolve dir)
        www := c.www.map (resolve dir) }

end AtxSys
