import AtxSys.Json

/-!
# Network configuration

`network_management.c`: the two texts it prints, `/etc/network/interfaces` and the configuration
file, and the reader of the latter. A `jsmn_value` is a pointer and a length; where it matters what
can be read there, it is the bytes themselves. A token array is an automatic variable: behind the
slots that jsmn filled it holds what the stack held, and behind the array nothing may be read.
-/

namespace AtxSys

open CText

/-- What a call finds on the stack, and the frames of `json_next` that fit on it. -/
structure Stack where
  junk : Nat → JsmnTok
  depth : Nat
  hdepth : 256 ≤ depth

/-- The memory of `jsmntok_t toks[n]` after jsmn filled the first slots. -/
def tokArray (n : Nat) (toks : List JsmnTok) (stack : Stack) : TokMem :=
  fun i => if i < n then withJunk toks stack.junk i else none

/-! ### The values -/

structure NetConfig where
  meth : Bytes
  ip : Bytes
  sn : Bytes
  gw : Bytes
  hn : Bytes
  deriving DecidableEq

/-- Five variables, some of them not assigned yet. -/
structure NetFields (α : Type) where
  meth : Option α
  ip : Option α
  sn : Option α
  gw : Option α
  hn : Option α
  deriving DecidableEq

/-- Five variables of type `jsmn_value`. -/
abbrev NetSlices := NetFields JsmnValue

/-- The same variables, each by the bytes it delimits. -/
abbrev NetValues := NetFields Bytes

namespace NetFields

variable {α : Type}

def unset : NetFields α := ⟨none, none, none, none, none⟩

/-- The values, when a caller reads them. -/
def read (text : α → Run Bytes) (v : NetFields α) : Run NetConfig :=
  match v with
  | ⟨some meth, some ip, some sn, some gw, some hn⟩ => do
    let meth ← text meth
    let ip ← text ip
    let sn ← text sn
    let gw ← text gw
    let hn ← text hn
    .ok { meth, ip, sn, gw, hn }
  | _ => .error .unset

def ofConfig (c : NetConfig) : NetValues :=
  ⟨some c.meth, some c.ip, some c.sn, some c.gw, some c.hn⟩

end NetFields

/-! ### Printing -/

def interfacesHeader : Bytes :=
  bytes "# This file is generated by altronix atx-sys program.\n" ++
  bytes "# This file will be overwritten on startup.\n" ++
  bytes "# To configure the network please consult atx-sys.\n\n"

def interfacesCommon : Bytes :=
  bytes "auto lo\n" ++
  bytes "iface lo inet loopback\n\n" ++
  bytes "iface eth0 inet static\n" ++
  bytes "  address 127.0.0.1\n" ++
  bytes "  netmask 255.255.255.0\n\n"

def interfacesStatic : Bytes :=
  bytes "iface eth0.10 inet static\n  address " ++ (bytes "%.*s" ++
  (bytes "\n  netmask " ++ (bytes "%.*s" ++
  (bytes "\n  gateway " ++ (bytes "%.*s" ++
  (bytes "\n  pre-up /etc/network/nfs_check\n  wait-delay 15\n  hostname " ++ (bytes "%.*s" ++
  bytes "\n\n")))))))

def interfacesDhcp : Bytes :=
  bytes "iface eth0.10 inet dhcp\n  pre-up /etc/network/nfs_check\n  wait-delay 15\n  hostname " ++
  (bytes "%.*s" ++ bytes "\n\n")

def interfacesDeviceLan : Bytes :=
  bytes "iface eth0.20 inet static\n" ++
  bytes "  address 192.168.168.100\n" ++
  bytes "  netmask 255.255.255.0\n"

/-- The condition of `print_network_interface`: `strncmp` looks at `meth->len` bytes, so it also
takes a method that the keyword begins with. -/
def methIsDhcp (meth : Bytes) : Bool :=
  strncmpEq meth (bytes "DHCP") meth.length || strncmpEq meth (bytes "dhcp") meth.length ||
    strncmpEq meth (bytes "Dhcp") meth.length

/-- What `print_network_interface` gives to the stream. -/
def printNetworkInterface (c : NetConfig) : Run Bytes :=
  if methIsDhcp c.meth then
    formatText (interfacesHeader ++ (interfacesCommon ++ (interfacesDhcp ++ interfacesDeviceLan)))
      [.int c.hn.length, .str c.hn]
  else
    formatText (interfacesHeader ++ (interfacesCommon ++ (interfacesStatic ++ interfacesDeviceLan)))
      [.int c.ip.length, .str c.ip, .int c.sn.length, .str c.sn, .int c.gw.length, .str c.gw,
        .int c.hn.length, .str c.hn]

def networkManagementJsonFormat : Bytes :=
  bytes "\x7b\"ipv4\":\x7b\"meth\":\"" ++ (bytes "%.*s" ++
  (bytes "\",\"hn\":\"" ++ (bytes "%.*s" ++
  (bytes "\",\"ip\":\"" ++ (bytes "%.*s" ++
  (bytes "\",\"sn\":\"" ++ (bytes "%.*s" ++
  (bytes "\",\"gw\":\"" ++ (bytes "%.*s" ++
  bytes "\"\x7d\x7d")))))))))

/-- What `print_network_config` gives to the stream. -/
def printNetworkConfig (c : NetConfig) : Run Bytes :=
  formatText networkManagementJsonFormat
    [.int c.meth.length, .str c.meth, .int c.hn.length, .str c.hn, .int c.ip.length, .str c.ip,
      .int c.sn.length, .str c.sn, .int c.gw.length, .str c.gw]

structure NetToks where
  meth : Nat
  ip : Nat
  sn : Nat
  gw : Nat
  hn : Nat

/-- The values of `print_network_config_toks`. -/
def networkConfigToks (buffer : Bytes) (mem : TokMem) (t : NetToks) : Run NetConfig := do
  let meth ← jsonTokValue buffer mem t.meth
  let ip ← jsonTokValue buffer mem t.ip
  let sn ← jsonTokValue buffer mem t.sn
  let gw ← jsonTokValue buffer mem t.gw
  let hn ← jsonTokValue buffer mem t.hn
  .ok { meth, ip, sn, gw, hn }

/-! ### Parsing -/

section Parse

variable {α : Type}

/-- A guide with the variable that takes what it leads to. -/
structure Tag (α : Type) where
  key : Bytes
  assign : NetFields α → α → NetFields α

def networkTags : List (Tag α) :=
  [⟨bytes ".ipv4.ip", fun v s => { v with ip := some s }⟩,
    ⟨bytes ".ipv4.sn", fun v s => { v with sn := some s }⟩,
    ⟨bytes ".ipv4.gw", fun v s => { v with gw := some s }⟩,
    ⟨bytes ".ipv4.meth", fun v s => { v with meth := some s }⟩,
    ⟨bytes ".ipv4.hn", fun v s => { v with hn := some s }⟩]

/-- The loop over the tags, which stops at the first one without a token; `value` is what becomes
of a token. -/
def tagLoop (mem : TokMem) (buff : Bytes) (depth : Nat) (value : Nat → Run α) :
    List (Tag α) → NetFields α → Run (Int × NetFields α)
  | [], v => .ok (0, v)
  | tag :: tags, v => do
    match ← jsonDelve mem buff depth 0 tag.key with
    | none => .ok (-1, v)
    | some tok =>
      let s ← value tok
      tagLoop mem buff depth value tags (tag.assign v s)

/-- `sizeof(toks) / sizeof(*toks)` in `parse_network_config`. -/
def configToks : Nat := 128

/-- `parse_network_config`: what it returns, and the variables after the call. -/
def parseNetworkFields (value : TokMem → Nat → Run α) (stack : Stack) (buff : Bytes)
    (v : NetFields α) : Run (Int × NetFields α) :=
  match jsmnParse buff configToks with
  | .error _ => .ok (-1, v)
  | .ok p =>
    if p.count = 0 then .ok (-1, v)
    else
      let mem := tokArray configToks p.toks stack
      tagLoop mem buff stack.depth (value mem) networkTags v

end Parse

/-- `parse_network_config` with the pointers and lengths that it assigns. -/
def parseNetworkSlices (stack : Stack) (buff : Bytes) (v : NetSlices) : Run (Int × NetSlices) :=
  parseNetworkFields jsonTokSlice stack buff v

/-- `parse_network_config` with the bytes that a caller finds at its values. -/
def parseNetworkConfig (stack : Stack) (buff : Bytes) (v : NetValues) : Run (Int × NetValues) :=
  parseNetworkFields (jsonTokValue buff) stack buff v

end AtxSys
