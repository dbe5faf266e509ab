import AtxSys.Run
import Mathlib.Algebra.Ring.Int.Defs
import Mathlib.Algebra.Ring.Nat

/-!
# Reading the U-Boot environment

`env_read` of `env_uboot.c`. The environment is the list of the names and values that libuboot's
iterator visits. What the function does to the caller's buffer is a list of accesses, in order.
-/

namespace AtxSys

open CText

inductive BuffAccess where
  /-- `buff[offset] = c` -/
  | store (offset : Nat) (c : UInt8)
  /-- `snprintf(&buff[offset], size, …)` of a text -/
  | print (offset size : Nat) (text : Bytes)
  deriving DecidableEq

/-- `sizeof(temp)`. -/
def tempSize : Nat := 128

def apostrophe : UInt8 := 0x27

/-- `temp` after the loop over its quotes. -/
def envTemp (value : Bytes) : Bytes :=
  ((cstr value).take (tempSize - 1)).map fun c => if c = quote then apostrophe else c

def envEntryFormat : Bytes :=
  bytes "\"" ++ (bytes "%s" ++ (bytes "\":\"" ++ (bytes "%s" ++ bytes "\"")))

/-- What `snprintf` returns: the length of the whole text, if an `int` can hold it. -/
def snprintfResult (text : Bytes) : Int := if text.length < 2 ^ 31 then text.length else -1

/-- The loop over the variables; `b` is `*b`. -/
def envLoop (len : UInt32) :
    List (Bytes × Bytes) → UInt32 → List BuffAccess → Run (UInt32 × List BuffAccess)
  | [], b, accesses => .ok (b, accesses)
  | (name, value) :: rest, b, accesses => do
    let text ← formatText envEntryFormat [.str name, .str (envTemp value)]
    let accesses := accesses ++ [.print b.toNat (len - b).toNat text]
    let b := b + UInt32.ofInt (snprintfResult text)
    if rest ≠ [] ∧ b < len then envLoop len rest (b + 1) (accesses ++ [.store b.toNat comma])
    else envLoop len rest b accesses

structure EnvRead where
  ret : Int
  b : UInt32
  accesses : List BuffAccess
  deriving DecidableEq

/-- `env_read`, with `len` for `*b` on entry. -/
def envRead (env : List (Bytes × Bytes)) (len : UInt32) : Run EnvRead := do
  let opening := if len ≠ 0 then [.store 0 lbrace] else []
  let (b, accesses) ← envLoop len env 1 opening
  let (b, accesses) :=
    if b < len then (b + 1, accesses ++ [.store b.toNat rbrace]) else (b, accesses)
  let accesses := if b < len then accesses ++ [.store b.toNat 0] else accesses
  .ok { ret := if b < len then 0 else -1, b, accesses }

end AtxSys
