import AtxSys.Json
import AtxSys.Lib.Strtoull

/-!
# Numbers of a document

The readers of `json.c` that convert the text of a token with `strtoull`. `errno` is read after the
conversion without having been cleared before it, so its value on entry is an argument here. So is
what the variables behind the pointers hold: `n` what the caller's holds, and `junk` what the local
variable of a narrow reader holds before anything is stored in it.
-/

namespace AtxSys

open CText

/-- The width of `long`. A `long long` has 64 bits. -/
structure LongWidth where
  bits : Nat
  hmin : 32 ≤ bits
  hmax : bits ≤ 64

/-- `LONG_MAX` -/
def LongWidth.max (long : LongWidth) : Int := 2 ^ (long.bits - 1) - 1

/-- `LONG_MIN` -/
def LongWidth.min (long : LongWidth) : Int := -2 ^ (long.bits - 1)

/-- `ERANGE` -/
def erange : Int := 34

/-- What a reader leaves: its result, the number behind its pointer, and `errno`. -/
structure Reading (w : Nat) where
  ret : Int
  n : BitVec w
  errno : Int
  deriving DecidableEq

/-- `strtoull(buf + start, &end, 0)` -/
def convertAt (buffer : Bytes) (start : Int) : Run Conversion :=
  if 0 ≤ start ∧ start ≤ buffer.length then .ok (strtoull (buffer.drop start.toNat))
  else .error .text

/-- The common body of `json_to_u64` and `json_to_s64`; `limit` holds of the results they take for an
overflow when `errno` is `ERANGE`. -/
def jsonTo64 (limit : BitVec 64 → Bool) (buffer : Bytes) (tok : JsmnTok) (errno : Int)
    (n : BitVec 64) : Run (Reading 64) := do
  let c ← convertAt buffer tok.start
  let errno := if c.range then erange else errno
  -- `return false`, with nothing stored
  if tok.start + c.length ≠ tok.stop then .ok { ret := 0, n, errno }
  else
    let l := BitVec.ofNat 64 c.value
    let n := l
    if limit l ∧ errno = erange then .ok { ret := -1, n, errno }
    else .ok { ret := if n = l then 0 else -1, n, errno }

/-- The limit is `ULLONG_MAX`. -/
def jsonToU64 (buffer : Bytes) (tok : JsmnTok) (errno : Int) (n : BitVec 64) : Run (Reading 64) :=
  jsonTo64 (fun l => l == BitVec.allOnes 64) buffer tok errno n

/-- The limits are `LONG_MAX` and `LONG_MIN`, which the comparison with `l` converts to its type. -/
def jsonToS64 (long : LongWidth) (buffer : Bytes) (tok : JsmnTok) (errno : Int) (n : BitVec 64) :
    Run (Reading 64) :=
  jsonTo64 (fun l => l == BitVec.ofInt 64 long.max || l == BitVec.ofInt 64 long.min) buffer tok
    errno n

/-- The common body of the narrow readers: `read` fills the local variable, and `widen` is the
conversion that the comparison makes. -/
def jsonToNarrow {w : Nat} (read : BitVec 64 → Run (Reading 64)) (widen : BitVec w → BitVec 64)
    (junk : BitVec 64) (ret : BitVec w) : Run (Reading w) := do
  let x ← read junk
  if x.ret ≠ 0 then .ok { ret := -1, n := ret, errno := x.errno }
  else
    let ret := x.n.setWidth w
    .ok { ret := if widen ret = x.n then 0 else -1, n := ret, errno := x.errno }

def makeJsonToU {w : Nat} (buffer : Bytes) (tok : JsmnTok) (errno : Int) (junk : BitVec 64)
    (ret : BitVec w) : Run (Reading w) :=
  jsonToNarrow (jsonToU64 buffer tok errno) (fun n => n.setWidth 64) junk ret

def makeJsonToS {w : Nat} (long : LongWidth) (buffer : Bytes) (tok : JsmnTok) (errno : Int)
    (junk : BitVec 64) (ret : BitVec w) : Run (Reading w) :=
  jsonToNarrow (jsonToS64 long buffer tok errno) (fun n => n.signExtend 64) junk ret

def jsonToU32 (buffer : Bytes) (tok : JsmnTok) (errno : Int) (junk : BitVec 64)
    (ret : BitVec 32) : Run (Reading 32) := makeJsonToU buffer tok errno junk ret

def jsonToU16 (buffer : Bytes) (tok : JsmnTok) (errno : Int) (junk : BitVec 64)
    (ret : BitVec 16) : Run (Reading 16) := makeJsonToU buffer tok errno junk ret

def jsonToU8 (buffer : Bytes) (tok : JsmnTok) (errno : Int) (junk : BitVec 64)
    (ret : BitVec 8) : Run (Reading 8) := makeJsonToU buffer tok errno junk ret

def jsonToS32 (long : LongWidth) (buffer : Bytes) (tok : JsmnTok) (errno : Int)
    (junk : BitVec 64) (ret : BitVec 32) : Run (Reading 32) :=
  makeJsonToS long buffer tok errno junk ret

def jsonToS16 (long : LongWidth) (buffer : Bytes) (tok : JsmnTok) (errno : Int)
    (junk : BitVec 64) (ret : BitVec 16) : Run (Reading 16) :=
  makeJsonToS long buffer tok errno junk ret

def jsonToS8 (long : LongWidth) (buffer : Bytes) (tok : JsmnTok) (errno : Int)
    (junk : BitVec 64) (ret : BitVec 8) : Run (Reading 8) :=
  makeJsonToS long buffer tok errno junk ret

end AtxSys
