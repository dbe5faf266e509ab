import AtxSys.Lib.Slices
import AtxSys.Run

/-!
# Query strings

`http_parse_query_str` of `http.c`. A pointer into the query is an offset. A query is shorter than
2^31 bytes, where the lengths of the source are exact. `mg_strstr` is a function of mongoose.
-/

namespace AtxSys

open CText Slices

abbrev ampersand : UInt8 := 0x26
abbrev equals : UInt8 := 0x3D

/-- The first place of the needle in the text. -/
def FirstAt (text needle : Bytes) (i : Nat) : Prop :=
  At text i needle ∧ ∀ j, j < i → ¬ At text j needle

/-- A function that finds the first occurrence of a needle. -/
structure MgStrstr where
  find : Bytes → Bytes → Option Nat
  hfind : ∀ text needle i, needle ≠ [] → (find text needle = some i ↔ FirstAt text needle i)

/-- `query_string` of a message, with the byte behind it in memory. -/
structure QueryString where
  text : Bytes
  next : UInt8
  deriving DecidableEq

/-- `p[i]` for `i <= len`. -/
def QueryString.byte (q : QueryString) (i : Nat) : UInt8 := (q.text[i]?).getD q.next

/-- `http_parse_query_str`: where the result is and how long, `none` for NULL and 0. Behind the
query `memchr` is given a length that wrapped around, and reads on. -/
def httpParseQueryStr (strstr : MgStrstr) (q : QueryString) (want : Bytes) :
    Run (Option (Nat × Nat)) :=
  let want := cstr want
  let wantlen := want.length
  match strstr.find q.text want with
  | none => .ok none
  | some spot =>
    if wantlen ≤ q.text.length ∧ spot < q.text.length ∧ q.byte (spot + wantlen) = equals then
      let spot := spot + (wantlen + 1)
      if q.text.length < spot then .error .text
      else
        let left := q.text.drop spot
        .ok (some (spot, (left.idxOf? ampersand).getD left.length))
    else .ok none

/-! ### The law -/

/-- An item starts at the front of the query and behind every ampersand, -/
def itemStart (text : Bytes) (i : Nat) : Bool := i = 0 || text[i - 1]? = some ampersand

/-- and goes on to the next one. -/
def queryItem (text : Bytes) (i : Nat) : Bytes := (text.drop i).takeWhile (· ≠ ampersand)

/-- The item has a value, and this name. -/
def named (want item : Bytes) : Bool := equals ∈ item && item.takeWhile (· ≠ equals) = want

/-- The value of the first item that has one and the wanted name. -/
def queryValue (text want : Bytes) : Option (Nat × Nat) :=
  let start := (List.range (text.length + 1)).find? fun i =>
    itemStart text i && named want (queryItem text i)
  start.map fun i => (i + (want.length + 1), (queryItem text i).length - (want.length + 1))

end AtxSys
