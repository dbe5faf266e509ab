import AtxSys.Run
import Mathlib.Algebra.Group.Nat.Defs

/-!
# The hash table

`khash.h`, as `containers.h` uses it for a map. A table has one array for the keys, one for the
values and two bits for each bucket, sixteen buckets to a word. Memory that was allocated and not
written holds `none`. The counters of type `khint_t` are naturals; what is rounded up to a power of
two is a word of 32 bits. A loop gets as many rounds as it can take before it is back where it
began.
-/

namespace AtxSys

/-- How a call goes wrong. -/
inductive KhFault where
  /-- an access outside of an array -/
  | outside (i : Nat)
  /-- a key that was not written -/
  | unset (i : Nat)
  /-- a loop that does not end -/
  | endless
  /-- a failing `assert` -/
  | abort
  deriving DecidableEq, Repr

abbrev Kh := Except KhFault

/-! ### Memory -/

section Memory

variable {α : Type}

def readAt (l : List α) (i : Nat) : Kh α :=
  match l[i]? with
  | some a => .ok a
  | none => .error (.outside i)

def writeAt (l : List α) (i : Nat) (a : α) : Kh (List α) :=
  if i < l.length then .ok (l.set i a) else .error (.outside i)

def readKey (keys : List (Option α)) (i : Nat) : Kh α := do
  match ← readAt keys i with
  | some key => .ok key
  | none => .error (.unset i)

/-- `krealloc`; what is added is not written. -/
def krealloc (l : List (Option α)) (n : Nat) : List (Option α) :=
  l.take n ++ List.replicate (n - l.length) none

end Memory

/-! ### Flags -/

abbrev KhFlags := List (BitVec 32)

/-- `(flag[i>>4]>>((i&0xfU)<<1))&mask` -/
def acBits (flags : KhFlags) (i : Nat) (mask : BitVec 32) : Kh (BitVec 32) := do
  let word ← readAt flags (i >>> 4)
  .ok ((word >>> ((i &&& 0xf) <<< 1)) &&& mask)

def acIsEmpty (flags : KhFlags) (i : Nat) : Kh Bool := do
  let bits ← acBits flags i 2
  .ok (bits != 0)

def acIsDel (flags : KhFlags) (i : Nat) : Kh Bool := do
  let bits ← acBits flags i 1
  .ok (bits != 0)

def acIsEither (flags : KhFlags) (i : Nat) : Kh Bool := do
  let bits ← acBits flags i 3
  .ok (bits != 0)

def acSetIsEmptyFalse (flags : KhFlags) (i : Nat) : Kh KhFlags := do
  let word ← readAt flags (i >>> 4)
  .ok (flags.set (i >>> 4) (word &&& ~~~(2#32 <<< ((i &&& 0xf) <<< 1))))

def acSetIsBothFalse (flags : KhFlags) (i : Nat) : Kh KhFlags := do
  let word ← readAt flags (i >>> 4)
  .ok (flags.set (i >>> 4) (word &&& ~~~(3#32 <<< ((i &&& 0xf) <<< 1))))

def acSetIsDelTrue (flags : KhFlags) (i : Nat) : Kh KhFlags := do
  let word ← readAt flags (i >>> 4)
  .ok (flags.set (i >>> 4) (word ||| 1#32 <<< ((i &&& 0xf) <<< 1)))

def acFsize (m : Nat) : Nat := if m < 16 then 1 else m >>> 4

/-- The flags after `memset` to 0xaa: every bucket is empty. -/
def acEmptyFlags (m : Nat) : KhFlags := List.replicate (acFsize m) 0xaaaaaaaa#32

/-! ### Sizes -/

def kroundup32 (x : BitVec 32) : BitVec 32 :=
  let x := x - 1
  let x := x ||| x >>> 1
  let x := x ||| x >>> 2
  let x := x ||| x >>> 4
  let x := x ||| x >>> 8
  let x := x ||| x >>> 16
  x + 1

/-- `(khint_t)(m * __ac_HASH_UPPER + 0.5)`. The constant is the number of type `double` next to
0.77, which is 1733885856537641 / 2^51; for a power of two the product and the sum are exact. -/
def acUpperBound (m : Nat) : Nat := (m * 1733885856537641 + 2 ^ 50) / 2 ^ 51

/-! ### Hash functions -/

/-- A C string. -/
abbrev CString := { s : CText.Bytes // (0 : UInt8) ∉ s }

/-- `(khint_t)*s`; whether `char` is signed is up to the machine. -/
def khChar (signed : Bool) (c : UInt8) : BitVec 32 :=
  if signed then c.toBitVec.signExtend 32 else c.toBitVec.setWidth 32

/-- `__ac_X31_hash_string`. The first byte is 0 only if the string is empty. -/
def acX31HashString (signed : Bool) (s : CString) : BitVec 32 :=
  match s.1 with
  | [] => 0
  | c :: rest => rest.foldl (fun h c => (h <<< 5) - h + khChar signed c) (khChar signed c)

/-! ### The table -/

structure Khash (κ ν : Type) where
  nBuckets : Nat
  size : Nat
  nOccupied : Nat
  upperBound : Nat
  flags : KhFlags
  keys : List (Option κ)
  vals : List (Option ν)

def khInit {κ ν : Type} : Khash κ ν :=
  { nBuckets := 0, size := 0, nOccupied := 0, upperBound := 0, flags := [], keys := [], vals := [] }

/-- Which of the allocations in `kh_resize` succeed. -/
structure KhAlloc where
  flags : Bool
  keys : Bool
  vals : Bool
  /-- the two that make an array smaller, whose results are not tested -/
  fewerKeys : Bool
  fewerVals : Bool

section Table

variable {κ ν : Type} [DecidableEq κ] (hash : κ → BitVec 32)

def khClear (h : Khash κ ν) : Khash κ ν :=
  if h.flags = [] then h
  else { h with
    flags := acEmptyFlags h.nBuckets
    size := 0
    nOccupied := 0 }

/-- The loop of `kh_get` and `kh_put` from bucket `i`: the bucket at which it stops, `none` where it
is back at `last`, and the last deleted bucket that it passed, which is the `site` of `kh_put`. -/
def probeLoop (h : Khash κ ν) (key : κ) (last : Nat) :
    Nat → Nat → Nat → Nat → Kh (Option Nat × Nat)
  | 0, _, _, _ => .error .endless
  | fuel + 1, i, step, site => do
    if ← acIsEmpty h.flags i then .ok (some i, site)
    else
      let del ← acIsDel h.flags i
      let same ← if del then .ok false else do
        let found ← readKey h.keys i
        .ok (decide (found = key))
      if same then .ok (some i, site)
      else
        let site := if del then i else site
        let i := (i + (step + 1)) &&& (h.nBuckets - 1)
        if i = last then .ok (none, site) else probeLoop h key last fuel i (step + 1) site

def khGet (h : Khash κ ν) (key : κ) : Kh Nat := do
  if h.nBuckets = 0 then .ok 0
  else
    let i := (hash key).toNat &&& (h.nBuckets - 1)
    match ← probeLoop h key i (2 * h.nBuckets) i 0 h.nBuckets with
    | (none, _) => .ok h.nBuckets
    | (some i, _) =>
      let either ← acIsEither h.flags i
      .ok (if either then h.nBuckets else i)

/-! ### Growing -/

/-- The arrays during a rehash, with the flags of the old table and those of the new one. -/
structure KhMove (κ ν : Type) where
  flags : KhFlags
  newFlags : KhFlags
  keys : List (Option κ)
  vals : List (Option ν)

/-- `while (!__ac_isempty(new_flags, i)) i = (i + (++step)) & new_mask;` -/
def emptyLoop (newFlags : KhFlags) (newMask : Nat) : Nat → Nat → Nat → Kh Nat
  | 0, _, _ => .error .endless
  | fuel + 1, i, step => do
    if ← acIsEmpty newFlags i then .ok i
    else emptyLoop newFlags newMask fuel ((i + (step + 1)) &&& newMask) (step + 1)

/-- The kick-out process with an element in hand. Each round but the last takes an element of the
old table. -/
def kickLoop (nBuckets newNBuckets : Nat) : Nat → KhMove κ ν → κ → Option ν → Kh (KhMove κ ν)
  | 0, _, _, _ => .error .endless
  | fuel + 1, m, key, val => do
    let newMask := newNBuckets - 1
    let i ← emptyLoop m.newFlags newMask newNBuckets ((hash key).toNat &&& newMask) 0
    let newFlags ← acSetIsEmptyFalse m.newFlags i
    let kicks ← if i < nBuckets then do
        let either ← acIsEither m.flags i
        .ok (!either)
      else .ok false
    if kicks then
      let key' ← readKey m.keys i
      let keys ← writeAt m.keys i (some key)
      let val' ← readAt m.vals i
      let vals ← writeAt m.vals i val
      let flags ← acSetIsDelTrue m.flags i
      kickLoop nBuckets newNBuckets fuel { flags, newFlags, keys, vals } key' val'
    else
      let keys ← writeAt m.keys i (some key)
      let vals ← writeAt m.vals i val
      .ok { m with newFlags, keys, vals }

/-- The body of the loop over the old buckets. -/
def moveBucket (nBuckets newNBuckets j : Nat) (m : KhMove κ ν) : Kh (KhMove κ ν) := do
  if ← acIsEither m.flags j then .ok m
  else
    let key ← readKey m.keys j
    let val ← readAt m.vals j
    let flags ← acSetIsDelTrue m.flags j
    kickLoop hash nBuckets newNBuckets (nBuckets + 1) { m with flags } key val

/-- `for (j = 0; j != h->n_buckets; ++j)`, with the number of rounds that are left. -/
def rehashLoop (nBuckets newNBuckets : Nat) : Nat → KhMove κ ν → Kh (KhMove κ ν)
  | 0, m => .ok m
  | left + 1, m => do
    let m ← moveBucket hash nBuckets newNBuckets (nBuckets - (left + 1)) m
    rehashLoop nBuckets newNBuckets left m

/-- `if (j)`: rehashing is needed. -/
def khRehash (alloc : KhAlloc) (h : Khash κ ν) (newNBuckets : Nat) : Kh (Khash κ ν) := do
  let newFlags := acEmptyFlags newNBuckets
  let m ← rehashLoop hash h.nBuckets newNBuckets h.nBuckets
    { flags := h.flags, newFlags, keys := h.keys, vals := h.vals }
  let shrinks := decide (newNBuckets < h.nBuckets)
  .ok
    { nBuckets := newNBuckets
      size := h.size
      nOccupied := h.size
      upperBound := acUpperBound newNBuckets
      flags := m.newFlags
      keys :=
        if shrinks then (if alloc.fewerKeys then krealloc m.keys newNBuckets else []) else m.keys
      vals :=
        if shrinks then (if alloc.fewerVals then krealloc m.vals newNBuckets else []) else m.vals }

def khRoundup (n : Nat) : Nat :=
  let n := (kroundup32 (BitVec.ofNat 32 n)).toNat
  if n < 4 then 4 else n

/-- `kh_resize`: what it returns, and the table it leaves. -/
def khResize (alloc : KhAlloc) (h : Khash κ ν) (newNBuckets : Nat) : Kh (Int × Khash κ ν) := do
  let newNBuckets := khRoundup newNBuckets
  if acUpperBound newNBuckets ≤ h.size then .ok (0, h)
  else if !alloc.flags then .ok (-1, h)
  else if h.nBuckets < newNBuckets then
    if !alloc.keys then .ok (-1, h)
    else
      let h := { h with keys := krealloc h.keys newNBuckets }
      if !alloc.vals then .ok (-1, h)
      else
        let h ← khRehash hash alloc { h with vals := krealloc h.vals newNBuckets } newNBuckets
        .ok (0, h)
  else
    let h ← khRehash hash alloc h newNBuckets
    .ok (0, h)

/-! ### Changing -/

/-- The part of `kh_put` that makes room. -/
def khMakeRoom (alloc : KhAlloc) (h : Khash κ ν) : Kh (Int × Khash κ ν) :=
  if h.upperBound ≤ h.nOccupied then
    if h.size <<< 1 < h.nBuckets then khResize hash alloc h (h.nBuckets - 1)
    else khResize hash alloc h (h.nBuckets + 1)
  else .ok (0, h)

/-- The part of `kh_put` that looks for the bucket `x`. -/
def khSite (h : Khash κ ν) (key : κ) : Kh Nat := do
  let i := (hash key).toNat &&& (h.nBuckets - 1)
  match ← probeLoop h key i (2 * h.nBuckets) i 0 h.nBuckets with
  | (none, site) => .ok (if site = h.nBuckets then i else site)
  | (some i, site) =>
    let isEmpty ← acIsEmpty h.flags i
    .ok (if isEmpty ∧ site ≠ h.nBuckets then site else i)

/-- `kh_put`: the bucket, `*ret`, and the table. A new key gets no value here. -/
def khPut (alloc : KhAlloc) (h : Khash κ ν) (key : κ) : Kh (Nat × Int × Khash κ ν) := do
  let (err, h) ← khMakeRoom hash alloc h
  if err < 0 then .ok (h.nBuckets, -1, h)
  else
    let x ← khSite hash h key
    if ← acIsEmpty h.flags x then
      let keys ← writeAt h.keys x (some key)
      let flags ← acSetIsBothFalse h.flags x
      .ok (x, 1, { h with keys, flags, size := h.size + 1, nOccupied := h.nOccupied + 1 })
    else if ← acIsDel h.flags x then
      let keys ← writeAt h.keys x (some key)
      let flags ← acSetIsBothFalse h.flags x
      .ok (x, 2, { h with keys, flags, size := h.size + 1 })
    else .ok (x, 0, h)

def khDel (h : Khash κ ν) (x : Nat) : Kh (Khash κ ν) := do
  if x = h.nBuckets then .ok h
  else if ← acIsEither h.flags x then .ok h
  else
    let flags ← acSetIsDelTrue h.flags x
    .ok { h with flags, size := h.size - 1 }

end Table

end AtxSys
