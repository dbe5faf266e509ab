import AtxSys.Jsmn
import AtxSys.Lib.JsonPath
import AtxSys.Run

/-!
# Walking the tokens

`json.c` over the memory of a token array. A slot that may not be read is `none`, so that a walk
over the slots jsmn filled stops with `Fault.slot` where it would read another one. The recursion of
`json_next` follows whatever `size` fields it meets; `depth` is the number of its frames that fit on
the machine's stack.
-/

namespace AtxSys

open CText

/-- The memory of a token array. -/
abbrev TokMem := Nat → Option JsmnTok

/-- The slots jsmn filled and no others. -/
def filled (toks : List JsmnTok) : TokMem := fun i => toks[i]?

/-- The whole array as it lies on the stack: the filled slots, and `junk` in the others. -/
def withJunk (toks : List JsmnTok) (junk : Nat → JsmnTok) : TokMem :=
  fun i => some ((toks[i]?).getD (junk i))

def readTok (mem : TokMem) (i : Nat) : Run JsmnTok :=
  match mem i with
  | none => .error (.slot i)
  | some t => .ok t

/-- The bytes `buffer[start .. stop)`. -/
def readText (buffer : Bytes) (start stop : Int) : Run Bytes :=
  if 0 ≤ start ∧ start ≤ stop ∧ stop ≤ buffer.length then
    .ok ((buffer.drop start.toNat).take (stop - start).toNat)
  else .error .text

def iterate {α : Type} (f : α → Run α) : Nat → α → Run α
  | 0, a => .ok a
  | n + 1, a => do
    let a ← f a
    iterate f n a

def jsonNext (mem : TokMem) : Nat → Nat → Run Nat
  | 0, _ => .error .stackOverflow
  | depth + 1, tok => do
    let t ← readTok mem tok
    iterate (jsonNext mem depth) t.size (tok + 1)

def jsonTokStreq (buffer : Bytes) (tok : JsmnTok) (str : Bytes) : Run Bool :=
  if tok.type ≠ .string then .ok false
  else if tok.stop - tok.start ≠ str.length then .ok false
  else do
    let text ← readText buffer tok.start tok.stop
    .ok (text == str)

/-- The loop of `json_get_member`: `n` members are left, `t` is the key of the next one. -/
def memberLoop (mem : TokMem) (buffer label : Bytes) (depth : Nat) :
    Nat → Nat → Run (Option Nat)
  | 0, _ => .ok none
  | n + 1, t => do
    let key ← readTok mem t
    let found ← jsonTokStreq buffer key label
    if found then .ok (some (t + 1))
    else do
      let next ← jsonNext mem depth (t + 1)
      memberLoop mem buffer label depth n next

def jsonGetMember (mem : TokMem) (buffer label : Bytes) (depth tok : Nat) : Run (Option Nat) := do
  let t ← readTok mem tok
  if t.type ≠ .object then .ok none
  else memberLoop mem buffer label depth t.size (tok + 1)

/-- The loop of `json_get_arr`: `n` elements are left, `t` is the next one. -/
def elementLoop (mem : TokMem) (depth : Nat) : Nat → Nat → Nat → Run (Option Nat)
  | 0, _, _ => .ok none
  | n + 1, index, t =>
    if index = 0 then .ok (some t)
    else do
      let next ← jsonNext mem depth t
      elementLoop mem depth n (index - 1) next

def jsonGetArr (mem : TokMem) (depth tok index : Nat) : Run (Option Nat) := do
  let t ← readTok mem tok
  if t.type ≠ .array then .ok none
  else elementLoop mem depth t.size index (tok + 1)

/-- `sizeof(key)` in `json_delve`. -/
def keySize : Nat := 128

/-- The loop of `json_delve`. Each round takes a `.` and a key off the guide, so the guide's length
bounds the rounds. -/
def delveLoop (mem : TokMem) (buffer : Bytes) (depth : Nat) :
    Nat → Nat → Bytes → Run (Option Nat)
  | _, tok, [] => .ok (some tok)
  | 0, _, _ => .error .abort
  | fuel + 1, tok, c :: guide => do
    let key := guide.takeWhile (· ≠ dot)
    if keySize ≤ key.length then .error .abort
    else if c ≠ dot then .error .abort
    else do
      let t ← readTok mem tok
      if t.type ≠ .object then .ok none
      else
        match ← jsonGetMember mem buffer key depth tok with
        | none => .ok none
        | some tok => delveLoop mem buffer depth fuel tok (guide.drop key.length)

def jsonDelve (mem : TokMem) (buffer : Bytes) (depth tok : Nat) (guide : Bytes) :
    Run (Option Nat) :=
  delveLoop mem buffer depth guide.length tok guide

/-- The guide `.k1.k2...km`. -/
def guideOf (keys : List Bytes) : Bytes := keys.flatMap (dot :: ·)

/-- A key that a guide can name: no `.` and no NUL in it, and short enough for `key`. -/
def IsGuideKey (key : Bytes) : Prop := dot ∉ key ∧ 0 ∉ key ∧ key.length < keySize

/-- The bytes that a token delimits: `json_tok_value`, and a caller that reads the value. -/
def jsonTokValue (buffer : Bytes) (mem : TokMem) (tok : Nat) : Run Bytes := do
  let t ← readTok mem tok
  readText buffer t.start t.stop

/-- A `jsmn_value`: `len` bytes from `&b[start]`, or a string constant. -/
inductive JsmnValue where
  | slice (start len : Int)
  | literal (s : Bytes)
  deriving DecidableEq

/-- The bytes of the value, when a caller reads them. -/
def JsmnValue.text (buffer : Bytes) : JsmnValue → Run Bytes
  | .slice start len => readText buffer start (start + len)
  | .literal s => .ok s

/-- `json_tok_value` as it is, a pointer and a length: no byte of the buffer is read. -/
def jsonTokSlice (mem : TokMem) (tok : Nat) : Run JsmnValue := do
  let t ← readTok mem tok
  .ok (.slice t.start (t.stop - t.start))

/-- `none` is a `p` that is `NULL`. -/
def jsonDelveValue (mem : TokMem) (buffer : Bytes) (depth tok : Nat) (guide : Bytes) :
    Run (Option Bytes) := do
  match ← jsonDelve mem buffer depth tok guide with
  | none => .ok none
  | some t =>
    let value ← jsonTokValue buffer mem t
    .ok (some value)

def jsonTokIsNull (buffer : Bytes) (mem : TokMem) (tok : Nat) : Run Bool := do
  let t ← readTok mem tok
  if t.type ≠ .primitive then .ok false
  else do
    let text ← readText buffer t.start (t.start + 1)
    .ok (text == bytes "n")

/-! ### Loops over a token -/

section Loops

variable {α : Type} (mem : TokMem) (depth skip : Nat) (body : Nat → Run α)

/-- `n` rounds are left, and `t` is the token of the next one. -/
def forEachLoop : Nat → Nat → Run (List α)
  | 0, _ => .ok []
  | n + 1, t => do
    let a ← body t
    let next ← jsonNext mem depth (t + skip)
    let rest ← forEachLoop n next
    .ok (a :: rest)

def forEach (tok : Nat) : Run (List α) := do
  let t ← readTok mem tok
  forEachLoop mem depth skip body t.size (tok + 1)

/-- Steps over the value of each key. -/
def jsonForEachObj (tok : Nat) : Run (List α) := forEach mem depth 1 body tok

def jsonForEachArr (tok : Nat) : Run (List α) := forEach mem depth 0 body tok

end Loops

/-- What a loop over an object reads of a member: its key, and its value behind it. -/
def readMember (buffer : Bytes) (mem : TokMem) (t : Nat) : Run (Bytes × Bytes) := do
  let key ← jsonTokValue buffer mem t
  let value ← jsonTokValue buffer mem (t + 1)
  .ok (key, value)

/-! ### Calls one after another -/

/-- The call that takes one step. -/
def jsonStep (mem : TokMem) (buffer : Bytes) (depth : Nat) :
    JsonSyntax.Step → Nat → Run (Option Nat)
  | .member key, tok => jsonGetMember mem buffer key depth tok
  | .element i, tok => jsonGetArr mem depth tok i

/-- Each call is made on what the one before returned, as long as that is not `NULL`. -/
def jsonWalk (mem : TokMem) (buffer : Bytes) (depth : Nat) :
    List JsonSyntax.Step → Nat → Run (Option Nat)
  | [], tok => .ok (some tok)
  | e :: path, tok => do
    match ← jsonStep mem buffer depth e tok with
    | none => .ok none
    | some next => jsonWalk mem buffer depth path next

end AtxSys
