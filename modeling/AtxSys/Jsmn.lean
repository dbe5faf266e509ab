import AtxSys.Lib.CText

/-!
# The jsmn tokenizer

`jsmn_parse` as `json.c` compiles it: `JSMN_STRICT` set, `JSMN_PARENT_LINKS` not set, a token array
given. The allocated slots are a list, so `toknext` is its length; slots beyond it keep whatever the
caller's array held. `toksuper` is `none` where the source has -1. Positions are naturals: a
document is shorter than 2^31 bytes, where the offsets of the source are exact. On an error the
source also rewinds `pos`, which no caller reads.
-/

namespace AtxSys

open CText

inductive JsmnType where
  | undefined
  | object
  | array
  | string
  | primitive
  deriving DecidableEq, Repr

structure JsmnTok where
  type : JsmnType
  start : Int
  stop : Int
  size : Nat
  deriving DecidableEq, Repr

inductive JsmnErr where
  | nomem
  | inval
  | part
  deriving DecidableEq, Repr

structure JsmnParser where
  pos : Nat
  toks : List JsmnTok
  toksuper : Option Nat
  count : Nat
  deriving DecidableEq, Repr

namespace JsmnParser

abbrev toknext (p : JsmnParser) : Nat := p.toks.length

/-- `toknext - 1` as an `int`. -/
def lastTok (p : JsmnParser) : Option Nat :=
  if p.toknext = 0 then none else some (p.toknext - 1)

end JsmnParser

def jsmnInit : JsmnParser := { pos := 0, toks := [], toksuper := none, count := 0 }

/-- A fresh slot; its `type` is what the caller's memory held, and is set before it is read. -/
def jsmnAllocToken (numTokens : Nat) (toks : List JsmnTok) : Except JsmnErr (List JsmnTok) :=
  if numTokens ≤ toks.length then .error .nomem
  else .ok (toks ++ [{ type := .undefined, start := -1, stop := -1, size := 0 }])

def jsmnFillToken (type : JsmnType) (start stop : Nat) (_ : JsmnTok) : JsmnTok :=
  { type, start, stop, size := 0 }

def JsmnTok.bump (t : JsmnTok) : JsmnTok := { t with size := t.size + 1 }

def JsmnTok.isOpen (t : JsmnTok) : Bool := t.start != -1 && t.stop == -1

def JsmnTok.isContainer (t : JsmnTok) : Bool := t.type == .array || t.type == .object

/-- The loops `for (i = n - 1; i >= 0; i--)` that stop at the first slot with a property. -/
def searchDown (found : JsmnTok → Bool) (toks : List JsmnTok) : Nat → Option Nat
  | 0 => none
  | i + 1 => if (toks[i]?).any found then some i else searchDown found toks i

/-- `tokens[toksuper].size++`, where there is a superior token. -/
def bumpSuper (toksuper : Option Nat) (toks : List JsmnTok) : List JsmnTok :=
  match toksuper with
  | none => toks
  | some i => toks.modify i JsmnTok.bump

/-- The guard `pos < len && js[pos] != '\0'` of every loop, with the byte it admits. -/
def peek (js : Bytes) (pos : Nat) : Option UInt8 := (js[pos]?).filter (· ≠ 0)

/-! ### Primitives and strings -/

def isWhitespace (c : UInt8) : Bool :=
  c == tab || c == carriageReturn || c == newline || c == space

def endsPrimitive (c : UInt8) : Bool :=
  isWhitespace c || c == comma || c == rbracket || c == rbrace

/-- The scanning loop of `jsmn_parse_primitive`: where the primitive ends. -/
def scanPrimitive (js : Bytes) : Nat → Nat → Except JsmnErr Nat
  | 0, _ => .error .part
  | fuel + 1, pos =>
    match peek js pos with
    | none => .error .part
    | some c =>
      if endsPrimitive c then .ok pos
      else if c < 32 ∨ 127 ≤ c then .error .inval
      else scanPrimitive js fuel (pos + 1)

def isHexDigit (c : UInt8) : Bool :=
  (48 ≤ c && c ≤ 57) || (65 ≤ c && c ≤ 70) || (97 ≤ c && c ≤ 102)

/-- The loop over the digits of `\uXXXX`. -/
def scanHex (js : Bytes) : Nat → Nat → Except JsmnErr Nat
  | 0, pos => .ok pos
  | i + 1, pos =>
    match peek js pos with
    | none => .ok pos
    | some c => if isHexDigit c then scanHex js i (pos + 1) else .error .inval

def isSimpleEscape (c : UInt8) : Bool :=
  c == quote || c == 0x2F || c == backslash || c == 0x62 || c == 0x66 || c == 0x72 || c == 0x6E ||
    c == 0x74

/-- The escape whose byte after the backslash is at `pos`: the last byte that belongs to it. -/
def scanEscape (js : Bytes) (pos : Nat) : Except JsmnErr Nat :=
  match js[pos]? with
  | none => .error .inval
  | some c =>
    if isSimpleEscape c then .ok pos
    else if c = 0x75 then do
      let pos ← scanHex js 4 (pos + 1)
      .ok (pos - 1)
    else .error .inval

/-- The scanning loop of `jsmn_parse_string`: where the closing quote is. -/
def scanString (js : Bytes) : Nat → Nat → Except JsmnErr Nat
  | 0, _ => .error .part
  | fuel + 1, pos =>
    match peek js pos with
    | none => .error .part
    | some c =>
      if c = quote then .ok pos
      else if c = backslash ∧ pos + 1 < js.length then do
        let pos ← scanEscape js (pos + 1)
        scanString js fuel (pos + 1)
      else scanString js fuel (pos + 1)

def jsmnParsePrimitive (js : Bytes) (numTokens : Nat) (p : JsmnParser) :
    Except JsmnErr JsmnParser := do
  let stop ← scanPrimitive js (js.length + 1) p.pos
  let toks ← jsmnAllocToken numTokens p.toks
  .ok { p with
    pos := stop - 1
    toks := toks.modify p.toknext (jsmnFillToken .primitive p.pos stop) }

def jsmnParseString (js : Bytes) (numTokens : Nat) (p : JsmnParser) :
    Except JsmnErr JsmnParser := do
  let stop ← scanString js (js.length + 1) (p.pos + 1)
  let toks ← jsmnAllocToken numTokens p.toks
  .ok { p with
    pos := stop
    toks := toks.modify p.toknext (jsmnFillToken .string (p.pos + 1) stop) }

/-! ### The main loop -/

/-- `{` and `[`. In strict mode an object or array can't become a key. -/
def openContainer (numTokens : Nat) (type : JsmnType) (p : JsmnParser) :
    Except JsmnErr JsmnParser := do
  let toks ← jsmnAllocToken numTokens p.toks
  if (p.toksuper.bind (p.toks[·]?)).any (·.type == .object) then .error .inval
  else
    .ok { p with
      toks := (bumpSuper p.toksuper toks).modify p.toknext
        fun t => { t with type, start := p.pos }
      toksuper := some p.toknext
      count := p.count + 1 }

/-- `}` and `]`: the innermost open token is closed, and the one around it becomes the superior. -/
def closeContainer (type : JsmnType) (p : JsmnParser) : Except JsmnErr JsmnParser :=
  match searchDown JsmnTok.isOpen p.toks p.toknext with
  | none => .error .inval
  | some i =>
    if (p.toks[i]?).any (·.type != type) then .error .inval
    else
      let toks := p.toks.modify i fun t => { t with stop := p.pos + 1 }
      .ok { p with toks, toksuper := searchDown JsmnTok.isOpen toks (i + 1) }

/-- `,`: back from a key to the container it stands in. -/
def afterComma (p : JsmnParser) : JsmnParser :=
  if (p.toksuper.bind (p.toks[·]?)).any (!·.isContainer) then
    match searchDown (fun t => t.isContainer && t.isOpen) p.toks p.toknext with
    | none => p
    | some i => { p with toksuper := some i }
  else p

/-- `count++` and `tokens[toksuper].size++` after a string or a primitive. -/
def countToken (p : JsmnParser) : JsmnParser :=
  { p with toks := bumpSuper p.toksuper p.toks, count := p.count + 1 }

/-- A primitive must not be a key, nor a second value of one. -/
def rejectsPrimitive (t : JsmnTok) : Bool :=
  t.type == .object || (t.type == .string && t.size != 0)

def startsPrimitive (c : UInt8) : Bool :=
  c == 0x2D || (48 ≤ c && c ≤ 57) || c == 0x74 || c == 0x66 || c == 0x6E

/-- The body of the main loop for the byte `c`, without the `pos++`. -/
def jsmnStep (js : Bytes) (numTokens : Nat) (c : UInt8) (p : JsmnParser) :
    Except JsmnErr JsmnParser :=
  if c = lbrace then openContainer numTokens .object p
  else if c = lbracket then openContainer numTokens .array p
  else if c = rbrace then closeContainer .object p
  else if c = rbracket then closeContainer .array p
  else if c = quote then countToken <$> jsmnParseString js numTokens p
  else if isWhitespace c then .ok p
  else if c = colon then .ok { p with toksuper := p.lastTok }
  else if c = comma then .ok (afterComma p)
  else if startsPrimitive c then
    if (p.toksuper.bind (p.toks[·]?)).any rejectsPrimitive then .error .inval
    else countToken <$> jsmnParsePrimitive js numTokens p
  else .error .inval

def jsmnLoop (js : Bytes) (numTokens : Nat) : Nat → JsmnParser → Except JsmnErr JsmnParser
  | 0, p => .ok p
  | fuel + 1, p =>
    match peek js p.pos with
    | none => .ok p
    | some c => do
      let p ← jsmnStep js numTokens c p
      jsmnLoop js numTokens fuel { p with pos := p.pos + 1 }

/-- `jsmn_parse` from `jsmn_init`: the tokens it fills and the count it returns. Each iteration
moves `pos` forward, so `js.length` of them reach the end. -/
def jsmnParse (js : Bytes) (numTokens : Nat) : Except JsmnErr JsmnParser := do
  let p ← jsmnLoop js numTokens js.length jsmnInit
  if p.toks.any JsmnTok.isOpen then .error .part else .ok p

end AtxSys
