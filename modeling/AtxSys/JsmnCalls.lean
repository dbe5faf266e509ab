import AtxSys.Jsmn

/-!
# Other calls of the tokenizer

`jsmn_parse` on a parser that was used before, which goes on where it stopped, and `jsmn_parse`
without a token array, which only counts.
-/

namespace AtxSys

open CText

/-! ### A parser that was used before -/

/-- The parser after an error at the byte `c`. The token of a container that can't be a key was
allocated; everything else is as it was before the byte, the position included. -/
def jsmnStopped (c : UInt8) (p : JsmnParser) : JsmnErr → JsmnParser
  | .inval =>
    if c = lbrace ∨ c = lbracket then
      { p with toks := p.toks ++ [{ type := .undefined, start := -1, stop := -1, size := 0 }] }
    else p
  | .nomem | .part => p

/-- The loop over the tokens after the main loop. -/
def jsmnFinish (p : JsmnParser) : Except JsmnErr Nat × JsmnParser :=
  if p.toks.any JsmnTok.isOpen then (.error .part, p) else (.ok p.count, p)

def jsmnFrom (js : Bytes) (numTokens : Nat) :
    Nat → JsmnParser → Except JsmnErr Nat × JsmnParser
  | 0, p => jsmnFinish p
  | fuel + 1, p =>
    match peek js p.pos with
    | none => jsmnFinish p
    | some c =>
      match jsmnStep js numTokens c p with
      | .error e => (.error e, jsmnStopped c p e)
      | .ok p => jsmnFrom js numTokens fuel { p with pos := p.pos + 1 }

/-- `jsmn_parse`: what it returns, and the parser that it leaves. `count` starts with `toknext`. -/
def jsmnCall (js : Bytes) (numTokens : Nat) (p : JsmnParser) :
    Except JsmnErr Nat × JsmnParser :=
  jsmnFrom js numTokens js.length { p with count := p.toknext }

/-- Calls on a text that grows, each with more bytes and an array of its own size. -/
def jsmnCalls (p : JsmnParser) (js : Bytes) :
    List (Bytes × Nat) → List (Except JsmnErr Nat × JsmnParser)
  | [] => []
  | (more, numTokens) :: calls =>
    let js := js ++ more
    let result := jsmnCall js numTokens p
    result :: jsmnCalls result.2 js calls

/-! ### Counting -/

/-- The body of the main loop where `tokens == NULL`: the position, and the count. No token is
superior, as `toknext` stays 0. -/
def jsmnCountStep (js : Bytes) (c : UInt8) (pos count : Nat) : Except JsmnErr (Nat × Nat) :=
  if c = lbrace ∨ c = lbracket then .ok (pos, count + 1)
  else if c = rbrace ∨ c = rbracket then .ok (pos, count)
  else if c = quote then do
    let stop ← scanString js (js.length + 1) (pos + 1)
    .ok (stop, count + 1)
  else if isWhitespace c ∨ c = colon ∨ c = comma then .ok (pos, count)
  else if startsPrimitive c then do
    let stop ← scanPrimitive js (js.length + 1) pos
    .ok (stop - 1, count + 1)
  else .error .inval

def jsmnCountLoop (js : Bytes) : Nat → Nat → Nat → Except JsmnErr Nat
  | 0, _, count => .ok count
  | fuel + 1, pos, count =>
    match peek js pos with
    | none => .ok count
    | some c => do
      let (pos, count) ← jsmnCountStep js c pos count
      jsmnCountLoop js fuel (pos + 1) count

/-- `jsmn_parse` without a token array. -/
def jsmnCount (js : Bytes) : Except JsmnErr Nat := jsmnCountLoop js js.length 0 0

end AtxSys
