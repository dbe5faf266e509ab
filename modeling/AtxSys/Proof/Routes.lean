import AtxSys.Proof.EnvBuffer
import AtxSys.Proof.EnvRoute
import AtxSys.Proof.NetworkRoute
import AtxSys.Proof.AnyStack
import AtxSys.Routes

/-!
# One response

Which requests the handlers of `http_listen` answer with one block of headers and one body of the
length in it. The others get nothing, or the run goes wrong before it gets there.
-/

namespace AtxSys

open CText JsonSyntax

/-! ### Responses -/

/-- One block of headers, and one body of the length that it announces. -/
def OneResponse (ops : List ConnOp) : Prop :=
  ∃ code contentType text, ops = [.headers code contentType (text.length : Nat), .body text]

/-- The handler ends and has written one response. -/
def Responds (r : Run RouteResult) : Prop := ∃ result, r = .ok result ∧ OneResponse result.ops

theorem oneResponse_ops_iff (r : Response) : OneResponse r.ops ↔ r.body.length < 2 ^ 31 := by
  constructor
  · rintro ⟨code, contentType, text, hops⟩
    simp only [Response.ops, List.cons.injEq, ConnOp.headers.injEq, ConnOp.body.injEq] at hops
    obtain ⟨⟨-, -, hlength⟩, rfl, -⟩ := hops
    unfold snprintfResult at hlength
    split at hlength
    · assumption
    · omega
  · intro hlt
    refine ⟨r.code, r.contentType, r.body, ?_⟩
    rw [Response.ops, snprintfResult, if_pos hlt]

theorem not_responds_silent (ctx : RouteContext) : ¬Responds (.ok ctx.silent) := by
  rintro ⟨result, hresult, code, contentType, text, hops⟩
  rw [← Except.ok.inj hresult] at hops
  cases hops

/-- A handler that sends what it computed. -/
theorem responds_bind_iff {α : Type} {x : Run α} {f : α → RouteResult} (respond : α → Response)
    (hops : ∀ a, (f a).ops = (respond a).ops) :
    Responds (x >>= fun a => .ok (f a)) ↔ ∃ a, x = .ok a ∧ (respond a).body.length < 2 ^ 31 := by
  rw [Responds, run_map_ok_iff]
  simp only [hops, oneResponse_ops_iff]

theorem httpPrintfJson_bounded_iff {code : Nat} {fmt text : Bytes} {args : List Arg}
    (htext : vformat (cstr fmt) args = some text) :
    (∃ response, httpPrintfJson code fmt args = .ok response ∧ response.body.length < 2 ^ 31) ↔
      text.length < 2 ^ 31 := by
  constructor
  · rintro ⟨response, hresponse, hlt⟩
    obtain ⟨-, hbody, -⟩ := httpPrintfJson_eq_ok hresponse
    rw [formatText_eq_ok htext] at hbody
    rw [Except.ok.inj hbody]
    exact hlt
  · intro hlt
    refine ⟨⟨code, bytes "application/json", text.length, text⟩, ?_, hlt⟩
    rw [httpPrintfJson, formatText_eq_ok htext]
    rfl

/-! ### The environment -/

section Env

variable {ctx : RouteContext} {m : HttpMessage}

/-- The name that a `var` at this place of the query asks for. -/
def askedName (abi : Abi) (q : QueryString) (keyp keyl : Nat) : Bytes :=
  (cstr ((q.text.drop keyp).take keyl)).take (abi.pointerSize - 1)

/-- The context is open. The query has no `var`, and all the variables are in the buffer with a NUL
behind them; or it has one, and its value is not too long. -/
def EnvAnswered (ctx : RouteContext) (q : QueryString) : Prop :=
  ctx.env.isOpen = true ∧ match httpParseQueryStr ctx.strstr q (bytes "var") with
  | .error _ => False
  | .ok none => EnvTerminated ctx.vars
  | .ok (some (keyp, keyl)) => ∀ value ∈ firstNamed ctx.vars (askedName ctx.abi q keyp keyl),
      (envValText value).length < 2 ^ 31

theorem envGet_closed {abi : Abi} {strstr : MgStrstr} {env : Env} {vars : List (Bytes × Bytes)}
    {buffer : EnvBuffer} {q : QueryString} {r : Response} (hclosed : ¬env.isOpen = true) :
    envGet abi strstr env vars buffer q ≠ .ok r := by
  intro h
  obtain ⟨found, -, h⟩ := run_bind_eq_ok h
  cases found with
  | none =>
      obtain ⟨_, hopen, -⟩ := run_bind_eq_ok h
      rw [libubootIterator, if_neg hclosed] at hopen
      cases hopen
  | some found =>
      obtain ⟨key, -, h⟩ := run_bind_eq_ok h
      obtain ⟨_, hopen, -⟩ := run_bind_eq_ok h
      rw [libubootIterator, if_neg hclosed] at hopen
      cases hopen

theorem envGet_bounded_iff (ctx : RouteContext) (q : QueryString) :
    (∃ response, envGet ctx.abi ctx.strstr ctx.env ctx.vars ctx.buffer q = .ok response ∧
      response.body.length < 2 ^ 31) ↔ EnvAnswered ctx q := by
  unfold envGet EnvAnswered
  by_cases hopen : ctx.env.isOpen = true
  swap
  · refine iff_of_false ?_ fun h => hopen h.1
    rintro ⟨response, hresponse, -⟩
    exact envGet_closed hopen hresponse
  rw [and_iff_right hopen]
  cases httpParseQueryStr ctx.strstr q (bytes "var") with
  | error e => exact iff_of_false run_error_ne_ok not_false
  | ok found =>
      rw [run_bind_ok]
      cases found with
      | none =>
          dsimp only
          rw [libubootIterator_open hopen, run_bind_ok]
          rw [← @envGetAll_iff ctx.vars ctx.buffer]
          constructor
          · rintro ⟨response, hresponse, -⟩
            exact ⟨response, hresponse⟩
          · rintro ⟨response, hresponse⟩
            have hlength := envGetAll_length hresponse
            have hsize : envBufferSize = 4096 := rfl
            exact ⟨response, hresponse, by omega⟩
      | some found =>
          obtain ⟨keyp, keyl⟩ := found
          have hzero : 0 ∉ askedName ctx.abi q keyp keyl := by
            intro hmem
            exact zero_notMem_cstr _ (List.mem_of_mem_take hmem)
          dsimp only
          rw [envKey_eq, run_bind_ok, libubootIterator_open hopen, run_bind_ok, envReadVal_fst,
            ← askedName, cstr_eq_self hzero]
          cases firstNamed ctx.vars (askedName ctx.abi q keyp keyl) with
          | none =>
              refine iff_of_true ⟨_, envErrorFormat_renders, by decide⟩ nofun
          | some value =>
              simp only [Option.mem_def, Option.some.injEq, forall_eq']
              constructor
              · rintro ⟨response, hresponse, hlt⟩
                rw [← Except.ok.inj ((envValFormat_renders value).symm.trans hresponse)] at hlt
                exact hlt
              · intro hlt
                exact ⟨_, envValFormat_renders value, hlt⟩

end Env

/-! ### The network configuration -/

section Network

variable {ctx : RouteContext} {body : Bytes}

/-- The file is not opened; or it is read whole, and as a format asks for no argument. -/
def NetworkGetAnswered (ctx : RouteContext) : Prop :=
  match if ctx.getIo.opened then ctx.file else none with
  | none => True
  | some content => ctx.getIo.allocated = true ∧ ctx.getIo.read = ctx.getIo.available ∧
      plainFormat (cstr (content.take ctx.getIo.available)) = true

theorem networkGet_bounded_iff (ctx : RouteContext) :
    (∃ response, networkGet ctx.file ctx.getIo = .ok response ∧ response.body.length < 2 ^ 31) ↔
      NetworkGetAnswered ctx := by
  unfold networkGet NetworkGetAnswered
  cases if ctx.getIo.opened then ctx.file else none with
  | none =>
      have htext : vformat (cstr (bytes "\x7b\"error\":\"Not found\"\x7d")) [] =
          some (bytes "\x7b\"error\":\"Not found\"\x7d") := by
        repeat rw [bytes_ofList]
        rfl
      rw [httpPrintfJson_bounded_iff htext]
      exact iff_of_true (by decide) trivial
  | some content =>
      dsimp only
      cases ctx.getIo.allocated with
      | false => exact iff_of_false run_error_ne_ok fun h => absurd h.1 (by decide)
      | true =>
          rw [if_neg (by decide)]
          by_cases hread : ctx.getIo.read = ctx.getIo.available
          · rw [if_neg (not_not.mpr hread), ← vformat_nil_isSome]
            have hlength : (content.take ctx.getIo.available).length < 2 ^ 31 := by
              have hint := ctx.hint
              rw [List.length_take]
              omega
            cases htext : vformat (cstr (content.take ctx.getIo.available)) [] with
            | none =>
                rw [httpPrintfJson, formatText, htext]
                exact iff_of_false run_error_ne_ok fun h => absurd h.2.2 (by decide)
            | some text =>
                rw [httpPrintfJson_bounded_iff htext]
                refine iff_of_true ?_ ⟨rfl, hread, rfl⟩
                have hle := vformat_nil_length htext
                have hcut := cstr_length_le (content.take ctx.getIo.available)
                omega
          · rw [if_pos hread]
            exact iff_of_false run_error_ne_ok fun h => hread h.2.1

def putErrorText (error : Bytes) : Bytes :=
  bytes "\x7b\"error\":\"" ++ (cstr error ++ bytes "\"\x7d")

theorem putErrorFormat_renders (error : Bytes) :
    vformat (cstr putErrorFormat) [.str error] = some (putErrorText error) := by
  have hcstr : cstr putErrorFormat = putErrorFormat := cstr_eq_self (by decide)
  rw [hcstr, putErrorFormat, vformat_append (by decide), vformat_str, vformat_text (by decide)]
  rfl

/-! ### The tokens that `put` finds -/

/-- The tokens with their keys. -/
def toksFields (toks : NetToks) : List (Bytes × Nat) :=
  [(bytes "meth", toks.meth), (bytes "ip", toks.ip), (bytes "sn", toks.sn), (bytes "gw", toks.gw),
    (bytes "hn", toks.hn)]

section Walks

variable {mem : TokMem} {b : Bytes} {depth : Nat} {c : NetConfig} {toks : NetToks}

theorem toksFields_key {f : Bytes × Nat} (hf : f ∈ toksFields toks) : f.1 ∈ valueKeys := by
  have hkeys : (toksFields toks).map Prod.fst = valueKeys := rfl
  rw [← hkeys]
  exact List.mem_map_of_mem hf

theorem exists_toksField {key : Bytes} (hkey : key ∈ valueKeys) :
    ∃ i, (key, i) ∈ toksFields toks := by
  have hkeys : (toksFields toks).map Prod.fst = valueKeys := rfl
  rw [← hkeys] at hkey
  obtain ⟨⟨key', i⟩, hf, rfl⟩ := List.mem_map.mp hkey
  exact ⟨i, hf⟩

/-- The guard of `put` around each call of `json_delve`. -/
theorem guard_eq_some {α β : Type} {x : Run (Option α)} {f : Option α → Run (Option β)} {a : β}
    (h : (x >>= f) = .ok (some a)) (hnone : f none = .ok none) :
    ∃ tok, x = .ok (some tok) ∧ f (some tok) = .ok (some a) := by
  obtain ⟨found, hfound, h⟩ := run_bind_eq_ok h
  cases found with
  | none =>
      rw [hnone] at h
      cases h
  | some tok => exact ⟨tok, hfound, h⟩

theorem guard_eq_none {α β : Type} {x : Run (Option α)} {f : Option α → Run (Option β)}
    (h : (x >>= f) = .ok none) :
    x = .ok none ∨ ∃ tok, x = .ok (some tok) ∧ f (some tok) = .ok none := by
  obtain ⟨found, hfound, h⟩ := run_bind_eq_ok h
  cases found with
  | none => exact .inl hfound
  | some tok => exact .inr ⟨tok, hfound, h⟩

theorem guard_ends {α β : Type} {x : Run (Option α)} {f : Option α → Run (Option β)}
    (hx : ∃ found, x = .ok found) (hnone : f none = .ok none)
    (hsome : ∀ tok, ∃ r, f (some tok) = .ok r) : ∃ r, (x >>= f) = .ok r := by
  obtain ⟨found, rfl⟩ := hx
  cases found with
  | none => exact ⟨none, hnone⟩
  | some tok => exact hsome tok

theorem networkToks_eq_none (h : networkToks mem b depth = .ok none) :
    ∃ key ∈ valueKeys, jsonDelve mem b depth 0 (guideOf [bytes "ipv4", key]) = .ok none := by
  rcases guard_eq_none h with hmeth | ⟨meth, -, h⟩
  · exact ⟨bytes "meth", by simp [valueKeys], hmeth⟩
  rcases guard_eq_none h with hip | ⟨ip, -, h⟩
  · exact ⟨bytes "ip", by simp [valueKeys], hip⟩
  rcases guard_eq_none h with hsn | ⟨sn, -, h⟩
  · exact ⟨bytes "sn", by simp [valueKeys], hsn⟩
  rcases guard_eq_none h with hgw | ⟨gw, -, h⟩
  · exact ⟨bytes "gw", by simp [valueKeys], hgw⟩
  rcases guard_eq_none h with hhn | ⟨hn, -, h⟩
  · exact ⟨bytes "hn", by simp [valueKeys], hhn⟩
  cases h

theorem networkToks_eq_some_iff :
    networkToks mem b depth = .ok (some toks) ↔ ∀ f ∈ toksFields toks,
      jsonDelve mem b depth 0 (guideOf [bytes "ipv4", f.1]) = .ok (some f.2) := by
  simp only [toksFields, List.forall_mem_cons, List.not_mem_nil, false_imp_iff, implies_true,
    and_true]
  constructor
  · intro h
    obtain ⟨meth, hmeth, h⟩ := guard_eq_some h rfl
    obtain ⟨ip, hip, h⟩ := guard_eq_some h rfl
    obtain ⟨sn, hsn, h⟩ := guard_eq_some h rfl
    obtain ⟨gw, hgw, h⟩ := guard_eq_some h rfl
    obtain ⟨hn, hhn, h⟩ := guard_eq_some h rfl
    obtain rfl := Option.some.inj (Except.ok.inj h)
    exact ⟨hmeth, hip, hsn, hgw, hhn⟩
  · rintro ⟨hmeth, hip, hsn, hgw, hhn⟩
    change jsonDelve mem b depth 0 (bytes ".ipv4.meth") = _ at hmeth
    change jsonDelve mem b depth 0 (bytes ".ipv4.ip") = _ at hip
    change jsonDelve mem b depth 0 (bytes ".ipv4.sn") = _ at hsn
    change jsonDelve mem b depth 0 (bytes ".ipv4.gw") = _ at hgw
    change jsonDelve mem b depth 0 (bytes ".ipv4.hn") = _ at hhn
    simp only [networkToks, hmeth, hip, hsn, hgw, hhn, run_bind_ok]

/-- The calls of `json_delve` return if each of the walks ends. -/
theorem networkToks_ends (h : ∀ key ∈ valueKeys,
    ∃ found, jsonDelve mem b depth 0 (guideOf [bytes "ipv4", key]) = .ok found) :
    ∃ r, networkToks mem b depth = .ok r := by
  refine guard_ends ?_ rfl fun meth => guard_ends ?_ rfl fun ip => guard_ends ?_ rfl fun sn =>
    guard_ends ?_ rfl fun gw => guard_ends ?_ rfl fun hn => ⟨_, rfl⟩
  · exact h (bytes "meth") (by simp [valueKeys])
  · exact h (bytes "ip") (by simp [valueKeys])
  · exact h (bytes "sn") (by simp [valueKeys])
  · exact h (bytes "gw") (by simp [valueKeys])
  · exact h (bytes "hn") (by simp [valueKeys])

theorem networkConfigToks_ends_iff :
    (∃ c, networkConfigToks b mem toks = .ok c) ↔
      ∀ f ∈ toksFields toks, ∃ s, jsonTokValue b mem f.2 = .ok s := by
  simp only [toksFields, List.forall_mem_cons, List.not_mem_nil, false_imp_iff, implies_true,
    and_true]
  constructor
  · rintro ⟨c, hc⟩
    obtain ⟨meth, hmeth, hc⟩ := run_bind_eq_ok hc
    obtain ⟨ip, hip, hc⟩ := run_bind_eq_ok hc
    obtain ⟨sn, hsn, hc⟩ := run_bind_eq_ok hc
    obtain ⟨gw, hgw, hc⟩ := run_bind_eq_ok hc
    obtain ⟨hn, hhn, -⟩ := run_bind_eq_ok hc
    exact ⟨⟨meth, hmeth⟩, ⟨ip, hip⟩, ⟨sn, hsn⟩, ⟨gw, hgw⟩, ⟨hn, hhn⟩⟩
  · rintro ⟨⟨meth, hmeth⟩, ⟨ip, hip⟩, ⟨sn, hsn⟩, ⟨gw, hgw⟩, ⟨hn, hhn⟩⟩
    refine ⟨⟨meth, ip, sn, gw, hn⟩, ?_⟩
    simp only [networkConfigToks, hmeth, hip, hsn, hgw, hhn, run_bind_ok]

/-- The condition of `put` on a body with tokens. -/
theorem putToks_tokens {stack : Stack} {p : JsmnParser} (hparse : jsmnParse b putNumToks = .ok p)
    (hcount : p.count ≠ 0) :
    putToks stack b = networkToks (tokArray putNumToks p.toks stack) b stack.depth >>= fun found =>
      .ok (found.map fun toks => (tokArray putNumToks p.toks stack, toks)) := by
  simp only [putToks, hparse, if_neg hcount]
  cases networkToks (tokArray putNumToks p.toks stack) b stack.depth with
  | error e => rfl
  | ok found => cases found <;> rfl

end Walks

section Put

variable {io : PutIo} {body : Bytes} {stack : Stack} {p : JsmnParser}

/-- What `put` does with the tokens that its condition leaves: nothing is read, or the values are. -/
def PutEnds (stack : Stack) (body : Bytes) (io : PutIo) : Prop :=
  match putToks stack body with
  | .error _ => False
  | .ok none => True
  | .ok (some (mem, toks)) =>
    if io.opened then
      (∃ c, networkConfigToks body mem toks = .ok c) ∧
        (io.printed < 0 → (putErrorText io.printError).length < 2 ^ 31)
    else (putErrorText io.openError).length < 2 ^ 31

theorem networkPut_bounded_iff (stack : Stack) (body : Bytes) (io : PutIo) (file : Option Bytes) :
    (∃ r, networkPut stack body io file = .ok r ∧ r.response.body.length < 2 ^ 31) ↔
      PutEnds stack body io := by
  unfold networkPut PutEnds
  cases putToks stack body with
  | error e => exact iff_of_false run_error_ne_ok not_false
  | ok found =>
      rw [run_bind_ok]
      cases found with
      | none =>
          dsimp only
          rw [run_map_ok_iff, httpPrintfJson_bounded_iff (putErrorFormat_renders _)]
          exact iff_of_true (by decide) trivial
      | some found =>
          obtain ⟨mem, toks⟩ := found
          dsimp only
          by_cases hopened : io.opened = true
          · rw [if_pos hopened, if_pos hopened]
            cases networkConfigToks body mem toks with
            | error e =>
                refine iff_of_false run_error_ne_ok ?_
                rintro ⟨⟨c, hc⟩, -⟩
                cases hc
            | ok c =>
                rw [run_bind_ok, printNetworkConfig_eq, run_bind_ok]
                by_cases hprinted : io.printed < 0
                · rw [if_pos hprinted, run_map_ok_iff,
                    httpPrintfJson_bounded_iff (putErrorFormat_renders _)]
                  simp [hprinted]
                · have htext : vformat (cstr (bytes "\x7b\"error\":\"ok\"\x7d")) [] =
                      some (bytes "\x7b\"error\":\"ok\"\x7d") := by
                    repeat rw [bytes_ofList]
                    rfl
                  rw [if_neg hprinted, run_map_ok_iff, httpPrintfJson_bounded_iff htext]
                  exact iff_of_true (by decide) ⟨⟨c, rfl⟩, fun hneg => absurd hneg hprinted⟩
          · rw [if_neg hopened, if_neg hopened, run_map_ok_iff,
              httpPrintfJson_bounded_iff (putErrorFormat_renders _)]

/-- What is asked of a body with all five values: they are tokens if the file is opened, and an
error is not too long. -/
def PutSends (io : PutIo) (body : Bytes) (toks : List JsmnTok) : Prop :=
  if io.opened then
    ConfigFits body toks ∧ (io.printed < 0 → (putErrorText io.printError).length < 2 ^ 31)
  else (putErrorText io.openError).length < 2 ^ 31

/-- If jsmn finds tokens, no walk to a value inspects a slot behind them, and if all five values are
found they can be sent. -/
def NetworkPutAnswered (io : PutIo) (body : Bytes) : Prop :=
  ∀ p, jsmnParse body putNumToks = .ok p → p.count ≠ 0 →
    ConfigReads body p.toks ∧ (ConfigLeads body p.toks → PutSends io body p.toks)

theorem putEnds_of_answered (h : NetworkPutAnswered io body) : PutEnds stack body io := by
  unfold PutEnds
  cases hparse : jsmnParse body putNumToks with
  | error e => simp only [putToks, hparse]
  | ok p =>
      by_cases hcount : p.count = 0
      · simp only [putToks, hparse, if_pos hcount]
      obtain ⟨htokens, hlength, hroom⟩ := jsmnParse_tokens hparse
      have hdepth : p.toks.length ≤ stack.depth := Nat.le_trans hroom stack.hdepth
      obtain ⟨hreads, hsends⟩ := h p hparse hcount
      have hwalk := fun key hkey => @jsonDelve_reads body p.toks putNumToks stack _ htokens hroom
        hdepth (networkKeys key hkey) (hreads key hkey)
      obtain ⟨found, hfound⟩ := networkToks_ends fun key hkey =>
        (hwalk key hkey).imp fun _ hwalk => hwalk.1
      rw [putToks_tokens hparse hcount, hfound, run_bind_ok]
      cases found with
      | none => trivial
      | some toks =>
          have hdelve := networkToks_eq_some_iff.mp hfound
          have hleads : ConfigLeads body p.toks := by
            intro key hkey
            obtain ⟨i, hi⟩ := @exists_toksField toks key hkey
            obtain ⟨found, hfound, hleads⟩ := hwalk key hkey
            obtain rfl := Except.ok.inj (hfound.symm.trans (hdelve _ hi))
            exact ⟨i, (hleads i).mp rfl⟩
          have hsends := hsends hleads
          unfold PutSends at hsends
          dsimp only [Option.map_some]
          split
          · next hopened =>
            rw [if_pos hopened] at hsends
            refine ⟨networkConfigToks_ends_iff.mpr fun f hf => ?_, hsends.2⟩
            have hkey := toksFields_key hf
            obtain ⟨found, hfound, -, hvalue⟩ := @jsonDelve_fits body p.toks putNumToks stack _
              htokens hroom hdepth (by omega) (networkKeys f.1 hkey) (hsends.1 f.1 hkey)
            obtain rfl := Except.ok.inj (hfound.symm.trans (hdelve f hf))
            obtain ⟨t, -, htext⟩ := hvalue f.2 rfl
            exact ⟨_, htext⟩
          · next hopened =>
            rw [if_neg hopened] at hsends
            exact hsends

theorem configFits_of_none (hparse : jsmnParse body putNumToks = .ok p) (hcount : p.count ≠ 0)
    (h : networkToks (tokArray putNumToks p.toks trapStack) body trapStack.depth = .ok none) :
    ConfigFits body p.toks ∧ ¬ConfigLeads body p.toks := by
  obtain ⟨htokens, hlength, hroom⟩ := jsmnParse_tokens hparse
  obtain ⟨key, hkey, hnone⟩ := networkToks_eq_none h
  exact configFits_of_missing htokens hroom (Nat.le_trans hroom trapStack.hdepth) (by omega) hkey
    hnone

theorem answered_of_putEnds (h : PutEnds trapStack body io) : NetworkPutAnswered io body := by
  intro p hparse hcount
  obtain ⟨htokens, hlength, hroom⟩ := jsmnParse_tokens hparse
  have hdepth : p.toks.length ≤ trapStack.depth := Nat.le_trans hroom trapStack.hdepth
  unfold PutEnds at h
  rw [putToks_tokens hparse hcount] at h
  cases hfound : networkToks (tokArray putNumToks p.toks trapStack) body trapStack.depth with
  | error e =>
      rw [hfound] at h
      exact h.elim
  | ok found =>
      rw [hfound, run_bind_ok] at h
      cases found with
      | none =>
          obtain ⟨hfits, hleads⟩ := configFits_of_none hparse hcount hfound
          exact ⟨fun key hkey => (hfits key hkey).reads (by omega), fun hall => absurd hall hleads⟩
      | some toks =>
          have hdelve := networkToks_eq_some_iff.mp hfound
          constructor
          · intro key hkey
            obtain ⟨i, hi⟩ := @exists_toksField toks key hkey
            exact (guideReads_of_trap htokens hroom hdepth (networkKeys key hkey)
              (hdelve _ hi)).1
          · intro _
            dsimp only [Option.map_some] at h
            unfold PutSends
            split at h
            · next hopened =>
              rw [if_pos hopened]
              refine ⟨fun key hkey => ?_, h.2⟩
              obtain ⟨i, hi⟩ := @exists_toksField toks key hkey
              obtain ⟨s, hs⟩ := networkConfigToks_ends_iff.mp h.1 _ hi
              refine guideFits_of_trap htokens hroom hdepth (by omega) (networkKeys key hkey)
                (hdelve _ hi) ?_
              rintro _ ⟨⟩
              by_contra hge
              exact jsonTokValue_trap (Nat.le_of_not_lt hge) hs
            · next hopened =>
              rw [if_neg hopened]
              exact h

/-- On a document `put` answers, as long as the texts of errors are not too long. -/
theorem networkPutAnswered_document {d : Document} (hd : d.Lexical jsmnLexicon)
    (hopen : (putErrorText io.openError).length < 2 ^ 31)
    (hprint : (putErrorText io.printError).length < 2 ^ 31) : NetworkPutAnswered io d.text := by
  intro p hparse hcount
  have hfits := configFits_lexical hd hparse
  have hlength := (jsmnParse_tokens hparse).2.1
  refine ⟨fun key hkey => (hfits key hkey).reads (by omega), fun _ => ?_⟩
  unfold PutSends
  split
  · exact ⟨hfits, fun _ => hprint⟩
  · exact hopen

end Put

end Network

/-! ### Every route -/

section Handle

/-- The condition of each route. -/
def Answered (ctx : RouteContext) (m : HttpMessage) : ApiRoute → Prop
  | .env => getMethod m = .get ∧ EnvAnswered ctx m.query
  | .network =>
    match getMethod m with
    | .get => NetworkGetAnswered ctx
    | .put | .post => NetworkPutAnswered ctx.putIo m.body
    | .delete => False
  | .kill | .about => True

theorem routeEnv_responds_iff (ctx : RouteContext) (m : HttpMessage) :
    Responds (routeEnv ctx m) ↔ Answered ctx m .env := by
  unfold routeEnv Answered
  cases getMethod m with
  | get =>
      dsimp only
      rw [responds_bind_iff id fun response => rfl]
      simpa using envGet_bounded_iff ctx m.query
  | post | put | delete =>
      exact iff_of_false (not_responds_silent ctx) fun h => absurd h.1 (by decide)

theorem routeNetwork_responds_iff (ctx : RouteContext) (m : HttpMessage) :
    (∀ stack, Responds (routeNetwork { ctx with stack } m)) ↔ Answered ctx m .network := by
  unfold routeNetwork Answered
  cases getMethod m with
  | get =>
      have hbind : ∀ stack, Responds (networkGet ctx.file ctx.getIo >>= fun response =>
          .ok ({ ctx with stack }.respond response)) ↔ NetworkGetAnswered ctx := fun stack => by
        rw [responds_bind_iff id fun response => rfl]
        exact networkGet_bounded_iff ctx
      dsimp only
      rw [forall_congr' hbind]
      exact ⟨fun h => h ctx.stack, fun h stack => h⟩
  | post | put =>
      have hbind : ∀ stack, Responds (networkPut stack m.body ctx.putIo ctx.file >>= fun r =>
          .ok { { ctx with stack }.respond r.response with file := r.file }) ↔
            PutEnds stack m.body ctx.putIo := fun stack => by
        rw [responds_bind_iff PutResult.response fun r => rfl, networkPut_bounded_iff]
      dsimp only
      rw [forall_congr' hbind]
      exact ⟨fun h => answered_of_putEnds (h trapStack), fun h stack => putEnds_of_answered h⟩
  | delete =>
      refine iff_of_false (fun h => ?_) not_false
      exact not_responds_silent _ (h ctx.stack)

theorem routeKill_responds (ctx : RouteContext) : Responds (routeKill ctx) := by
  have htext : formatText killFormat [.str (httpErrorMessage 200)] =
      .ok (bytes "\x7b\"error\":200,\"message\":\"ok\"\x7d") := by
    decide +kernel
  have hformat : vformat (cstr ((bytes "\x7b\"error\":200,\"message\":\"ok\"\x7d").take
      (killSize - 1))) [] = some (bytes "\x7b\"error\":200,\"message\":\"ok\"\x7d") := by
    repeat rw [bytes_ofList]
    rfl
  rw [routeKill, htext, run_bind_ok, responds_bind_iff id fun response => rfl]
  exact (httpPrintfJson_bounded_iff hformat).mpr (by decide)

def aboutText : Bytes :=
  bytes "\x7b\"sid\":\"linqm5serialnumberhere\",\"product\":\"linqm5\"," ++
  bytes "\"prjVersion\":\"0.0.1\",\"atxVersion\":\"0.0.1\",\"webVersion\":\"0.0.1\"," ++
  bytes "\"mac\":\"00:00:00:00:00:00\",\x7d"

theorem routeAbout_responds (ctx : RouteContext) : Responds (routeAbout ctx) := by
  have hformat : vformat (cstr aboutFormat)
      [.str (bytes "linqm5serialnumberhere"), .str (bytes "linqm5"), .str (bytes "0.0.1"),
        .str (bytes "0.0.1"), .str (bytes "0.0.1"), .str (bytes "00:00:00:00:00:00")] =
      some aboutText := by
    decide +kernel
  rw [routeAbout, responds_bind_iff id fun response => rfl]
  exact (httpPrintfJson_bounded_iff hformat).mpr (by decide +kernel)

/-- **One response.** Whatever is on the stack, a handler of `http_listen` answers a request with one
response if and only if the condition of its route holds. -/
theorem route_responds_iff (ctx : RouteContext) (m : HttpMessage) (route : ApiRoute) :
    (∀ stack, Responds (route.handle { ctx with stack } m)) ↔ Answered ctx m route := by
  cases route with
  | env =>
      constructor
      · intro h
        exact (routeEnv_responds_iff ctx m).mp (h ctx.stack)
      · intro h stack
        exact (routeEnv_responds_iff { ctx with stack } m).mpr h
  | network => exact routeNetwork_responds_iff ctx m
  | kill => exact iff_of_true (fun stack => routeKill_responds _) trivial
  | about => exact iff_of_true (fun stack => routeAbout_responds _) trivial

section Concrete

/-- No variables and no configuration file, and no operation fails. -/
def plainContext : RouteContext where
  abi := lp64
  strstr := .scan
  env := ⟨some 0, true⟩
  vars := []
  buffer := zeroBuffer
  stack := zeroStack
  file := none
  getIo := .success []
  hint := by decide
  putIo := .success []

def putMessage (uri : Bytes) : HttpMessage :=
  { method := bytes "PUT", uri := uri, query := ⟨[], space⟩, body := [] }

/-- A configuration with the host name `x`, over two stacks. -/
theorem route_responds_iff_put :
    Responds (ApiRoute.network.handle { plainContext with stack := zeroStack }
      { putMessage (bytes "/api/v1/network") with body := configText (configOf (bytes "x")) }) ∧
    Responds (ApiRoute.network.handle { plainContext with stack := trapStack }
      { putMessage (bytes "/api/v1/network") with body := configText (configOf (bytes "x")) }) := by
  have hstr : ∀ f ∈ configFields (configOf (bytes "x")), StringBody (· ≠ 0) f.2 := by
    simp only [configFields, List.forall_mem_cons]
    exact ⟨str_of_plain (by decide), str_of_plain (by decide), str_of_plain (by decide),
      str_of_plain (by decide), str_of_plain (by decide), by simp⟩
  have hlexical := fieldsDocument_lexical (configFields_keys (configOf (bytes "x"))) hstr
  have hanswered := @networkPutAnswered_document plainContext.putIo _ hlexical (by decide)
    (by decide)
  rw [← configText_document] at hanswered
  have hresponds := (route_responds_iff plainContext { putMessage (bytes "/api/v1/network") with
    body := configText (configOf (bytes "x")) } .network).mpr hanswered
  exact ⟨hresponds zeroStack, hresponds trapStack⟩

/-- `PUT /api/v1/env` is not answered. -/
theorem route_env_put_silent :
    ∃ route, (bytes "/api/v1/env", route) ∈ listenRoutes ∧
      ¬Responds (route.handle plainContext (putMessage (bytes "/api/v1/env"))) := by
  refine ⟨.env, by simp [listenRoutes], ?_⟩
  exact not_responds_silent plainContext

end Concrete

end Handle

end AtxSys
