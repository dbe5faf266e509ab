import AtxSys.Lib.HttpReader
import AtxSys.Proof.System
import AtxSys.Wire

/-!
# What a client reads

The responses of a connection follow one another without anything between them. A client that finds
the end of each by its `Content-Length` reads the responses that were sent, whatever the bodies are.
-/

namespace AtxSys

open CText HttpText

/-! ### One response -/

def responseFields (contentType : Bytes) (length : Nat) : List (Bytes × Bytes) :=
  [(bytes "Server", bytes "Altronix atx-update Embedded Web Server"),
    (bytes "Connection", bytes "keep-alive"),
    (bytes "Content-Type", contentType),
    (bytes "Content-Length", decimal length),
    (bytes "X-Frame-Options", bytes "SAMEORIGIN"),
    (bytes "Content-Security-Policy", bytes "script-src 'self' 'unsafe-eval';")]

/-- What a response says to a client. -/
def Response.message (r : Response) : Message where
  code := r.code
  fields := responseFields r.contentType r.body.length
  body := r.body

/-- A response like those of the handlers. -/
structure Response.Framed (r : Response) : Prop where
  code : r.code ∈ [200, 404, 500]
  contentType : r.contentType = bytes "application/json"

theorem contentLength_response (contentType : Bytes) (length : Nat) :
    contentLength (responseFields contentType length) = some length := by
  have hfind : (responseFields contentType length).find?
      (fun field => field.1.map lower = bytes "content-length") =
        some (bytes "Content-Length", decimal length) := rfl
  rw [contentLength, hfind, Option.bind_some,
    if_pos ⟨(digits_decimal length).1, all_isDigit_decimal length⟩, decimalValue_decimal]

theorem Response.Framed.plain {r : Response} (h : r.Framed) : r.message.Plain := by
  refine ⟨?_, ?_, ?_, contentLength_response _ _⟩
  · have hcode := h.code
    simp only [List.mem_cons, List.not_mem_nil, or_false] at hcode
    change 100 ≤ r.code ∧ r.code < 1000
    omega
  · have hcode := h.code
    simp only [List.mem_cons, List.not_mem_nil, or_false] at hcode
    change bodyless r.code = false
    rcases hcode with hcode | hcode | hcode <;> rw [hcode] <;> rfl
  · intro field hfield
    have hfield : field ∈ responseFields r.contentType r.body.length := hfield
    rw [h.contentType] at hfield
    simp only [responseFields, List.mem_cons, List.not_mem_nil, or_false] at hfield
    rcases hfield with rfl | rfl | rfl | rfl | rfl | rfl
    case inr.inr.inr.inl =>
      exact plainField_of_name (by decide) (by decide) (plain_decimal _)
    all_goals exact plainField_of_name (by decide) (by decide) (by decide)

theorem headers_sent (code : Nat) {contentType : Bytes} (htype : 0 ∉ contentType) (length : Nat) :
    ConnOp.sent (.headers code contentType length) =
      .ok (statusText code ++ (responseFields contentType length).flatMap fieldText ++ crlf) := by
  have hserver : bytes " \r\nServer: Altronix atx-update Embedded Web Server\r\nConnection: " =
      bytes " " ++ (crlf ++ (bytes "Server" ++ (bytes ": " ++
        (bytes "Altronix atx-update Embedded Web Server" ++ (crlf ++
          (bytes "Connection" ++ bytes ": ")))))) := by
    decide +kernel
  have hcontentType : bytes "\r\nContent-Type: " =
      crlf ++ (bytes "Content-Type" ++ bytes ": ") := by
    decide +kernel
  have hcontentLength : bytes "\r\nContent-Length: " =
      crlf ++ (bytes "Content-Length" ++ bytes ": ") := by
    decide +kernel
  have hframe : bytes "X-Frame-Options: SAMEORIGIN\r\n" =
      bytes "X-Frame-Options" ++ (bytes ": " ++ (bytes "SAMEORIGIN" ++ crlf)) := by
    decide +kernel
  have hpolicy : bytes "Content-Security-Policy: script-src 'self' 'unsafe-eval';\r\n\r\n" =
      bytes "Content-Security-Policy" ++ (bytes ": " ++
        (bytes "script-src 'self' 'unsafe-eval';" ++ (crlf ++ crlf))) := by
    decide +kernel
  have hcrlf : bytes "\r\n" = crlf := by
    decide +kernel
  have hkeepAlive : cstr (bytes "keep-alive") = bytes "keep-alive" := by
    decide +kernel
  have hempty : cstr [] = [] := rfl
  -- unfolded here, or unification would evaluate the format
  rw [ConnOp.sent]
  apply formatText_eq_ok
  rw [httpFormatHeaders, vformat_append (by decide), vformat_int, vformat_append (by decide),
    vformat_str, vformat_append (by decide), vformat_str, vformat_append (by decide), vformat_int,
    vformat_append (by decide), vformat_str, vformat_append (by decide), vformat_text (by decide),
    cstr_eq_self htype, hkeepAlive, hempty, hserver, hcontentType, hcontentLength, hframe, hpolicy,
    hcrlf]
  simp only [statusText, responseFields, fieldText, List.flatMap_cons, List.flatMap_nil,
    List.append_assoc, List.append_nil, List.nil_append, Option.map_eq_map, Option.map_some]

theorem Response.Framed.sent {r : Response} (h : r.Framed) (hshort : r.body.length < 2 ^ 31) :
    sentBytes r.ops = .ok r.message.text := by
  have htype : 0 ∉ r.contentType := by
    rw [h.contentType]
    decide
  have hheaders := headers_sent r.code htype r.body.length
  rw [Response.ops, snprintfResult, if_pos hshort, sentBytes, hheaders, run_bind_ok, sentBytes,
    ConnOp.sent, run_bind_ok, sentBytes, run_bind_ok, run_bind_ok, List.append_nil]
  rfl

theorem sentBytes_append {ops ops' : List ConnOp} {text text' : Bytes}
    (h : sentBytes ops = .ok text) (h' : sentBytes ops' = .ok text') :
    sentBytes (ops ++ ops') = .ok (text ++ text') := by
  induction ops generalizing text with
  | nil =>
      obtain rfl := Except.ok.inj h
      exact h'
  | cons op ops ih =>
      obtain ⟨first, hfirst, h⟩ := run_bind_eq_ok h
      obtain ⟨rest, hrest, h⟩ := run_bind_eq_ok h
      rw [← Except.ok.inj h, List.cons_append, sentBytes, hfirst, run_bind_ok, ih hrest,
        run_bind_ok, List.append_assoc]

/-! ### The handlers -/

section Handlers

variable {ctx : RouteContext} {m : HttpMessage} {r : Response}

theorem httpPrintfJson_framed {code : Nat} {fmt : Bytes} {args : List Arg}
    (hcode : code ∈ [200, 404, 500]) (h : httpPrintfJson code fmt args = .ok r) : r.Framed := by
  obtain ⟨text, -, h⟩ := run_bind_eq_ok h
  rw [← Except.ok.inj h]
  exact ⟨hcode, rfl⟩

theorem envGet_framed {abi : Abi} {strstr : MgStrstr} {env : Env} {vars : List (Bytes × Bytes)}
    {buffer : EnvBuffer} {q : QueryString} (h : envGet abi strstr env vars buffer q = .ok r) :
    r.Framed := by
  obtain ⟨found, -, h⟩ := run_bind_eq_ok h
  cases found with
  | none =>
      obtain ⟨-, -, h⟩ := run_bind_eq_ok h
      obtain ⟨read, -, h⟩ := run_bind_eq_ok h
      obtain ⟨buff, -, h⟩ := run_bind_eq_ok h
      obtain ⟨text, -, h⟩ := run_bind_eq_ok h
      exact httpPrintfJson_framed (by decide) h
  | some place =>
      obtain ⟨key, -, h⟩ := run_bind_eq_ok h
      obtain ⟨-, -, h⟩ := run_bind_eq_ok h
      split at h
      · exact httpPrintfJson_framed (by decide) h
      · exact httpPrintfJson_framed (by decide) h

theorem networkGet_framed {file : Option Bytes} {io : GetIo} (h : networkGet file io = .ok r) :
    r.Framed := by
  unfold networkGet at h
  split at h
  · exact httpPrintfJson_framed (by decide) h
  · split at h
    · cases h
    · split at h
      · cases h
      · exact httpPrintfJson_framed (by decide) h

theorem networkPut_framed {stack : Stack} {b : Bytes} {io : PutIo} {file : Option Bytes}
    {put : PutResult} (h : networkPut stack b io file = .ok put) : put.response.Framed := by
  obtain ⟨found, -, h⟩ := run_bind_eq_ok h
  cases found with
  | none =>
      obtain ⟨response, hresponse, h⟩ := run_bind_eq_ok h
      rw [← Except.ok.inj h]
      exact httpPrintfJson_framed (by decide) hresponse
  | some toks =>
      dsimp only at h
      split at h
      · obtain ⟨c, -, h⟩ := run_bind_eq_ok h
        obtain ⟨text, -, h⟩ := run_bind_eq_ok h
        split at h
        all_goals
          obtain ⟨response, hresponse, h⟩ := run_bind_eq_ok h
          rw [← Except.ok.inj h]
          exact httpPrintfJson_framed (by decide) hresponse
      · obtain ⟨response, hresponse, h⟩ := run_bind_eq_ok h
        rw [← Except.ok.inj h]
        exact httpPrintfJson_framed (by decide) hresponse

/-- Nothing, or one response. -/
def Replies (ops : List ConnOp) : Prop := ops = [] ∨ ∃ r : Response, r.Framed ∧ ops = r.ops

theorem replies_respond {x : Run Response} {result : RouteResult}
    (hx : ∀ response, x = .ok response → response.Framed)
    (h : (x >>= fun response => .ok (ctx.respond response)) = .ok result) : Replies result.ops := by
  obtain ⟨response, hresponse, h⟩ := run_bind_eq_ok h
  rw [← Except.ok.inj h]
  exact .inr ⟨response, hx response hresponse, rfl⟩

theorem handle_replies {route : ApiRoute} {result : RouteResult}
    (h : route.handle ctx m = .ok result) : Replies result.ops := by
  cases route with
  | env =>
      have h : routeEnv ctx m = .ok result := h
      unfold routeEnv at h
      cases hmethod : getMethod m <;> rw [hmethod] at h
      · exact replies_respond (fun _ => envGet_framed) h
      all_goals
        rw [← Except.ok.inj h]
        exact .inl rfl
  | network =>
      have h : routeNetwork ctx m = .ok result := h
      unfold routeNetwork at h
      cases hmethod : getMethod m <;> rw [hmethod] at h
      case get => exact replies_respond (fun _ => networkGet_framed) h
      case delete =>
        rw [← Except.ok.inj h]
        exact .inl rfl
      all_goals
        obtain ⟨put, hput, h⟩ := run_bind_eq_ok h
        rw [← Except.ok.inj h]
        exact .inr ⟨put.response, networkPut_framed hput, rfl⟩
  | kill =>
      have h : routeKill ctx = .ok result := h
      obtain ⟨text, -, h⟩ := run_bind_eq_ok h
      obtain ⟨response, hresponse, h⟩ := run_bind_eq_ok h
      rw [← Except.ok.inj h]
      exact .inr ⟨response, httpPrintfJson_framed (by decide) hresponse, rfl⟩
  | about => exact replies_respond (fun _ => httpPrintfJson_framed (by decide)) h

/-- The three ways in which a request is handled. -/
theorem evHandler_inv {http : HttpServer} (hroutes : OnlyApi http) {handled : Handled}
    (h : evHandler http ctx m = .ok handled) :
    (∃ (route : ApiRoute) (result : RouteResult), route.handle ctx m = .ok result ∧
        handled = .route result) ∨
      (∃ root served, http.documentRoot = some root ∧ handled = .file served) ∨
      ∃ response, httpPrintfJson 404 notFoundFormat [.str (bytes "not found")] = .ok response ∧
        handled = .notFound response := by
  obtain ⟨found, hfound, h⟩ := run_bind_eq_ok h
  cases found with
  | some route =>
      obtain ⟨e, he, rfl⟩ := resolveRoute_mem hfound
      obtain ⟨route, hroute⟩ := hroutes e he
      rw [hroute] at h
      obtain ⟨result, hresult, h⟩ := run_bind_eq_ok h
      exact .inl ⟨route, result, hresult, (Except.ok.inj h).symm⟩
  | none =>
      dsimp only at h
      split at h
      · rename_i root hroot
        obtain ⟨served, -, h⟩ := run_bind_eq_ok h
        exact .inr (.inl ⟨root, served, hroot, (Except.ok.inj h).symm⟩)
      · obtain ⟨response, hresponse, h⟩ := run_bind_eq_ok h
        exact .inr (.inr ⟨response, hresponse, (Except.ok.inj h).symm⟩)

/-- Whatever handles a request without a fault, the connection gets nothing or one response. -/
theorem evHandler_replies {http : HttpServer} (hroutes : OnlyApi http) {handled : Handled}
    (h : evHandler http ctx m = .ok handled) : Replies handled.ops := by
  rcases evHandler_inv hroutes h with ⟨route, result, hresult, rfl⟩ | ⟨root, served, -, rfl⟩ |
    ⟨response, hresponse, rfl⟩
  · exact handle_replies hresult
  · exact .inl rfl
  · exact .inr ⟨response, httpPrintfJson_framed (by decide) hresponse, rfl⟩

/-- Without a document root mongoose writes nothing to a connection by itself. -/
theorem evHandler_ne_file {http : HttpServer} (hroutes : OnlyApi http)
    (hroot : http.documentRoot = none) {handled : Handled}
    (h : evHandler http ctx m = .ok handled) (served : Served) : handled ≠ .file served := by
  rcases evHandler_inv hroutes h with ⟨route, result, -, rfl⟩ | ⟨root, served', hroot', -⟩ |
    ⟨response, -, rfl⟩
  · nofun
  · rw [hroot] at hroot'
    cases hroot'
  · nofun

end Handlers

/-! ### A connection -/

theorem handleAll_ne_file {http : HttpServer} (hroutes : OnlyApi http)
    (hroot : http.documentRoot = none) {requests : List (RouteContext × HttpMessage)}
    {all : List Handled} (h : handleAll http requests = .ok all) :
    ∀ handled ∈ all, ∀ served, handled ≠ .file served := by
  induction requests generalizing all with
  | nil =>
      rw [← Except.ok.inj h]
      nofun
  | cons request requests ih =>
      obtain ⟨ctx, m⟩ := request
      obtain ⟨handled, hhandled, h⟩ := run_bind_eq_ok h
      obtain ⟨rest, hrest, h⟩ := run_bind_eq_ok h
      rw [← Except.ok.inj h, List.forall_mem_cons]
      exact ⟨evHandler_ne_file hroutes hroot hhandled, ih hrest⟩

/-- What a client makes of the calls for one request. -/
def Handled.messages (handled : Handled) : List Message :=
  match handled.ops with
  | [.headers code contentType _, .body text] =>
    [{ code := code.toNat, fields := responseFields contentType text.length, body := text }]
  | _ => []

/-- The bodies are shorter than an `int` can say. -/
def Handled.Short (handled : Handled) : Prop :=
  ∀ text, ConnOp.body text ∈ handled.ops → text.length < 2 ^ 31

theorem messages_of_replies {handled : Handled} (h : Replies handled.ops) (hshort : handled.Short) :
    (∀ m ∈ handled.messages, m.Plain) ∧
      sentBytes handled.ops = .ok (handled.messages.flatMap Message.text) := by
  rcases h with hnil | ⟨r, hr, hops⟩
  · rw [Handled.messages, hnil]
    exact ⟨nofun, rfl⟩
  · have hbody : r.body.length < 2 ^ 31 := by
      apply hshort
      rw [hops]
      exact List.mem_cons_of_mem _ List.mem_cons_self
    have hmessages : handled.messages = [r.message] := by
      rw [Handled.messages, hops]
      rfl
    rw [hmessages, List.flatMap_singleton, hops]
    exact ⟨fun m hm => List.mem_singleton.mp hm ▸ hr.plain, hr.sent hbody⟩

theorem handleAll_sent {http : HttpServer} (hroutes : OnlyApi http)
    {requests : List (RouteContext × HttpMessage)} {all : List Handled}
    (h : handleAll http requests = .ok all) (hshort : ∀ handled ∈ all, handled.Short) :
    (∀ m ∈ all.flatMap Handled.messages, m.Plain) ∧
      sentBytes (all.flatMap Handled.ops) =
        .ok ((all.flatMap Handled.messages).flatMap Message.text) := by
  induction requests generalizing all with
  | nil =>
      rw [← Except.ok.inj h]
      exact ⟨nofun, rfl⟩
  | cons request requests ih =>
      obtain ⟨ctx, m⟩ := request
      obtain ⟨handled, hhandled, h⟩ := run_bind_eq_ok h
      obtain ⟨rest, hrest, h⟩ := run_bind_eq_ok h
      obtain rfl := Except.ok.inj h
      have hfirst := messages_of_replies (evHandler_replies hroutes hhandled)
        (hshort handled List.mem_cons_self)
      have hothers := ih hrest fun h hmem => hshort h (List.mem_cons_of_mem _ hmem)
      rw [List.flatMap_cons, List.flatMap_cons, List.flatMap_append]
      refine ⟨?_, sentBytes_append hfirst.2 hothers.2⟩
      rw [List.forall_mem_append]
      exact ⟨hfirst.1, hothers.1⟩

/-- **One connection.** Where mongoose serves no files, a client reads the responses that were sent,
in order and with nothing left; and of what has arrived at any time those that are complete. -/
theorem connection_read {http : HttpServer} (hroutes : OnlyApi http)
    (hroot : http.documentRoot = none) {requests : List (RouteContext × HttpMessage)}
    {all : List Handled} (h : handleAll http requests = .ok all)
    (hshort : ∀ handled ∈ all, handled.Short) :
    (∀ handled ∈ all, ∀ served, handled ≠ .file served) ∧
      ∃ stream, sentBytes (all.flatMap Handled.ops) = .ok stream ∧
        readStream stream = (all.flatMap Handled.messages, []) ∧
        ∀ part, part <+: stream → ∃ k rest, readStream part =
          ((all.flatMap Handled.messages).take k, rest) ∧
            part = ((all.flatMap Handled.messages).take k).flatMap Message.text ++ rest ∧
            (rest = [] ∨ ∃ m, (all.flatMap Handled.messages)[k]? = some m ∧
              rest <+: m.text ∧ rest ≠ m.text) := by
  obtain ⟨hplain, hsent⟩ := handleAll_sent hroutes h hshort
  refine ⟨handleAll_ne_file hroutes hroot h, _, hsent, readStream_texts hplain, ?_⟩
  intro part hpart
  obtain ⟨k, rest, hsplit, hread, hrest⟩ := readStream_prefix hplain hpart
  exact ⟨k, rest, hread, hsplit, hrest⟩

deriving instance DecidableEq for Handled

/-- A request that its route answers, and one that no route takes. -/
def twoRequests : List (RouteContext × HttpMessage) :=
  [(plainContext, putMessage (bytes "/api/v1/kill")), (plainContext, putMessage (bytes "/x"))]

def twoHandled : List Handled :=
  [.route
      { ops :=
          [.headers 200 (bytes "application/json") 28,
            .body (bytes "\x7b\"error\":200,\"message\":\"ok\"\x7d")]
        file := none
        shutdown := true },
    .notFound
      { code := 404
        contentType := bytes "application/json"
        contentLength := 21
        body := bytes "\x7b\"error\":\"not found\"\x7d" }]

theorem connection_read_two :
    ∃ stream, handleAll plainServer twoRequests = .ok twoHandled ∧
      sentBytes (twoHandled.flatMap Handled.ops) = .ok stream ∧
      (readStream stream).1.map (fun m => (m.code, m.body)) =
        [(200, bytes "\x7b\"error\":200,\"message\":\"ok\"\x7d"),
          (404, bytes "\x7b\"error\":\"not found\"\x7d")] := by
  have hall : handleAll plainServer twoRequests = .ok twoHandled := by
    decide +kernel
  have hshort : ∀ handled ∈ twoHandled, handled.Short := by
    intro handled hmem text htext
    simp only [twoHandled, List.mem_cons, List.not_mem_nil, or_false] at hmem
    rcases hmem with rfl | rfl
    all_goals
      simp only [Handled.ops, Response.ops, List.mem_cons, List.not_mem_nil, or_false, reduceCtorEq,
        false_or, ConnOp.body.injEq] at htext
      subst htext
      decide
  obtain ⟨-, stream, hsent, hread, -⟩ := connection_read plainServer_onlyApi rfl hall hshort
  refine ⟨stream, hall, hsent, ?_⟩
  rw [hread]
  decide +kernel

end AtxSys
