import AtxSys.Proof.Routes
import AtxSys.Proof.Walk

/-!
# Requests that stop the program

The assertions on the way of a request: the one about the length of the URI, the two about the
configuration file, and those of `json_delve`. The last ones hold for the guides of the program,
whatever is in the body and in the token array.
-/

namespace AtxSys

open CText

/-- The run does not end at a failing `assert` or at `abort`. -/
def NeverAborts {α : Type} (r : Run α) : Prop := r ≠ .error .abort

section Rules

variable {α β : Type} {x y : Run α} {f : α → Run β}

theorem neverAborts_ok (a : α) : NeverAborts (.ok a) := nofun

theorem neverAborts_error {e : Fault} (he : e ≠ .abort) : NeverAborts (.error e : Run α) := by
  intro h
  exact he (Except.error.inj h)

theorem neverAborts_text : NeverAborts (.error .text : Run α) := neverAborts_error (by decide)

theorem neverAborts_context : NeverAborts (.error .context : Run α) := neverAborts_error (by decide)

theorem NeverAborts.bind (hx : NeverAborts x) (hf : ∀ a, NeverAborts (f a)) :
    NeverAborts (x >>= f) := by
  cases x with
  | error e =>
      apply neverAborts_error
      intro he
      exact hx (congrArg Except.error he)
  | ok a => exact hf a

theorem neverAborts_map_iff {g : α → β} :
    NeverAborts (x >>= fun a => .ok (g a)) ↔ NeverAborts x := by
  constructor
  · intro h habort
    apply h
    rw [habort]
    rfl
  · intro h
    exact h.bind fun a => neverAborts_ok (g a)

theorem NeverAborts.map (hx : NeverAborts x) (g : α → β) :
    NeverAborts (x >>= fun a => .ok (g a)) :=
  neverAborts_map_iff.mpr hx

theorem NeverAborts.ite {p : Prop} [Decidable p] (hx : p → NeverAborts x)
    (hy : ¬p → NeverAborts y) : NeverAborts (if p then x else y) := by
  split
  · exact hx ‹p›
  · exact hy ‹¬p›

theorem neverAborts_formatText (fmt : Bytes) (args : List Arg) :
    NeverAborts (formatText fmt args) := by
  unfold formatText
  split
  · exact neverAborts_error (by decide)
  · exact neverAborts_ok _

theorem neverAborts_httpPrintfJson (code : Nat) (fmt : Bytes) (args : List Arg) :
    NeverAborts (httpPrintfJson code fmt args) :=
  (neverAborts_formatText _ _).map _

end Rules

/-! ### The tokens of a body -/

section Tokens

variable {mem : TokMem} {buffer : Bytes}

theorem neverAborts_readTok (i : Nat) : NeverAborts (readTok mem i) := by
  unfold readTok
  split
  · exact neverAborts_error (by simp)
  · exact neverAborts_ok _

theorem neverAborts_readText (start stop : Int) : NeverAborts (readText buffer start stop) :=
  .ite (fun _ => neverAborts_ok _) fun _ => neverAborts_text

theorem neverAborts_iterate {α : Type} {f : α → Run α} (hf : ∀ a, NeverAborts (f a)) (n : Nat)
    (a : α) : NeverAborts (iterate f n a) := by
  induction n generalizing a with
  | zero => exact neverAborts_ok a
  | succ n ih => exact (hf a).bind ih

theorem neverAborts_jsonNext (depth tok : Nat) : NeverAborts (jsonNext mem depth tok) := by
  induction depth generalizing tok with
  | zero => exact neverAborts_error (by decide)
  | succ depth ih =>
      apply (neverAborts_readTok tok).bind
      intro t
      exact neverAborts_iterate ih t.size (tok + 1)

theorem neverAborts_jsonTokStreq (tok : JsmnTok) (str : Bytes) :
    NeverAborts (jsonTokStreq buffer tok str) := by
  apply NeverAborts.ite
  · exact fun _ => neverAborts_ok false
  · intro _
    apply NeverAborts.ite
    · exact fun _ => neverAborts_ok false
    · exact fun _ => (neverAborts_readText _ _).map _

theorem neverAborts_memberLoop (label : Bytes) (depth n t : Nat) :
    NeverAborts (memberLoop mem buffer label depth n t) := by
  induction n generalizing t with
  | zero => exact neverAborts_ok none
  | succ n ih =>
      apply (neverAborts_readTok t).bind
      intro key
      apply (neverAborts_jsonTokStreq key label).bind
      intro found
      apply NeverAborts.ite
      · exact fun _ => neverAborts_ok _
      · exact fun _ => (neverAborts_jsonNext depth (t + 1)).bind ih

theorem neverAborts_jsonGetMember (label : Bytes) (depth tok : Nat) :
    NeverAborts (jsonGetMember mem buffer label depth tok) := by
  apply (neverAborts_readTok tok).bind
  intro t
  apply NeverAborts.ite
  · exact fun _ => neverAborts_ok none
  · exact fun _ => neverAborts_memberLoop label depth t.size (tok + 1)

/-- A guide of keys that fit never fails an assertion. -/
theorem neverAborts_jsonDelve {keys : List Bytes} (hkeys : ∀ key ∈ keys, IsGuideKey key)
    (depth tok : Nat) : NeverAborts (jsonDelve mem buffer depth tok (guideOf keys)) := by
  have hfuel := length_le_guideOf keys
  unfold jsonDelve
  generalize (guideOf keys).length = fuel at hfuel
  induction keys generalizing fuel tok with
  | nil =>
      cases fuel with
      | zero => exact neverAborts_ok _
      | succ fuel => exact neverAborts_ok _
  | cons key keys ih =>
      rw [List.length_cons] at hfuel
      obtain ⟨fuel, rfl⟩ := Nat.exists_eq_add_of_le' (Nat.le_of_add_left_le hfuel)
      rw [delveLoop_cons mem buffer depth fuel tok (hkeys key List.mem_cons_self)]
      apply (neverAborts_readTok tok).bind
      intro t
      apply NeverAborts.ite
      · exact fun _ => neverAborts_ok none
      · intro _
        apply (neverAborts_jsonGetMember key depth tok).bind
        intro found
        cases found with
        | none => exact neverAborts_ok none
        | some next =>
            exact ih (fun key hkey => hkeys key (List.mem_cons_of_mem _ hkey)) next fuel (by omega)

end Tokens

/-! ### The handlers -/

section Handlers

variable {ctx : RouteContext} {m : HttpMessage}

theorem neverAborts_networkToks (mem : TokMem) (b : Bytes) (depth : Nat) :
    NeverAborts (networkToks mem b depth) := by
  have hdelve : ∀ key ∈ [bytes "meth", bytes "ip", bytes "sn", bytes "gw", bytes "hn"],
      NeverAborts (jsonDelve mem b depth 0 (guideOf [bytes "ipv4", key])) := by
    intro key hkey
    exact neverAborts_jsonDelve (networkKeys key hkey) depth 0
  apply (hdelve (bytes "meth") (by simp)).bind
  rintro (_ | meth)
  · exact neverAborts_ok none
  apply (hdelve (bytes "ip") (by simp)).bind
  rintro (_ | ip)
  · exact neverAborts_ok none
  apply (hdelve (bytes "sn") (by simp)).bind
  rintro (_ | sn)
  · exact neverAborts_ok none
  apply (hdelve (bytes "gw") (by simp)).bind
  rintro (_ | gw)
  · exact neverAborts_ok none
  apply (hdelve (bytes "hn") (by simp)).bind
  rintro (_ | hn)
  · exact neverAborts_ok none
  exact neverAborts_ok _

theorem neverAborts_jsonTokValue (b : Bytes) (mem : TokMem) (tok : Nat) :
    NeverAborts (jsonTokValue b mem tok) :=
  (neverAborts_readTok tok).bind fun t => neverAborts_readText t.start t.stop

theorem neverAborts_networkConfigToks (b : Bytes) (mem : TokMem) (t : NetToks) :
    NeverAborts (networkConfigToks b mem t) := by
  apply (neverAborts_jsonTokValue b mem t.meth).bind
  intro meth
  apply (neverAborts_jsonTokValue b mem t.ip).bind
  intro ip
  apply (neverAborts_jsonTokValue b mem t.sn).bind
  intro sn
  apply (neverAborts_jsonTokValue b mem t.gw).bind
  intro gw
  apply (neverAborts_jsonTokValue b mem t.hn).bind
  intro hn
  exact neverAborts_ok _

theorem neverAborts_putToks (stack : Stack) (b : Bytes) : NeverAborts (putToks stack b) := by
  unfold putToks
  split
  · exact neverAborts_ok none
  · next p hparse =>
    apply NeverAborts.ite
    · exact fun _ => neverAborts_ok none
    · intro _
      apply (neverAborts_networkToks _ b stack.depth).bind
      intro toks
      cases toks with
      | none => exact neverAborts_ok none
      | some toks => exact neverAborts_ok _

/-- `put` never fails an assertion, on any body. -/
theorem neverAborts_networkPut (stack : Stack) (b : Bytes) (io : PutIo) (file : Option Bytes) :
    NeverAborts (networkPut stack b io file) := by
  apply (neverAborts_putToks stack b).bind
  intro found
  cases found with
  | none => exact (neverAborts_httpPrintfJson _ _ _).map _
  | some found =>
      apply NeverAborts.ite
      · intro _
        apply (neverAborts_networkConfigToks b found.1 found.2).bind
        intro c
        apply (neverAborts_formatText _ _).bind
        intro text
        apply NeverAborts.ite
        · exact fun _ => (neverAborts_httpPrintfJson _ _ _).map _
        · exact fun _ => (neverAborts_httpPrintfJson _ _ _).map _
      · exact fun _ => (neverAborts_httpPrintfJson _ _ _).map _

theorem neverAborts_httpParseQueryStr (strstr : MgStrstr) (q : QueryString) (want : Bytes) :
    NeverAborts (httpParseQueryStr strstr q want) := by
  unfold httpParseQueryStr
  dsimp only
  split
  · exact neverAborts_ok none
  · apply NeverAborts.ite
    · intro _
      apply NeverAborts.ite
      · exact fun _ => neverAborts_text
      · exact fun _ => neverAborts_ok _
    · exact fun _ => neverAborts_ok none

theorem neverAborts_apply (buff : Bytes) (access : BuffAccess) :
    NeverAborts (access.apply buff) := by
  cases access with
  | store offset c =>
      exact NeverAborts.ite (fun _ => neverAborts_ok _) fun _ => neverAborts_text
  | print offset size text =>
      apply NeverAborts.ite
      · exact fun _ => neverAborts_error (by decide)
      · intro _
        apply NeverAborts.ite
        · exact fun _ => neverAborts_ok buff
        · intro _
          exact NeverAborts.ite (fun _ => neverAborts_ok _) fun _ => neverAborts_text

theorem neverAborts_applyAll (buff : Bytes) (accesses : List BuffAccess) :
    NeverAborts (applyAll buff accesses) := by
  induction accesses generalizing buff with
  | nil => exact neverAborts_ok buff
  | cons access accesses ih => exact (neverAborts_apply buff access).bind ih

theorem neverAborts_envGetAll (vars : List (Bytes × Bytes)) (buffer : EnvBuffer) :
    NeverAborts (envGetAll vars buffer) := by
  obtain ⟨read, hread⟩ := envRead_ok vars (UInt32.ofNat envBufferSize)
  rw [envGetAll, hread, run_bind_ok]
  apply (neverAborts_applyAll _ _).bind
  intro buff
  have htext : NeverAborts (arrayText buff) :=
    .ite (fun _ => neverAborts_ok _) fun _ => neverAborts_text
  exact htext.bind fun text => neverAborts_httpPrintfJson _ _ _

theorem neverAborts_libubootIterator (env : Env) : NeverAborts (libubootIterator env) :=
  .ite (fun _ => neverAborts_ok ()) fun _ => neverAborts_context

theorem neverAborts_envGet (ctx : RouteContext) (q : QueryString) :
    NeverAborts (envGet ctx.abi ctx.strstr ctx.env ctx.vars ctx.buffer q) := by
  apply (neverAborts_httpParseQueryStr ctx.strstr q (bytes "var")).bind
  intro found
  cases found with
  | none =>
      apply (neverAborts_libubootIterator ctx.env).bind
      intro _
      exact neverAborts_envGetAll ctx.vars ctx.buffer
  | some found =>
      have hkey : NeverAborts (envKey ctx.abi q found.1 found.2) :=
        (neverAborts_formatText _ _).map _
      apply hkey.bind
      intro key
      apply (neverAborts_libubootIterator ctx.env).bind
      intro _
      split
      · exact neverAborts_httpPrintfJson _ _ _
      · exact neverAborts_httpPrintfJson _ _ _

/-- There is no memory for the content of the file, or `fread` does not read all of it. -/
def ReadFailed (ctx : RouteContext) : Prop :=
  (if ctx.getIo.opened then ctx.file else none) ≠ none ∧
    ¬(ctx.getIo.allocated = true ∧ ctx.getIo.read = ctx.getIo.available)

theorem neverAborts_networkGet_iff (ctx : RouteContext) :
    NeverAborts (networkGet ctx.file ctx.getIo) ↔ ¬ReadFailed ctx := by
  unfold networkGet ReadFailed
  cases if ctx.getIo.opened then ctx.file else none with
  | none =>
      refine iff_of_true (neverAborts_httpPrintfJson _ _ _) ?_
      rintro ⟨hfile, -⟩
      exact hfile rfl
  | some content =>
      dsimp only
      cases ctx.getIo.allocated with
      | false => exact iff_of_false (fun h => h rfl) fun h => h ⟨nofun, nofun⟩
      | true =>
          rw [if_neg (by decide)]
          by_cases hread : ctx.getIo.read = ctx.getIo.available
          · rw [if_neg (not_not.mpr hread)]
            exact iff_of_true (neverAborts_httpPrintfJson _ _ _) fun h => h.2 ⟨rfl, hread⟩
          · rw [if_pos hread]
            exact iff_of_false (fun h => h rfl) fun h => h ⟨nofun, fun hok => hread hok.2⟩

theorem neverAborts_routeEnv (ctx : RouteContext) (m : HttpMessage) :
    NeverAborts (routeEnv ctx m) := by
  unfold routeEnv
  cases getMethod m with
  | get => exact (neverAborts_envGet ctx m.query).map _
  | put | post | delete => exact neverAborts_ok _

theorem neverAborts_routeNetwork_iff (ctx : RouteContext) (m : HttpMessage) :
    NeverAborts (routeNetwork ctx m) ↔ ¬(getMethod m = .get ∧ ReadFailed ctx) := by
  unfold routeNetwork
  cases getMethod m with
  | get =>
      dsimp only
      rw [neverAborts_map_iff, neverAborts_networkGet_iff]
      simp
  | put | post =>
      refine iff_of_true ?_ nofun
      exact (neverAborts_networkPut _ _ _ _).map _
  | delete => exact iff_of_true (neverAborts_ok _) nofun

theorem neverAborts_handle_iff (ctx : RouteContext) (m : HttpMessage) (route : ApiRoute) :
    NeverAborts (route.handle ctx m) ↔ ¬(route = .network ∧ getMethod m = .get ∧ ReadFailed ctx) := by
  cases route with
  | env => exact iff_of_true (neverAborts_routeEnv ctx m) nofun
  | network =>
      rw [and_iff_right rfl]
      exact neverAborts_routeNetwork_iff ctx m
  | kill =>
      refine iff_of_true ?_ nofun
      apply (neverAborts_formatText _ _).bind
      intro text
      exact (neverAborts_httpPrintfJson _ _ _).map _
  | about =>
      refine iff_of_true ?_ nofun
      exact (neverAborts_httpPrintfJson _ _ _).map _

end Handlers

/-! ### The event -/

section Event

variable {http : HttpServer} {ctx : RouteContext} {m : HttpMessage}

theorem resolveRoute_ok {ρ : Type} (routes : RouteTable ρ) {uri : Bytes}
    (huri : uri.length < pathSize) : ∃ found, resolveRoute routes uri = .ok found := by
  rw [resolveRoute, if_neg (by omega), formatText_precision, run_bind_ok]
  dsimp only
  split
  · exact ⟨_, rfl⟩
  · exact ⟨_, rfl⟩

theorem neverAborts_processFile (calls : FileCalls) (root uri : Bytes) :
    NeverAborts (processFile calls root uri) := by
  unfold processFile
  split
  · exact neverAborts_ok _
  · apply (neverAborts_formatText _ _).bind
    intro b
    apply NeverAborts.ite
    · exact fun _ => neverAborts_ok _
    · exact fun _ => (neverAborts_formatText _ _).map _

/-- The URI fits the path, the file is read when the route of the network gets it, and a handler
of an application does not abort. -/
structure Survives (http : HttpServer) (ctx : RouteContext) (m : HttpMessage) : Prop where
  uri : m.uri.length < pathSize
  read : resolveRoute http.routes m.uri = .ok (some (.api .network)) → getMethod m = .get →
    ¬ReadFailed ctx
  other : ∀ cb, resolveRoute http.routes m.uri = .ok (some (.other cb)) → NeverAborts (cb ctx m)

/-- **No request stops the program** exactly if its URI fits, the configuration file is read whole
when it is asked for, and the handlers of applications do not abort. -/
theorem evHandler_survives_iff (http : HttpServer) (ctx : RouteContext) (m : HttpMessage) :
    NeverAborts (evHandler http ctx m) ↔ Survives http ctx m := by
  by_cases huri : m.uri.length < pathSize
  · obtain ⟨found, hfound⟩ := resolveRoute_ok http.routes huri
    rw [evHandler, hfound, run_bind_ok]
    cases found with
    | none =>
        refine iff_of_true ?_ ⟨huri, ?_, ?_⟩
        · dsimp only
          split
          · exact (neverAborts_processFile _ _ _).map _
          · exact (neverAborts_httpPrintfJson _ _ _).map _
        · rw [hfound]
          nofun
        · rw [hfound]
          nofun
    | some route =>
        dsimp only
        rw [neverAborts_map_iff]
        cases route with
        | api route =>
            change NeverAborts (route.handle ctx m) ↔ _
            rw [neverAborts_handle_iff]
            constructor
            · intro h
              refine ⟨huri, ?_, ?_⟩
              · rw [hfound]
                intro hroute hget hfailed
                exact h ⟨Route.api.inj (Option.some.inj (Except.ok.inj hroute)), hget, hfailed⟩
              · rw [hfound]
                nofun
            · rintro h ⟨rfl, hget, hfailed⟩
              exact h.read hfound hget hfailed
        | other cb =>
            constructor
            · intro h
              refine ⟨huri, ?_, ?_⟩
              · rw [hfound]
                nofun
              · rw [hfound]
                intro cb' hcb
                rw [← Route.other.inj (Option.some.inj (Except.ok.inj hcb))]
                exact h
            · intro h
              exact h.other cb hfound
  · refine iff_of_false ?_ fun h => huri h.uri
    intro h
    apply h
    rw [evHandler, resolveRoute, if_pos (Nat.not_lt.mp huri)]
    rfl

section Concrete

/-- The routes of `http_listen`, and no files. -/
def plainServer : HttpServer where
  routes :=
    { entries := listenRoutes.map fun e => (e.1, .api e.2)
      hkeys := by decide
      hnodup := by decide }
  documentRoot := none
  calls := ⟨some, fun _ => false⟩

/-- `GET` with a path of 128 bytes. -/
def longMessage : HttpMessage where
  method := bytes "GET"
  uri := List.replicate 128 0x2F
  query := ⟨[], space⟩
  body := []

theorem evHandler_long_uri : ¬NeverAborts (evHandler plainServer plainContext longMessage) := by
  intro h
  apply h
  have hlength : longMessage.uri.length = pathSize := List.length_replicate ..
  rw [evHandler, resolveRoute, if_pos hlength.ge]
  rfl

end Concrete

end Event

end AtxSys
