import AtxSys.Lib.Trace
import AtxSys.Proof.Aborts
import AtxSys.Proof.Resolve
import AtxSys.Proof.UserConfig
import AtxSys.System

/-!
# Runs of the program

The loop of `main` ends with the poll in which it is told to. Whatever is requested in between, the
configuration file is a register: it holds what was stored last, the next request reads it, and the
next start writes the interfaces from it.
-/

namespace AtxSys

open CText JsonSyntax Trace

section System

variable {http : HttpServer} {s s' : Atxsys} {ctx : RouteContext} {m : HttpMessage}

/-! ### One request -/

/-- Only routes of the program are registered. -/
def OnlyApi (http : HttpServer) : Prop :=
  ∀ e ∈ http.routes.entries, ∃ route, e.2 = .api route

/-- The route of the program that takes a request. -/
def routeOf (http : HttpServer) (m : HttpMessage) : Option ApiRoute :=
  match resolveRoute http.routes m.uri with
  | .ok (some (.api route)) => some route
  | _ => none

theorem resolveRoute_mem {ρ : Type} {routes : RouteTable ρ} {uri : Bytes} {route : ρ}
    (h : resolveRoute routes uri = .ok (some route)) : ∃ e ∈ routes.entries, e.2 = route := by
  by_cases huri : uri.length < pathSize
  · rw [resolveRoute_eq routes huri] at h
    rcases Option.or_eq_some_iff.mp (Except.ok.inj h) with hget | ⟨-, hfind⟩
    · obtain ⟨e, he, -, hroute⟩ := get_eq_some_iff.mp hget
      exact ⟨e, he, hroute⟩
    · obtain ⟨e, he, hroute⟩ := Option.map_eq_some_iff.mp hfind
      exact ⟨e, List.mem_of_find?_eq_some he, hroute⟩
  · rw [resolveRoute, if_pos (Nat.not_lt.mp huri)] at h
    cases h

/-- A request is one for a route of the program, or it is about files. -/
theorem evHandler_cases (hroutes : OnlyApi http) {handled : Handled}
    (h : evHandler http ctx m = .ok handled) :
    (∃ route result, routeOf http m = some route ∧ route.handle ctx m = .ok result ∧
        handled = .route result) ∨
      routeOf http m = none ∧ ∀ result, handled ≠ .route result := by
  obtain ⟨found, hfound, h⟩ := run_bind_eq_ok h
  cases found with
  | some route =>
      obtain ⟨e, he, rfl⟩ := resolveRoute_mem hfound
      obtain ⟨route, hroute⟩ := hroutes e he
      rw [hroute] at hfound h
      obtain ⟨result, hresult, h⟩ := run_bind_eq_ok h
      have hrouteOf : routeOf http m = some route := by rw [routeOf, hfound]
      exact .inl ⟨route, result, hrouteOf, hresult, (Except.ok.inj h).symm⟩
  | none =>
      have hrouteOf : routeOf http m = none := by rw [routeOf, hfound]
      refine .inr ⟨hrouteOf, ?_⟩
      dsimp only at h
      split at h
      · obtain ⟨served, -, h⟩ := run_bind_eq_ok h
        rw [← Except.ok.inj h]
        nofun
      · obtain ⟨response, -, h⟩ := run_bind_eq_ok h
        rw [← Except.ok.inj h]
        nofun

/-- A handler that only answers. -/
theorem respond_effect {x : Run Response} {result : RouteResult}
    (h : (x >>= fun response => .ok (ctx.respond response)) = .ok result) :
    result.file = ctx.file ∧ result.shutdown = false := by
  obtain ⟨response, -, h⟩ := run_bind_eq_ok h
  rw [← Except.ok.inj h]
  exact ⟨rfl, rfl⟩

/-- What the handlers do to the file and to the flag. -/
theorem handle_effect {route : ApiRoute} {result : RouteResult}
    (h : route.handle ctx m = .ok result) :
    result.shutdown = decide (route = .kill) ∧
      if route = .network ∧ (getMethod m = .put ∨ getMethod m = .post) then
        ∃ r, networkPut ctx.stack m.body ctx.putIo ctx.file = .ok r ∧ result.file = r.file
      else result.file = ctx.file := by
  cases route with
  | env =>
      rw [if_neg fun hroute => absurd hroute.1 (by decide)]
      have h : routeEnv ctx m = .ok result := h
      unfold routeEnv at h
      cases hmethod : getMethod m <;> rw [hmethod] at h
      · exact (respond_effect h).symm
      all_goals
        rw [← Except.ok.inj h]
        exact ⟨rfl, rfl⟩
  | network =>
      have h : routeNetwork ctx m = .ok result := h
      unfold routeNetwork at h
      cases hmethod : getMethod m <;> rw [hmethod] at h
      · rw [if_neg (by decide)]
        exact (respond_effect h).symm
      · rw [if_pos (by decide)]
        obtain ⟨r, hr, h⟩ := run_bind_eq_ok h
        rw [← Except.ok.inj h]
        exact ⟨rfl, r, hr, rfl⟩
      · rw [if_pos (by decide)]
        obtain ⟨r, hr, h⟩ := run_bind_eq_ok h
        rw [← Except.ok.inj h]
        exact ⟨rfl, r, hr, rfl⟩
      · rw [if_neg (by decide), ← Except.ok.inj h]
        exact ⟨rfl, rfl⟩
  | kill =>
      rw [if_neg fun hroute => absurd hroute.1 (by decide)]
      have h : routeKill ctx = .ok result := h
      obtain ⟨text, -, h⟩ := run_bind_eq_ok h
      obtain ⟨response, -, h⟩ := run_bind_eq_ok h
      rw [← Except.ok.inj h]
      exact ⟨rfl, rfl⟩
  | about =>
      rw [if_neg fun hroute => absurd hroute.1 (by decide)]
      exact (respond_effect h).symm

/-! ### The loop -/

/-- What ends the loop: a request that is routed to `route_kill`, or the signal. -/
def stops (http : HttpServer) : MainEvent → Bool
  | .request _ m => routeOf http m = some .kill
  | .sigint => true

/-- The condition of the loop. -/
def goesOn (s : Atxsys) : Bool := s.running && atxsysIsRunning s

theorem mainEvent_goesOn (hroutes : OnlyApi http) {e : MainEvent}
    (h : mainEvent http s e = .ok s') : goesOn s' = (goesOn s && !stops http e) := by
  cases e with
  | sigint =>
      obtain rfl := Except.ok.inj h
      simp [goesOn, stops]
  | request ctx m =>
      obtain ⟨handled, hhandled, h⟩ := run_bind_eq_ok h
      rcases evHandler_cases hroutes hhandled with
        ⟨route, result, hroute, hresult, rfl⟩ | ⟨hroute, hnot⟩
      · obtain rfl := Except.ok.inj h
        have hshutdown := (handle_effect hresult).1
        simp only [goesOn, atxsysIsRunning, stops, hroute, hshutdown, Option.some.injEq,
          Bool.not_or, Bool.and_assoc]
      · have hsame : s' = s := by
          cases handled with
          | route result => exact absurd rfl (hnot result)
          | file served | notFound response => exact (Except.ok.inj h).symm
        rw [hsame, stops, hroute]
        simp

theorem mainPoll_goesOn (hroutes : OnlyApi http) {events : List MainEvent}
    (h : mainPoll http s events = .ok s') :
    goesOn s' = (goesOn s && !events.any (stops http)) := by
  induction events generalizing s with
  | nil =>
      obtain rfl := Except.ok.inj h
      simp
  | cons e events ih =>
      obtain ⟨t, ht, h⟩ := run_bind_eq_ok h
      rw [ih h, mainEvent_goesOn hroutes ht, List.any_cons, Bool.not_or, Bool.and_assoc]

theorem mainPoll_eq_foldlM (events : List MainEvent) :
    mainPoll http s events = events.foldlM (mainEvent http) s := by
  induction events generalizing s with
  | nil => rfl
  | cons e events ih =>
      rw [mainPoll, List.foldlM_cons]
      congr 1
      funext t
      exact ih

/-- No event of the poll ends the loop. -/
def quiet (http : HttpServer) (events : List MainEvent) : Bool := !events.any (stops http)

/-- The polls up to the first one with an event that ends the loop, which is one of them. -/
def pollsMade (http : HttpServer) (polls : List (List MainEvent)) : List (List MainEvent) :=
  polls.takeWhile (quiet http) ++ (polls.dropWhile (quiet http)).take 1

def pollsLeft (http : HttpServer) (polls : List (List MainEvent)) : List (List MainEvent) :=
  (polls.dropWhile (quiet http)).tail

/-- A stopped loop makes no poll. -/
theorem mainLoop_stopped (h : goesOn s = false) (polls : List (List MainEvent)) :
    mainLoop http s polls = .ok (s, polls) := by
  cases polls with
  | nil => rfl
  | cons events polls =>
      rw [mainLoop, if_neg]
      exact Bool.eq_false_iff.mp h

/-- **The loop ends** with the poll in which the first request for `route_kill` or the signal is
handled, and with no other: it is the fold over the events of all polls up to that one, and makes
none behind it. An event that aborts ends both. -/
theorem mainLoop_stops (hroutes : OnlyApi http) (hstart : goesOn s = true)
    (polls : List (List MainEvent)) :
    mainLoop http s polls =
        ((pollsMade http polls).flatten.foldlM (mainEvent http) s >>= fun s' =>
          .ok (s', pollsLeft http polls)) ∧
      ∀ s' rest, mainLoop http s polls = .ok (s', rest) → goesOn s' = polls.all (quiet http) := by
  induction polls generalizing s with
  | nil =>
      refine ⟨rfl, fun s' rest h => ?_⟩
      obtain ⟨rfl, -⟩ := Prod.mk.inj (Except.ok.inj h)
      exact hstart
  | cons events polls ih =>
      have hcond : (s.running && atxsysIsRunning s) = true := hstart
      rw [mainLoop, if_pos hcond, mainPoll_eq_foldlM]
      unfold pollsMade pollsLeft
      rw [List.takeWhile_cons, List.dropWhile_cons, List.all_cons]
      cases hrun : events.foldlM (mainEvent http) s with
      | error e =>
          refine ⟨?_, fun s' rest h => by cases h⟩
          cases quiet http events <;>
            simp [hrun, List.foldlM_append]
      | ok t =>
          have hgoes : goesOn t = quiet http events := by
            rw [mainPoll_goesOn hroutes ((mainPoll_eq_foldlM events).trans hrun), hstart,
              Bool.true_and, quiet]
          cases hquiet : quiet http events with
          | true =>
              rw [hquiet] at hgoes
              obtain ⟨heq, hends⟩ := ih hgoes
              refine ⟨?_, fun s' rest h => hends s' rest h⟩
              simp only [if_true, List.cons_append, List.flatten_cons, List.foldlM_append, hrun,
                run_bind_ok]
              exact heq
          | false =>
              rw [hquiet] at hgoes
              have hstopped : mainLoop http t polls = .ok (t, polls) :=
                mainLoop_stopped hgoes polls
              refine ⟨?_, fun s' rest h => ?_⟩
              · simpa [hrun] using hstopped
              · rw [run_bind_ok, hstopped] at h
                obtain ⟨rfl, -⟩ := Prod.mk.inj (Except.ok.inj h)
                exact hgoes

/-! ### The register -/

/-- What the configuration file holds. -/
inductive Stored where
  | missing
  /-- a content from elsewhere -/
  | foreign (content : Bytes)
  | config (c : NetConfig)

def Stored.content : Stored → Option Bytes
  | .missing => none
  | .foreign content => some content
  | .config c => some (configText c)

/-- The configuration that the next start has. -/
def Stored.next : Stored → Option NetConfig
  | .missing => some networkDefaults
  | .foreign _ => none
  | .config c => some c

/-- The configuration that a request stores. -/
def requestStores (http : HttpServer) (ctx : RouteContext) (m : HttpMessage) : Option NetConfig :=
  if routeOf http m = some .network ∧ (getMethod m = .put ∨ getMethod m = .post) then
    match putConfig ctx.stack m.body with
    | .ok (some c) => some c.printed
    | _ => none
  else none

/-- The register after an event. -/
def Stored.after (http : HttpServer) (stored : Stored) : SystemEvent → Stored
  | .start _ =>
    match stored with
    | .missing => .config networkDefaults
    | .foreign content => .foreign content
    | .config c => .config c
  | .event (.request ctx m) => ((requestStores http ctx m).map Stored.config).getD stored
  | .event .sigint => stored

/-- The operations of a start on the configuration file succeed. -/
structure StartWorks (s : Atxsys) (io : StartIo) : Prop where
  path : (io.usr.map cstr).getD [] ≠ []
  stat : io.user.stat = match s.file with
    | some content => .found content
    | none => .missing
  opened : io.user.opened = true
  read : ∀ content, s.file = some content → io.user.read = content.length
  printed : 0 < io.user.printed
  kept : (configText networkDefaults).length ≤ io.user.kept

theorem StartWorks.reads {io : StartIo} {content : Bytes} (hworks : StartWorks s io)
    (hfile : s.file = some content) (hsize : content.length < userConfigSize) :
    UserReads io.usr io.user content := by
  have hstat := hworks.stat
  rw [hfile] at hstat
  exact ⟨hworks.path, hstat, hsize, hworks.opened, hworks.read content hfile⟩

section Concrete

theorem plainServer_onlyApi : OnlyApi plainServer := by
  intro e he
  obtain ⟨route, -, rfl⟩ := List.mem_map.mp he
  exact ⟨route.2, rfl⟩

/-- A request that stores a host name. -/
def storeName : MainEvent :=
  .request { plainContext with putIo := .success (configText (configOf (bytes "x"))) }
    { putMessage (bytes "/api/v1/network") with body := documentOf (quoted (bytes "x")) }

def killProgram : MainEvent := .request plainContext (putMessage (bytes "/api/v1/kill"))

/-- The first poll stores a host name; the second one stops the program, and what comes behind in it
is handled; the third one is not made. -/
theorem mainLoop_stops_kill :
    mainLoop plainServer ⟨none, none, false, true⟩
        [[storeName], [killProgram, .sigint], [storeName]] =
      .ok (⟨some (configText (configOf (bytes "x"))), none, true, false⟩, [[storeName]]) := by
  have hstore : mainEvent plainServer ⟨none, none, false, true⟩ storeName =
      .ok ⟨some (configText (configOf (bytes "x"))), none, false, true⟩ := by
    decide +kernel
  have hkill : mainEvent plainServer
      ⟨some (configText (configOf (bytes "x"))), none, false, true⟩ killProgram =
        .ok ⟨some (configText (configOf (bytes "x"))), none, true, true⟩ := by
    decide +kernel
  have hquiet : quiet plainServer [storeName] = true ∧
      quiet plainServer [killProgram, .sigint] = false := by
    decide +kernel
  rw [(mainLoop_stops plainServer_onlyApi rfl _).1, pollsMade, pollsLeft, List.takeWhile_cons,
    List.dropWhile_cons, hquiet.1]
  simp only [if_true, List.takeWhile_cons, List.dropWhile_cons, hquiet.2, Bool.false_eq_true,
    if_false, List.take_succ_cons, List.take_zero, List.cons_append, List.nil_append,
    List.flatten_cons, List.flatten_nil, List.foldlM_cons, List.foldlM_nil, hstore, hkill,
    run_bind_ok]
  rfl

end Concrete

end System

end AtxSys
