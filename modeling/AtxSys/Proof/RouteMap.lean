import AtxSys.Proof.Containers
import AtxSys.Proof.Resolve

/-!
# The routes in their map

`http_use` puts a route under its path, and the last one under a path stays. What `resolve_route`
finds in the map is what it finds in the table of these routes.
-/

namespace AtxSys

open CText OpenAddressing Dictionary

variable {ρ : Type} {hash : CString → BitVec 32} {http : HttpRoutes ρ} {uses : List (Use ρ)}
  {f : CString → Option (RouteBlock ρ)} {path : CString}

/-! ### What is registered -/

/-- The routes after some calls of `http_use`, the first of which takes block `n`. -/
def register (f : CString → Option (RouteBlock ρ)) (n : Nat) :
    List (Use ρ) → CString → Option (RouteBlock ρ)
  | [] => f
  | use :: uses => register (Function.update f use.path (some (n, use.route))) (n + 1) uses

/-- The last call with a path. -/
def LastUse (uses : List (Use ρ)) (i : Nat) (use : Use ρ) : Prop :=
  uses[i]? = some use ∧ ∀ j use', i < j → uses[j]? = some use' → use'.path ≠ use.path

theorem lastUse_succ_iff {use use' : Use ρ} {i : Nat} :
    LastUse (use :: uses) (i + 1) use' ↔ LastUse uses i use' := by
  refine and_congr_right fun _ => ⟨fun h j use'' hj hget => ?_, fun h j use'' hj hget => ?_⟩
  · exact h (j + 1) use'' (Nat.succ_lt_succ hj) hget
  · obtain ⟨j, rfl⟩ : ∃ d, j = d + 1 := ⟨j - 1, by omega⟩
    exact h j use'' (by omega) hget

theorem lastUse_zero_iff {use use' : Use ρ} :
    LastUse (use :: uses) 0 use' ↔ use = use' ∧ ∀ use'' ∈ uses, use''.path ≠ use'.path := by
  refine and_congr (by simp) ⟨fun h use'' hmem => ?_, fun h j use'' hj hget => ?_⟩
  · obtain ⟨j, hj⟩ := List.mem_iff_getElem?.mp hmem
    exact h (j + 1) use'' (Nat.succ_pos j) hj
  · obtain ⟨j, rfl⟩ : ∃ d, j = d + 1 := ⟨j - 1, by omega⟩
    exact h use'' (List.mem_of_getElem? hget)

/-- Every call is the last one with its path if no path is used twice. -/
theorem forall_lastUse_iff :
    (∀ i < uses.length, ∃ use, LastUse uses i use) ↔ (uses.map Use.path).Nodup := by
  rw [List.Nodup, List.pairwise_map, List.pairwise_iff_getElem]
  constructor
  · intro h i j hi hj hij hsame
    obtain ⟨use, hget, hlast⟩ := h i hi
    rw [List.getElem?_eq_getElem hi] at hget
    obtain rfl := Option.some.inj hget
    exact hlast j _ hij (List.getElem?_eq_getElem hj) hsame.symm
  · intro h i hi
    refine ⟨uses[i], List.getElem?_eq_getElem hi, fun j use hij hget hsame => ?_⟩
    obtain ⟨hj, rfl⟩ := List.getElem?_eq_some_iff.mp hget
    exact h i j hi hj hij hsame.symm

theorem register_eq_some_iff {n : Nat} {block : RouteBlock ρ} :
    register f n uses path = some block ↔
      (∃ i use, LastUse uses i use ∧ use.path = path ∧ block = (n + i, use.route)) ∨
        (∀ use ∈ uses, use.path ≠ path) ∧ f path = some block := by
  induction uses generalizing f n with
  | nil => simp [register, LastUse]
  | cons use uses ih =>
      have hindex : ∀ i, n + 1 + i = n + (i + 1) := fun i => by omega
      rw [register, ih]
      simp only [hindex]
      constructor
      · rintro (⟨i, use', hlast, hrest⟩ | ⟨hnone, hf⟩)
        · exact .inl ⟨i + 1, use', lastUse_succ_iff.mpr hlast, hrest⟩
        · by_cases hpath : use.path = path
          · subst hpath
            rw [Function.update_self] at hf
            exact .inl ⟨0, use, lastUse_zero_iff.mpr ⟨rfl, hnone⟩, rfl, (Option.some.inj hf).symm⟩
          · rw [Function.update_of_ne (Ne.symm hpath)] at hf
            exact .inr ⟨List.forall_mem_cons.mpr ⟨hpath, hnone⟩, hf⟩
      · rintro (⟨i | i, use', hlast, hpath, hblock⟩ | ⟨hnone, hf⟩)
        · obtain ⟨rfl, hnone⟩ := lastUse_zero_iff.mp hlast
          subst hpath
          refine .inr ⟨hnone, ?_⟩
          rw [Function.update_self, hblock]
          rfl
        · exact .inl ⟨i, use', lastUse_succ_iff.mp hlast, hpath, hblock⟩
        · obtain ⟨hfirst, hrest⟩ := List.forall_mem_cons.mp hnone
          refine .inr ⟨hrest, ?_⟩
          rw [Function.update_of_ne (Ne.symm hfirst)]
          exact hf

/-- The dictionary of the routes after all calls. -/
abbrev registered (uses : List (Use ρ)) : CString → Option (RouteBlock ρ) :=
  register (fun _ => none) 0 uses

theorem registered_eq_some_iff {block : RouteBlock ρ} :
    registered uses path = some block ↔
      ∃ i use, LastUse uses i use ∧ use.path = path ∧ block = (i, use.route) := by
  rw [registered, register_eq_some_iff]
  simp

/-! ### `http_use` -/

/-- An allocation fails in the call. -/
def Use.Aborts (use : Use ρ) : Prop := use.malloc = false ∨ use.alloc.CanFail

theorem httpUses_spec (hh : http.routes.Holds hash f) (hle : http.routes.nBuckets ≤ 2 ^ 31)
    (hfew : http.routes.size + uses.length < 2 ^ 30) :
    httpUses hash http uses = .error .abort ∧ (∃ use ∈ uses, use.Aborts) ∨
      ∃ http', httpUses hash http uses = .ok http' ∧
        http'.routes.Holds hash (register f http.allocated uses) := by
  induction uses generalizing http f with
  | nil => exact .inr ⟨http, rfl, hh⟩
  | cons use uses ih =>
      rw [List.length_cons] at hfew
      rw [httpUses, httpUse]
      cases hmalloc : use.malloc with
      | false => exact .inl ⟨rfl, use, List.mem_cons_self, .inl hmalloc⟩
      | true =>
      rw [if_neg (by decide)]
      rcases mapAdd_spec use.alloc hh hle (by omega) use.path (http.allocated, use.route)
        with ⟨habort, hfails⟩ | ⟨x, routes, hadd, hh', hle', hsize⟩
      · rw [habort]
        exact .inl ⟨rfl, use, List.mem_cons_self, .inr hfails⟩
      · rw [hadd]
        rcases @ih { allocated := http.allocated + 1, routes } _ hh' hle'
          (by dsimp only; omega) with ⟨habort, use', hmem, haborts⟩ | ⟨http', huses, hholds⟩
        · exact .inl ⟨habort, use', List.mem_cons_of_mem _ hmem, haborts⟩
        · exact .inr ⟨http', huses, hholds⟩

/-! ### `resolve_route` -/

theorem exists_val_of_mem_places {κ ν : Type} {hash : κ → BitVec 32} {h : Khash κ ν}
    {f : κ → Option ν} (hh : h.Holds hash f) {e : κ × Nat} (he : e ∈ h.places) :
    ∃ v, f e.1 = some v ∧ khVal h e.2 = .ok v := by
  obtain ⟨b, hb, hplace⟩ := List.mem_filterMap.mp he
  obtain ⟨a, hslot, rfl⟩ := Option.map_eq_some_iff.mp hplace
  have hb := List.mem_range.mp hb
  rcases hh.sound with hbare | ⟨k, hs⟩
  · rw [hbare.nBuckets] at hb
    exact absurd hb (Nat.not_lt_zero b)
  · rw [hs.nBuckets] at hb
    obtain ⟨v, -, hv, hread⟩ := hh.exists_val hs hb (Slot.element?_eq_some_iff.mp hslot)
    exact ⟨v, hv, hread⟩

theorem foldl_checkPath (path : CString) (places : List (CString × Nat)) :
    places.foldl (fun found e => checkPath path found e.1 e.2) none =
      (places.find? fun e => wildcardMatches e.1.1 path.1).map Prod.snd := by
  have hfold := foldl_check path.1 (places.map fun e => (e.1.1, e.2))
  rw [List.foldl_map, List.find?_map, Option.map_map] at hfold
  exact hfold

/-- The table of the routes in a map, in the order of their buckets. -/
structure TableOf (hash : CString → BitVec 32) (http : HttpRoutes ρ)
    (routes : RouteTable (RouteBlock ρ)) : Prop where
  entries : routes.entries =
    http.routes.entries.filterMap fun e => e.2.map fun route => (e.1.1, route)
  resolve : ∀ path : CString, resolvePath hash http path = .ok ((routes.get path.1).or
    ((routes.entries.find? fun e => wildcardMatches e.1 path.1).map Prod.snd))

theorem exists_table (hh : http.routes.Holds hash f) :
    ∃ routes : RouteTable (RouteBlock ρ), TableOf hash http routes ∧
      ∀ path : CString, routes.get path.1 = f path := by
  obtain ⟨l, hl, hentries⟩ := hh.exists_list
  let routes : RouteTable (RouteBlock ρ) :=
    { entries := l.map fun e => (e.1.1, e.2)
      hkeys := by
        intro e he
        obtain ⟨e, -, rfl⟩ := List.mem_map.mp he
        exact e.1.2
      hnodup := by
        have hmap : (l.map fun e => (e.1.1, e.2)).map Prod.fst =
            (l.map Prod.fst).map Subtype.val := by
          rw [List.map_map, List.map_map]
          rfl
        rw [hmap]
        exact hl.nodup.map Subtype.val_injective }
  have hget : ∀ path : CString, routes.get path.1 = f path := by
    intro path
    have hsame : (fun e : CString × RouteBlock ρ => decide (e.1.1 = path.1)) =
        fun e => decide (e.1 = path) := by
      funext e
      exact decide_eq_decide.mpr Subtype.ext_iff.symm
    rw [← hl.find?_eq path, RouteTable.get, List.find?_map, Option.map_map, ← hsame]
    rfl
  have hscan : ∀ path : CString,
      (routes.entries.find? fun e => wildcardMatches e.1 path.1).map Prod.snd =
        (l.find? fun e => wildcardMatches e.1.1 path.1).map Prod.snd := by
    intro path
    rw [List.find?_map, Option.map_map]
    rfl
  refine ⟨routes, ⟨?_, fun path => ?_⟩, hget⟩
  · rw [hentries, List.filterMap_map]
    exact (congrFun
      (List.filterMap_eq_map (f := fun e : CString × RouteBlock ρ => (e.1.1, e.2))) l).symm
  · rw [hget, hscan]
    rcases mapGet_spec hh path with ⟨hmap, hnone⟩ | ⟨x, v, hmap, hv, hread⟩
    · -- the first wildcard in the order of the buckets
      have hplaces : (http.routes.places.find? fun e => wildcardMatches e.1.1 path.1).map Prod.fst =
          (l.find? fun e => wildcardMatches e.1.1 path.1).map Prod.fst := by
        have hfst : http.routes.places.map Prod.fst = l.map Prod.fst := by
          rw [map_fst_places, hentries, List.map_map]
          rfl
        have hfind := congrArg (List.find? fun key : CString => wildcardMatches key.1 path.1) hfst
        rwa [List.find?_map, List.find?_map] at hfind
      rw [resolvePath, hmap, hnone, kh_bind_ok]
      dsimp only
      rw [mapForeach_eq _ hh.sound, foldl_checkPath, Option.none_or]
      cases hfound : http.routes.places.find? fun e => wildcardMatches e.1.1 path.1 with
      | none =>
          rw [hfound, Option.map_none, eq_comm, Option.map_eq_none_iff] at hplaces
          rw [hplaces]
          rfl
      | some e =>
          rw [hfound, Option.map_some, eq_comm, Option.map_eq_some_iff] at hplaces
          obtain ⟨e', hfind, hkey⟩ := hplaces
          obtain ⟨v, hv, hread⟩ := exists_val_of_mem_places hh (List.mem_of_find?_eq_some hfound)
          have hv' := (hl.mem_iff e'.1 e'.2).mp (List.mem_of_find?_eq_some hfind)
          rw [hkey, hv] at hv'
          rw [Option.map_some, kh_bind_ok]
          dsimp only
          rw [hread, hfind, Option.some.inj hv']
          rfl
    · rw [resolvePath, hmap, hv, kh_bind_ok]
      dsimp only
      rw [kh_bind_ok]
      dsimp only
      rw [hread]
      rfl

/-- The text that `snprintf` leaves in `path`. -/
def uriText (uri : Bytes) : CString := ⟨cstr uri, zero_notMem_cstr uri⟩

theorem httpUses_init (hash : CString → BitVec 32) (uses : List (Use ρ))
    (hlen : uses.length < 2 ^ 30) :
    httpUses hash httpRoutesInit uses = .error .abort ∧ (∃ use ∈ uses, use.Aborts) ∨
      ∃ http, httpUses hash httpRoutesInit uses = .ok http ∧
        http.routes.Holds hash (registered uses) := by
  apply httpUses_spec (mapCreate_holds hash)
  · exact Nat.zero_le _
  · exact (Nat.zero_add _).trans_lt hlen

/-- **Routing over the hash table.** Whatever the hash function is, after every sequence of calls of
`http_use` the map resolves a path as the table of the routes that were registered last under their
paths does. Only a failing allocation aborts. -/
theorem routes_resolve (hash : CString → BitVec 32) (uses : List (Use ρ))
    (hlen : uses.length < 2 ^ 30) :
    httpUses hash httpRoutesInit uses = .error .abort ∧ (∃ use ∈ uses, use.Aborts) ∨
      ∃ http, ∃ routes : RouteTable (RouteBlock ρ),
        httpUses hash httpRoutesInit uses = .ok http ∧
        (∀ path block, (path, block) ∈ routes.entries ↔
          ∃ i use, LastUse uses i use ∧ use.path.1 = path ∧ block = (i, use.route)) ∧
        ∀ uri : Bytes, uri.length < pathSize →
          ∃ found, resolvePath hash http (uriText uri) = .ok found ∧
            resolveRoute routes uri = .ok found := by
  refine (httpUses_init hash uses hlen).imp_right ?_
  rintro ⟨http, hrun, hh⟩
  obtain ⟨routes, htable, hget⟩ := exists_table hh
  refine ⟨http, routes, hrun, fun path block => ?_, fun uri huri => ?_⟩
  · constructor
    · intro hmem
      have hfound : routes.get path = some block := get_eq_some_iff.mpr ⟨_, hmem, rfl, rfl⟩
      have hreg := hget ⟨path, routes.hkeys _ hmem⟩
      rw [hfound, eq_comm, registered_eq_some_iff] at hreg
      obtain ⟨i, use, hlast, hpath, hblock⟩ := hreg
      exact ⟨i, use, hlast, congrArg Subtype.val hpath, hblock⟩
    · rintro ⟨i, use, hlast, rfl, rfl⟩
      have hreg := hget use.path
      rw [registered_eq_some_iff.mpr ⟨i, use, hlast, rfl, rfl⟩, get_eq_some_iff] at hreg
      obtain ⟨⟨path, block⟩, hmem, rfl, rfl⟩ := hreg
      exact hmem
  · exact ⟨_, htable.resolve (uriText uri), resolveRoute_eq routes huri⟩

/-- Two paths, one of them used twice. -/
def threeUses : List (Use Nat) :=
  [{ path := uriText (bytes "/a"), route := 10, malloc := true, alloc := .good },
    { path := uriText (bytes "/b/..."), route := 11, malloc := true, alloc := .good },
    { path := uriText (bytes "/a"), route := 12, malloc := true, alloc := .good }]

theorem routes_resolve_three :
    httpUses (acX31HashString true) httpRoutesInit threeUses = .error .abort ∧
        (∃ use ∈ threeUses, use.Aborts) ∨
      ∃ http, ∃ routes : RouteTable (RouteBlock Nat),
        httpUses (acX31HashString true) httpRoutesInit threeUses = .ok http ∧
        (∀ path block, (path, block) ∈ routes.entries ↔
          ∃ i use, LastUse threeUses i use ∧ use.path.1 = path ∧ block = (i, use.route)) ∧
        ∀ uri : Bytes, uri.length < pathSize →
          ∃ found, resolvePath (acX31HashString true) http (uriText uri) = .ok found ∧
            resolveRoute routes uri = .ok found :=
  routes_resolve _ threeUses (by decide)

/-! ### `http_deinit` -/

/-- **Who frees a route.** `http_deinit` frees no route twice, and exactly those that were not
replaced: a route is lost if its path is used again. -/
theorem routes_freed (hash : CString → BitVec 32) (uses : List (Use ρ))
    (hlen : uses.length < 2 ^ 30)
    {http : HttpRoutes ρ} (hrun : httpUses hash httpRoutesInit uses = .ok http) :
    ∃ freed, httpRoutesDeinit http = .ok freed ∧ (freed.map Prod.fst).Nodup ∧
      (∀ i route, (i, route) ∈ freed ↔ ∃ use, LastUse uses i use ∧ route = use.route) ∧
      ((freed.map Prod.fst).Perm (List.range uses.length) ↔ (uses.map Use.path).Nodup) := by
  rcases httpUses_init hash uses hlen with ⟨habort, -⟩ | ⟨http', hrun', hh⟩
  · rw [hrun] at habort
    cases habort
  obtain rfl : http = http' := Except.ok.inj (hrun.symm.trans hrun')
  obtain ⟨l, hdestroy, hl⟩ := mapDestroy_spec hh
  have hmem : ∀ i route,
      (i, route) ∈ l.map Prod.snd ↔ ∃ use, LastUse uses i use ∧ route = use.route := by
    intro i route
    rw [List.mem_map]
    constructor
    · rintro ⟨⟨path, block⟩, hmem, rfl⟩
      obtain ⟨i', use, hlast, -, hblock⟩ := registered_eq_some_iff.mp ((hl.mem_iff _ _).mp hmem)
      obtain ⟨rfl, rfl⟩ := Prod.mk.inj hblock
      exact ⟨use, hlast, rfl⟩
    · rintro ⟨use, hlast, rfl⟩
      refine ⟨(use.path, (i, use.route)), (hl.mem_iff _ _).mpr ?_, rfl⟩
      exact registered_eq_some_iff.mpr ⟨i, use, hlast, rfl, rfl⟩
  have hnodup : ((l.map Prod.snd).map Prod.fst).Nodup := by
    rw [List.map_map]
    apply List.Nodup.map_on _ hl.nodup.of_map
    rintro ⟨path, i, route⟩ he ⟨path', i', route'⟩ he' hsame
    obtain rfl : i = i' := hsame
    obtain ⟨j, use, hlast, rfl, hblock⟩ := registered_eq_some_iff.mp ((hl.mem_iff _ _).mp he)
    obtain ⟨j', use', hlast', rfl, hblock'⟩ := registered_eq_some_iff.mp ((hl.mem_iff _ _).mp he')
    obtain ⟨rfl, rfl⟩ := Prod.mk.inj hblock
    obtain ⟨rfl, rfl⟩ := Prod.mk.inj hblock'
    obtain rfl : use = use' := Option.some.inj (hlast.1.symm.trans hlast'.1)
    rfl
  have hids : ∀ i, i ∈ (l.map Prod.snd).map Prod.fst ↔ ∃ use, LastUse uses i use := by
    intro i
    rw [List.mem_map]
    constructor
    · rintro ⟨⟨i, route⟩, hfreed, rfl⟩
      obtain ⟨use, hlast, -⟩ := (hmem i route).mp hfreed
      exact ⟨use, hlast⟩
    · rintro ⟨use, hlast⟩
      exact ⟨(i, use.route), (hmem i _).mpr ⟨use, hlast, rfl⟩, rfl⟩
  refine ⟨_, hdestroy, hnodup, hmem, ?_⟩
  rw [List.perm_ext_iff_of_nodup hnodup List.nodup_range, ← forall_lastUse_iff]
  refine forall_congr' fun i => ?_
  rw [hids, List.mem_range]
  refine ⟨Iff.mpr, fun hall => ⟨?_, hall⟩⟩
  rintro ⟨use, hget, -⟩
  exact (List.getElem?_eq_some_iff.mp hget).1

theorem routes_freed_three : ∃ http freed,
    httpUses (acX31HashString true) httpRoutesInit threeUses = .ok http ∧
      httpRoutesDeinit http = .ok freed ∧ (freed.map Prod.fst).Nodup ∧
      ∀ i route, (i, route) ∈ freed ↔ ∃ use, LastUse threeUses i use ∧ route = use.route := by
  obtain ⟨http, hrun⟩ := kh_exists_of_isOk
    (show (httpUses (acX31HashString true) httpRoutesInit threeUses).isOk = true by decide +kernel)
  obtain ⟨freed, hfreed, hnodup, hmem, -⟩ :=
    routes_freed (acX31HashString true) threeUses (by decide) hrun
  exact ⟨http, freed, hrun, hfreed, hnodup, hmem⟩

end AtxSys
