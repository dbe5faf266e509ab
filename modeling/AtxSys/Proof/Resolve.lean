import AtxSys.Routes
import Mathlib.Data.List.Nodup

/-!
# Which route takes a request

The test of a wildcard compares the path with its front, without the slash, and the two lengths with
the suffix: it takes paths that only share the front, and misses those with a short tail. The first
wildcard that the table visits wins.
-/

namespace AtxSys

open CText

variable {ρ : Type} {routes : RouteTable ρ} {entries : List (Bytes × ρ)} {path testPath uri : Bytes}

/-! ### The scan -/

theorem foldl_check (path : Bytes) (entries : List (Bytes × ρ)) :
    entries.foldl (foreachRouteCheckPath path) none =
      (entries.find? fun e => wildcardMatches e.1 path).map Prod.snd := by
  have hkeep : ∀ (route : ρ) (entries : List (Bytes × ρ)),
      entries.foldl (foreachRouteCheckPath path) (some route) = some route := by
    intro route entries
    induction entries with
    | nil => rfl
    | cons e entries ih => exact ih
  induction entries with
  | nil => rfl
  | cons e entries ih =>
      by_cases he : wildcardMatches e.1 path
      · have hfirst : foreachRouteCheckPath path none e = some e.2 := if_pos he
        rw [List.foldl_cons, hfirst, hkeep]
        simp [he]
      · have hnext : foreachRouteCheckPath path none e = none := if_neg he
        rw [List.foldl_cons, hnext, ih]
        simp [he]

theorem resolveRoute_eq (routes : RouteTable ρ) (huri : uri.length < pathSize) :
    resolveRoute routes uri = .ok ((routes.get (cstr uri)).or
      ((routes.entries.find? fun e => wildcardMatches e.1 (cstr uri)).map Prod.snd)) := by
  have hlength := cstr_length_le uri
  have hsize : pathSize = 128 := rfl
  rw [resolveRoute, if_neg (by omega), formatText_precision, run_bind_ok, List.take_length,
    List.take_of_length_le (by omega)]
  dsimp only
  cases routes.get (cstr uri) with
  | some route => rfl
  | none =>
      simp only [foldl_check]
      rfl

/-- A path is registered once. -/
theorem get_eq_some_iff {route : ρ} :
    routes.get path = some route ↔ ∃ e ∈ routes.entries, e.1 = path ∧ e.2 = route := by
  rw [RouteTable.get, Option.map_eq_some_iff]
  constructor
  · rintro ⟨e, hfind, hroute⟩
    have hpath := List.find?_some hfind
    exact ⟨e, List.mem_of_find?_eq_some hfind, of_decide_eq_true hpath, hroute⟩
  · rintro ⟨e, he, hpath, hroute⟩
    cases hfind : routes.entries.find? fun e => e.1 = path with
    | none => exact absurd (List.find?_eq_none.mp hfind e he) (by simpa using hpath)
    | some e' =>
        have hpath' := List.find?_some hfind
        have hsame := List.inj_on_of_nodup_map routes.hnodup (List.mem_of_find?_eq_some hfind) he
          ((of_decide_eq_true hpath').trans hpath.symm)
        exact ⟨e', rfl, hsame ▸ hroute⟩

theorem get_eq_none_iff : routes.get path = none ↔ ∀ e ∈ routes.entries, e.1 ≠ path := by
  simp [RouteTable.get]

/-! ### Wildcards -/

/-- The path is `front/` and at least one more character, and the wildcard `front/...`. -/
def Under (testPath path : Bytes) : Prop :=
  ∃ front rest, testPath = front ++ bytes "/..." ∧ rest ≠ [] ∧ path = front ++ (bytes "/" ++ rest)

theorem wildcardMatches_iff :
    wildcardMatches testPath path ↔
      ∃ front, testPath = front ++ bytes "/..." ∧ front <+: path ∧
        front.length + 4 < path.length := by
  have hdots : (bytes "/...").length = 4 := rfl
  simp only [wildcardMatches, Bool.and_eq_true, decide_eq_true_eq]
  constructor
  · rintro ⟨⟨hfour, hsuffix⟩, hlong, hfront⟩
    have hlength : (testPath.take (testPath.length - 4)).length = testPath.length - 4 :=
      List.length_take_of_le (Nat.sub_le _ _)
    refine ⟨testPath.take (testPath.length - 4), ?_, ?_, by omega⟩
    · rw [← hsuffix, List.take_append_drop]
    · rw [hfront]
      exact List.take_prefix _ _
  · rintro ⟨front, rfl, hbegin, hlong⟩
    rw [List.length_append, hdots, Nat.add_sub_cancel, List.drop_left, List.take_left]
    exact ⟨⟨Nat.le_add_left 4 _, rfl⟩, hlong, List.prefix_iff_eq_take.mp hbegin⟩

theorem under_of_slash {front : Bytes} (hbegin : front ++ bytes "/" <+: path)
    (hlong : front.length + 4 < path.length) : Under (front ++ bytes "/...") path := by
  obtain ⟨rest, rfl⟩ := hbegin
  have hslash : (bytes "/").length = 1 := rfl
  refine ⟨front, rest, rfl, ?_, List.append_assoc ..⟩
  rintro rfl
  simp only [List.length_append, List.length_nil] at hlong
  omega

theorem Under.slash {front : Bytes} (h : Under (front ++ bytes "/...") path) :
    front ++ bytes "/" <+: path := by
  obtain ⟨front', rest, hfront, -, rfl⟩ := h
  rw [List.append_cancel_right hfront, ← List.append_assoc]
  exact List.prefix_append _ _

theorem Under.matches (h : Under testPath path) (hlong : testPath.length < path.length) :
    wildcardMatches testPath path := by
  obtain ⟨front, rest, rfl, -, rfl⟩ := h
  have hdots : (bytes "/...").length = 4 := rfl
  rw [List.length_append, hdots] at hlong
  exact wildcardMatches_iff.mpr ⟨front, rfl, List.prefix_append _ _, hlong⟩

/-! ### The law -/

/-- The route of the path, or else one of a wildcard that the path is under, if there is one. -/
structure Resolved (entries : List (Bytes × ρ)) (path : Bytes) (found : Option ρ) : Prop where
  exact : ∀ e ∈ entries, e.1 = path → found = some e.2
  wildcard : (∀ e ∈ entries, e.1 ≠ path) → ∀ route, found = some route →
    ∃ e ∈ entries, Under e.1 path ∧ e.2 = route
  none : (∀ e ∈ entries, e.1 ≠ path) → (found = none ↔ ∀ e ∈ entries, ¬Under e.1 path)

/-- No wildcard has a front that the path goes on from without a slash, for more than four
characters; and if the path is under a wildcard, it is under one with a tail of at least four. -/
structure Routable (entries : List (Bytes × ρ)) (path : Bytes) : Prop where
  shared : ∀ e ∈ entries, ∀ front, e.1 = front ++ bytes "/..." → front <+: path →
    front.length + 4 < path.length → front ++ bytes "/" <+: path
  short : ∀ e ∈ entries, Under e.1 path →
    ∃ e' ∈ entries, Under e'.1 path ∧ e'.1.length < path.length

theorem Routable.under (h : Routable entries path) {e : Bytes × ρ} (he : e ∈ entries)
    (hmatches : wildcardMatches e.1 path) : Under e.1 path := by
  obtain ⟨front, hfront, hbegin, hlong⟩ := wildcardMatches_iff.mp hmatches
  have hslash := h.shared e he front hfront hbegin hlong
  rw [hfront]
  exact under_of_slash hslash hlong

/-- The table in another order. -/
def RouteTable.reorder (routes : RouteTable ρ) (entries : List (Bytes × ρ))
    (hperm : entries.Perm routes.entries) : RouteTable ρ where
  entries := entries
  hkeys := fun e he => routes.hkeys e (hperm.mem_iff.mp he)
  hnodup := (hperm.map Prod.fst).nodup_iff.mpr routes.hnodup

/-- An entry can be the first one that is visited. -/
theorem exists_reorder {e : Bytes × ρ} (he : e ∈ routes.entries) :
    ∃ routes' : RouteTable ρ, routes'.entries.Perm routes.entries ∧
      routes'.entries.head? = some e := by
  obtain ⟨before, after, hsplit⟩ := List.append_of_mem he
  have hperm : (e :: (before ++ after)).Perm routes.entries := by
    rw [hsplit]
    exact List.perm_middle.symm
  exact ⟨routes.reorder _ hperm, hperm, rfl⟩

theorem find?_of_head? {entries : List (Bytes × ρ)} {e : Bytes × ρ} (hhead : entries.head? = some e)
    (hmatches : wildcardMatches e.1 path) :
    entries.find? (fun e => wildcardMatches e.1 path) = some e := by
  cases entries with
  | nil => cases hhead
  | cons e' entries =>
      rw [Option.some.inj hhead]
      simp [hmatches]

/-- What is found where the path itself is not registered. -/
theorem resolveRoute_unregistered {routes' : RouteTable ρ}
    (hperm : routes'.entries.Perm routes.entries) (huri : uri.length < pathSize)
    (hnone : ∀ e ∈ routes.entries, e.1 ≠ cstr uri) :
    resolveRoute routes' uri = .ok
      ((routes'.entries.find? fun e => wildcardMatches e.1 (cstr uri)).map Prod.snd) := by
  have hget : routes'.get (cstr uri) = none :=
    get_eq_none_iff.mpr fun e he => hnone e (hperm.mem_iff.mp he)
  rw [resolveRoute_eq routes' huri, hget]
  rfl

/-- and where it is. -/
theorem resolveRoute_registered {routes' : RouteTable ρ}
    (hperm : routes'.entries.Perm routes.entries) (huri : uri.length < pathSize) {e : Bytes × ρ}
    (he : e ∈ routes.entries) (hpath : e.1 = cstr uri) :
    resolveRoute routes' uri = .ok (some e.2) := by
  have hget : routes'.get (cstr uri) = some e.2 :=
    get_eq_some_iff.mpr ⟨e, hperm.mem_iff.mpr he, hpath, rfl⟩
  rw [resolveRoute_eq routes' huri, hget]
  rfl

theorem resolved_of_registered {e : Bytes × ρ} (he : e ∈ routes.entries) (hpath : e.1 = path) :
    Resolved routes.entries path (some e.2) where
  exact := by
    intro e' he' hpath'
    rw [List.inj_on_of_nodup_map routes.hnodup he he' (hpath.trans hpath'.symm)]
  wildcard := fun hnone => absurd hpath (hnone e he)
  none := fun hnone => absurd hpath (hnone e he)

theorem Routable.resolved (h : Routable routes.entries path)
    (hperm : entries.Perm routes.entries) (hnone : ∀ e ∈ routes.entries, e.1 ≠ path) :
    Resolved routes.entries path
      ((entries.find? fun e => wildcardMatches e.1 path).map Prod.snd) where
  exact := fun e he hpath => absurd hpath (hnone e he)
  wildcard := by
    intro _ route hroute
    obtain ⟨e, hfind, rfl⟩ := Option.map_eq_some_iff.mp hroute
    have he := hperm.mem_iff.mp (List.mem_of_find?_eq_some hfind)
    have hmatches := List.find?_some hfind
    exact ⟨e, he, h.under he hmatches, rfl⟩
  none := by
    intro _
    rw [Option.map_eq_none_iff, List.find?_eq_none]
    constructor
    · intro hmatches e he hunder
      obtain ⟨e', he', hunder', hlong⟩ := h.short e he hunder
      exact hmatches e' (hperm.mem_iff.mpr he') (hunder'.matches hlong)
    · intro hunder e he hmatches
      have he := hperm.mem_iff.mp he
      exact hunder e he (h.under he hmatches)

theorem routable_of_resolved (hroutes : (routes.entries.map Prod.snd).Nodup)
    (huri : uri.length < pathSize) (hnone : ∀ e ∈ routes.entries, e.1 ≠ cstr uri)
    (hresolved : ∀ routes' : RouteTable ρ, routes'.entries.Perm routes.entries →
      ∃ found, resolveRoute routes' uri = .ok found ∧
        Resolved routes.entries (cstr uri) found) :
    Routable routes.entries (cstr uri) := by
  -- the route of a wildcard that passes the test is the answer if the wildcard is visited first
  have hunder : ∀ e ∈ routes.entries, wildcardMatches e.1 (cstr uri) → Under e.1 (cstr uri) := by
    intro e he hmatches
    obtain ⟨routes', hperm, hhead⟩ := exists_reorder he
    obtain ⟨found, hfound, hresolved⟩ := hresolved routes' hperm
    rw [resolveRoute_unregistered hperm huri hnone, find?_of_head? hhead hmatches] at hfound
    obtain ⟨e', he', hunder, hroute⟩ :=
      hresolved.wildcard hnone e.2 (Except.ok.inj hfound).symm
    rwa [List.inj_on_of_nodup_map hroutes he' he hroute] at hunder
  constructor
  · intro e he front hfront hbegin hlong
    have hmatches := hunder e he (wildcardMatches_iff.mpr ⟨front, hfront, hbegin, hlong⟩)
    rw [hfront] at hmatches
    exact hmatches.slash
  · intro e he hunderE
    obtain ⟨found, hfound, hresolved⟩ := hresolved routes (List.Perm.refl _)
    rw [resolveRoute_unregistered (List.Perm.refl _) huri hnone] at hfound
    cases hfind : routes.entries.find? fun e => wildcardMatches e.1 (cstr uri) with
    | none =>
        rw [hfind] at hfound
        exact absurd hunderE ((hresolved.none hnone).mp (Except.ok.inj hfound).symm e he)
    | some e' =>
        have he' := List.mem_of_find?_eq_some hfind
        have hmatches := List.find?_some hfind
        obtain ⟨front, hfront, -, hlong⟩ := wildcardMatches_iff.mp hmatches
        refine ⟨e', he', hunder e' he' hmatches, ?_⟩
        rw [hfront, List.length_append]
        exact hlong

/-- **The right route** is found in every order of the table exactly if the path is registered, or
no wildcard is taken for its front alone or missed for a short tail. -/
theorem resolve_route_iff (routes : RouteTable ρ) (hroutes : (routes.entries.map Prod.snd).Nodup)
    (uri : Bytes) (huri : uri.length < pathSize) :
    (∀ routes' : RouteTable ρ, routes'.entries.Perm routes.entries →
      ∃ found, resolveRoute routes' uri = .ok found ∧
        Resolved routes.entries (cstr uri) found) ↔
      (∃ e ∈ routes.entries, e.1 = cstr uri) ∨ Routable routes.entries (cstr uri) := by
  by_cases hregistered : ∃ e ∈ routes.entries, e.1 = cstr uri
  · refine iff_of_true (fun routes' hperm => ?_) (.inl hregistered)
    obtain ⟨e, he, hpath⟩ := hregistered
    exact ⟨_, resolveRoute_registered hperm huri he hpath, resolved_of_registered he hpath⟩
  · have hnone : ∀ e ∈ routes.entries, e.1 ≠ cstr uri :=
      fun e he hpath => hregistered ⟨e, he, hpath⟩
    constructor
    · intro hresolved
      exact .inr (routable_of_resolved hroutes huri hnone hresolved)
    · rintro (h | h) routes' hperm
      · exact absurd h hregistered
      · exact ⟨_, resolveRoute_unregistered hperm huri hnone, h.resolved hperm hnone⟩

section Concrete

/-- A wildcard, a path below it, and a wildcard beside it. -/
def threeRoutes : RouteTable Nat where
  entries := [(bytes "/a/...", 0), (bytes "/a/bc", 1), (bytes "/b/...", 2)]
  hkeys := by decide
  hnodup := by decide

def threeRoutesBack : RouteTable Nat where
  entries := threeRoutes.entries.reverse
  hkeys := by decide
  hnodup := by decide

theorem threeRoutes_under {front : Bytes} {e : Bytes × Nat} (he : e ∈ threeRoutes.entries)
    (hfront : e.1 = front ++ bytes "/...") : front = bytes "/a" ∨ front = bytes "/b" := by
  have hwildcard : e.1.drop (e.1.length - 4) = bytes "/..." := by
    have hdots : (bytes "/...").length = 4 := rfl
    rw [hfront, List.length_append, hdots, Nat.add_sub_cancel, List.drop_left]
  simp only [threeRoutes, List.mem_cons, List.not_mem_nil, or_false] at he
  rcases he with rfl | rfl | rfl
  · have ha : (bytes "/a/..." : Bytes) = bytes "/a" ++ bytes "/..." := by decide
    exact .inl (List.append_cancel_right (ha.symm.trans hfront)).symm
  · exact absurd hwildcard (by decide)
  · have hb : (bytes "/b/..." : Bytes) = bytes "/b" ++ bytes "/..." := by decide
    exact .inr (List.append_cancel_right (hb.symm.trans hfront)).symm

theorem threeRoutes_routable : Routable threeRoutes.entries (cstr (bytes "/a/bcde")) := by
  constructor
  · intro e he front hpath hbegin _
    rcases threeRoutes_under he hpath with rfl | rfl
    · decide
    · exact absurd hbegin (by decide)
  · intro e he hunder
    refine ⟨(bytes "/a/...", 0), List.mem_cons_self, ?_, by decide⟩
    exact ⟨bytes "/a", bytes "bcde", by decide, by decide, by decide⟩

/-- The path below the wildcard is found itself, though its tail is short; another one is found
under the wildcard, in either order. -/
theorem resolve_route_iff_tail :
    (∃ found, resolveRoute threeRoutesBack (bytes "/a/bc") = .ok found ∧
      Resolved threeRoutes.entries (cstr (bytes "/a/bc")) found) ∧
    (∃ found, resolveRoute threeRoutes (bytes "/a/bcde") = .ok found ∧
      Resolved threeRoutes.entries (cstr (bytes "/a/bcde")) found) ∧
    ∃ found, resolveRoute threeRoutesBack (bytes "/a/bcde") = .ok found ∧
      Resolved threeRoutes.entries (cstr (bytes "/a/bcde")) found := by
  have hback : threeRoutesBack.entries.Perm threeRoutes.entries := List.reverse_perm _
  have htail := (resolve_route_iff threeRoutes (by decide) (bytes "/a/bcde") (by decide)).mpr
    (.inr threeRoutes_routable)
  refine ⟨?_, htail threeRoutes (List.Perm.refl _), htail threeRoutesBack hback⟩
  have hitself : ∃ e ∈ threeRoutes.entries, e.1 = cstr (bytes "/a/bc") := by decide
  exact (resolve_route_iff threeRoutes (by decide) (bytes "/a/bc") (by decide)).mpr
    (.inl hitself) threeRoutesBack hback

/-- A tail of two characters is missed. -/
theorem resolve_route_short :
    ∃ routes : RouteTable Nat, resolveRoute routes (bytes "/a/bc") = .ok none ∧
      ¬Resolved routes.entries (cstr (bytes "/a/bc")) none := by
  refine ⟨⟨[(bytes "/a/...", 0)], by decide, by decide⟩, by decide, fun hresolved => ?_⟩
  have hmissed := (hresolved.none (by decide)).mp rfl _ List.mem_cons_self
  exact hmissed ⟨bytes "/a", bytes "bc", by decide, by decide, by decide⟩

end Concrete

/-! ### The order of the table -/

end AtxSys
