import AtxSys.Containers
import AtxSys.Lib.Dictionary
import AtxSys.Proof.KhashPut
import Mathlib.Data.Set.List

/-!
# Maps as dictionaries

Each operation of a map does to the dictionary of its entries what its name says, whatever the hash
function is, and after every sequence of operations.
-/

namespace AtxSys

open OpenAddressing Dictionary

variable {κ ν : Type} {hash : κ → BitVec 32} {h h' : Khash κ ν} {f : κ → Option ν} {key : κ}
  {alloc : KhAlloc}

/-! ### The dictionary of a map -/

/-- The entries of the table are the pairs of `f`, each value written. -/
structure Khash.Holds (hash : κ → BitVec 32) (h : Khash κ ν) (f : κ → Option ν) : Prop where
  sound : h.Sound hash
  lists : Lists h.entries fun k => (f k).map some

theorem mapCreate_holds (hash : κ → BitVec 32) : (mapCreate : Khash κ ν).Holds hash fun _ => none :=
  ⟨.inl khInit_bare, lists_nil⟩

namespace Khash.Holds

variable (hh : h.Holds hash f)

include hh

/-- A bucket with a key has the value of the key. -/
theorem exists_val {k x : Nat} (hs : h.Sized hash k) (hx : x < 2 ^ k) {val : Option ν}
    (hslot : h.slots x = .full (key, val)) :
    ∃ v, val = some v ∧ f key = some v ∧ khVal h x = .ok v := by
  have hmem : (key, val) ∈ h.entries := by
    rw [hs.entries_eq]
    exact mem_entries.mpr ⟨x, hx, hslot⟩
  obtain ⟨v, hv, rfl⟩ := Option.map_eq_some_iff.mp ((hh.lists.mem_iff key val).mp hmem)
  refine ⟨v, rfl, hv, readKey_eq ?_⟩
  exact Option.join_eq_some_iff.mp (slotAt_eq_full hslot).2.2.2.symm

theorem eq_none_of_absent (habsent : ∀ val, (key, val) ∉ h.entries) : f key = none := by
  rw [← Option.map_eq_none_iff]
  exact hh.lists.eq_none_iff.mpr habsent

theorem eq_none_of_bare (hbare : h.Bare) : f key = none := by
  apply hh.eq_none_of_absent
  rw [hbare.entries]
  exact fun _ => List.not_mem_nil

/-- The list that a walk through the table finds. -/
theorem exists_list :
    ∃ l : List (κ × ν), Lists l f ∧ h.entries = l.map fun e => (e.1, some e.2) := by
  have hrange : h.entries ∈ Set.range (List.map fun e : κ × ν => (e.1, some e.2)) := by
    rw [Set.range_list_map]
    rintro ⟨key, val⟩ hmem
    obtain ⟨v, -, rfl⟩ := Option.map_eq_some_iff.mp ((hh.lists.mem_iff key val).mp hmem)
    exact ⟨(key, v), rfl⟩
  obtain ⟨l, hl⟩ := hrange
  replace hl := hl.symm
  refine ⟨l, ⟨?_, fun k a => ?_⟩, hl⟩
  · have hnodup := hh.lists.nodup
    rwa [hl, List.map_map] at hnodup
  · have hmem := hh.lists.mem_iff k (some a)
    rw [hl] at hmem
    simpa using hmem

end Khash.Holds

/-! ### Looking up and removing -/

section Lookup

variable [DecidableEq κ]

/-- `map_get` finds the value of the key, and nothing if there is none. -/
theorem mapGet_spec (hh : h.Holds hash f) (key : κ) :
    mapGet hash h key = .ok none ∧ f key = none ∨
      ∃ x v, mapGet hash h key = .ok (some x) ∧ f key = some v ∧ khVal h x = .ok v := by
  rcases hh.sound with hbare | ⟨k, hs⟩
  · left
    refine ⟨?_, hh.eq_none_of_bare hbare⟩
    rw [mapGet, khGet, hbare.nBuckets]
    rfl
  · obtain ⟨x, hget, ⟨hx, val, hslot⟩ | ⟨rfl, habsent⟩⟩ := khGet_spec hs key
    · obtain ⟨v, -, hv, hread⟩ := hh.exists_val hs hx hslot
      refine .inr ⟨x, v, ?_, hv, hread⟩
      rw [mapGet, hget, kh_bind_ok, hs.nBuckets, if_neg hx.ne]
    · refine .inl ⟨?_, hh.eq_none_of_absent habsent⟩
      rw [mapGet, hget, kh_bind_ok, hs.nBuckets, if_pos rfl]

/-- `map_remove` frees the value of the key and keeps every other one. -/
theorem mapRemove_spec (hh : h.Holds hash f) (key : κ) :
    ∃ h', mapRemove hash h key = .ok (f key, h') ∧ h'.Holds hash (Function.update f key none) ∧
      h'.nBuckets = h.nBuckets ∧ h'.size ≤ h.size := by
  have hsame : f key = none → Function.update f key none = f := by
    intro hnone
    rw [← hnone, Function.update_eq_self]
  rcases hh.sound with hbare | ⟨k, hs⟩
  · have hnone : f key = none := hh.eq_none_of_bare hbare
    refine ⟨h, ?_, (hsame hnone).symm ▸ hh, rfl, Nat.le_refl _⟩
    rw [mapRemove, khGet, hbare.nBuckets, hnone]
    rfl
  · obtain ⟨x, hget, ⟨hx, val, hslot⟩ | ⟨rfl, habsent⟩⟩ := khGet_spec hs key
    · obtain ⟨v, rfl, hv, hread⟩ := hh.exists_val hs hx hslot
      have hsize : (h.without x).size = h.size - 1 := rfl
      refine ⟨h.without x, ?_, ⟨.inr ⟨k, hs.without hx hslot⟩, ?_⟩, rfl, by omega⟩
      · rw [mapRemove, hget, kh_bind_ok, hs.nBuckets, if_neg hx.ne, mapRemoveIter, hread,
          kh_bind_ok,
          khDel_full hs hx hslot, hv]
        rfl
      · have htail := (hh.lists.perm (hs.without_entries hx hslot).symm).tail
        convert htail using 1
        funext k'
        by_cases hk : k' = key
        · subst hk
          rw [Function.update_self, Function.update_self]
          rfl
        · rw [Function.update_of_ne hk, Function.update_of_ne hk]
    · have hnone := hh.eq_none_of_absent habsent
      refine ⟨h, ?_, (hsame hnone).symm ▸ hh, rfl, Nat.le_refl _⟩
      rw [mapRemove, hget, kh_bind_ok, hs.nBuckets, if_pos rfl, hnone]

end Lookup

/-! ### Adding -/

/-- `map_add` sets the value of the key and keeps every other one. It aborts if an allocation fails.
-/
theorem mapAdd_spec [DecidableEq κ] (alloc : KhAlloc) (hh : h.Holds hash f)
    (hle : h.nBuckets ≤ 2 ^ 31)
    (hfew : h.size < 2 ^ 30) (key : κ) (node : ν) :
    mapAdd hash alloc h key node = .error .abort ∧ alloc.CanFail ∨
      ∃ x h', mapAdd hash alloc h key node = .ok (x, h') ∧
        h'.Holds hash (Function.update f key (some node)) ∧
        h'.nBuckets ≤ 2 ^ 31 ∧ h'.size ≤ h.size + 1 := by
  obtain ⟨x, ret, h₁, hput, ⟨rfl, -, hfails⟩ | ⟨k, hadded⟩⟩ :=
    khPut_spec alloc hh.sound hle hfew key
  · refine .inl ⟨?_, hfails⟩
    rw [mapAdd, hput]
    rfl
  · right
    have hs := hadded.sized
    have hx := hadded.lt
    obtain ⟨val, hslot⟩ := hadded.slot
    have hret : ¬ret < 0 := by
      rcases hadded.entries with ⟨rfl, -⟩ | ⟨rfl | rfl, -⟩ <;> decide
    -- the value of the key is replaced after the key was put
    have hlists : ∃ g, Lists h₁.entries g ∧ ∀ val,
        Function.update g key val = Function.update (fun k => (f k).map some) key val := by
      rcases hadded.entries with ⟨-, hperm⟩ | ⟨-, habsent, val, hperm⟩
      · exact ⟨_, hh.lists.perm hperm, fun _ => rfl⟩
      · refine ⟨_, (hh.lists.cons (hh.lists.eq_none_iff.mpr habsent) val).perm hperm, fun val => ?_⟩
        rw [Function.update_idem]
    obtain ⟨g, hg, hupdate⟩ := hlists
    obtain ⟨before, after, hold, hnew⟩ := hs.withVal_entries hx hslot node
    rw [hold] at hg
    refine ⟨x, h₁.withVal x node, ?_, ⟨.inr ⟨k, hs.withVal hx hslot node⟩, ?_⟩, ?_, ?_⟩
    · rw [mapAdd, hput, kh_bind_ok]
      dsimp only
      rw [if_neg hret, writeAt_eq (Nat.lt_of_lt_of_le hx hs.vals)]
      rfl
    · have hlast := hg.replace (some node)
      rw [← hnew, hupdate] at hlast
      convert hlast using 1
      funext k'
      by_cases hk : k' = key
      · subst hk
        rw [Function.update_self, Function.update_self]
        rfl
      · rw [Function.update_of_ne hk, Function.update_of_ne hk]
    · have hn : (h₁.withVal x node).nBuckets = h₁.nBuckets := rfl
      rw [hn, hs.nBuckets]
      exact Nat.pow_le_pow_right (by decide) hadded.le
    · have hsize : (h₁.withVal x node).size = h₁.size := rfl
      rw [hsize, hs.size, hh.sound.size]
      rcases hadded.entries with ⟨-, hperm⟩ | ⟨-, -, val, hperm⟩
      · exact hperm.length_eq.trans_le (Nat.le_succ _)
      · exact hperm.length_eq.le

/-! ### Walking through a map -/

section Walk

/-- The keys in the order of their buckets, with the buckets. -/
def Khash.places (h : Khash κ ν) : List (κ × Nat) :=
  (List.range h.nBuckets).filterMap fun b => (h.slots b).element?.map fun e => (e.1, b)

/-- The buckets that a loop has still to visit. -/
theorem range_drop {n left : Nat} (hle : left + 1 ≤ n) :
    (List.range n).drop (n - (left + 1)) =
      (n - (left + 1)) :: (List.range n).drop (n - left) := by
  have hlt : n - (left + 1) < (List.range n).length := by
    rw [List.length_range]
    omega
  rw [List.drop_eq_getElem_cons hlt, List.getElem_range]
  congr 2
  omega

theorem khExist_eq (hs : h.Sound hash) {b : Nat} (hb : b < h.nBuckets) :
    khExist h b = .ok (h.slots b).element?.isSome := by
  have hflag : b < 16 * h.flags.length := Nat.lt_of_lt_of_le hb hs.arrays.1
  rw [khExist, acIsEither_eq hflag, kh_bind_ok]
  congr 1
  cases hslot : h.slots b with
  | empty =>
      rw [slotAt_eq_empty_iff.mp hslot, Bool.or_true]
      rfl
  | deleted =>
      rw [((slotAt_eq_deleted_iff hs.arrays.2.2.2 hb).mp hslot).2, Bool.true_or]
      rfl
  | full e =>
      obtain ⟨key, val⟩ := e
      obtain ⟨hempty, hdel, -⟩ := slotAt_eq_full hslot
      rw [hempty, hdel]
      rfl

theorem foreachLoop_eq {σ : Type} (fn : σ → κ → Nat → σ) (hs : h.Sound hash) {left : Nat}
    (hle : left ≤ h.nBuckets) (ctx : σ) :
    foreachLoop fn h left ctx =
      .ok ((((List.range h.nBuckets).drop (h.nBuckets - left)).filterMap fun b =>
        (h.slots b).element?.map fun e => (e.1, b)).foldl (fun ctx e => fn ctx e.1 e.2) ctx) := by
  induction left generalizing ctx with
  | zero =>
      rw [Nat.sub_zero, List.drop_eq_nil_of_le List.length_range.le]
      rfl
  | succ left ih =>
      have hb : h.nBuckets - (left + 1) < h.nBuckets := by omega
      rw [range_drop hle, List.filterMap_cons, foreachLoop, khExist_eq hs hb, kh_bind_ok]
      cases hslot : (h.slots (h.nBuckets - (left + 1))).element? with
      | none => exact ih (by omega) ctx
      | some e =>
          obtain ⟨key, val⟩ := e
          have hkey := (slotAt_eq_full (Slot.element?_eq_some_iff.mp hslot)).2.2.1
          simp only [Option.isSome_some, if_true, readKey_eq hkey, kh_bind_ok]
          exact ih (by omega) _

/-- `map_foreach` calls the function for each key once. -/
theorem mapForeach_eq {σ : Type} (fn : σ → κ → Nat → σ) (hs : h.Sound hash) (ctx : σ) :
    mapForeach fn h ctx = .ok (h.places.foldl (fun ctx e => fn ctx e.1 e.2) ctx) := by
  rw [mapForeach, foreachLoop_eq fn hs (Nat.le_refl _), Nat.sub_self, List.drop_zero]
  rfl

theorem destroyLoop_eq (hh : h.Holds hash f) {left : Nat} (hle : left ≤ h.nBuckets)
    (freed : List ν) :
    destroyLoop h left freed = .ok (freed ++ ((List.range h.nBuckets).drop
      (h.nBuckets - left)).filterMap fun b => (h.slots b).element?.bind Prod.snd) := by
  induction left generalizing freed with
  | zero =>
      rw [Nat.sub_zero, List.drop_eq_nil_of_le List.length_range.le]
      exact congrArg _ (List.append_nil freed).symm
  | succ left ih =>
      have hb : h.nBuckets - (left + 1) < h.nBuckets := by omega
      rw [range_drop hle, List.filterMap_cons, destroyLoop, khExist_eq hh.sound hb, kh_bind_ok]
      cases hslot : (h.slots (h.nBuckets - (left + 1))).element? with
      | none => exact ih (by omega) freed
      | some e =>
          obtain ⟨key, val⟩ := e
          have hfull := Slot.element?_eq_some_iff.mp hslot
          have hmem : (key, val) ∈ h.entries := mem_entries.mpr ⟨_, hb, hfull⟩
          obtain ⟨v, -, hv⟩ := Option.map_eq_some_iff.mp ((hh.lists.mem_iff _ _).mp hmem)
          have hread : khVal h (h.nBuckets - (left + 1)) = .ok v := by
            apply readKey_eq
            apply Option.join_eq_some_iff.mp
            rw [hv]
            exact (slotAt_eq_full hfull).2.2.2.symm
          simp only [Option.isSome_some, if_true, hread, kh_bind_ok, Option.bind_some, ← hv]
          rw [ih (by omega), List.append_assoc]
          rfl

/-- `map_destroy` frees each value once. -/
theorem mapDestroy_spec (hh : h.Holds hash f) :
    ∃ l : List (κ × ν), mapDestroy h = .ok (l.map Prod.snd) ∧ Lists l f := by
  obtain ⟨l, hl, hentries⟩ := hh.exists_list
  refine ⟨l, ?_, hl⟩
  have hvals : h.entries.filterMap Prod.snd = l.map Prod.snd := by
    rw [hentries, List.filterMap_map]
    exact congrFun List.filterMap_eq_map l
  rw [mapDestroy, destroyLoop_eq hh (Nat.le_refl _), Nat.sub_self, List.drop_zero, List.nil_append,
    ← hvals, Khash.entries, OpenAddressing.entries, List.filterMap_filterMap]

theorem map_fst_places (h : Khash κ ν) : h.places.map Prod.fst = h.entries.map Prod.fst := by
  rw [Khash.places, Khash.entries, OpenAddressing.entries, List.map_filterMap, List.map_filterMap]
  congr 1
  funext b
  rw [Option.map_map]
  rfl

theorem foldl_visit (places : List (κ × Nat)) (keys : List κ) :
    places.foldl (fun keys e => keys ++ [e.1]) keys = keys ++ places.map Prod.fst := by
  induction places generalizing keys with
  | nil => exact (List.append_nil keys).symm
  | cons e places ih => rw [List.foldl_cons, ih, List.append_assoc, List.map_cons]; rfl

end Walk

/-! ### Clearing and resizing -/

theorem khClear_holds (hh : h.Holds hash f) : (khClear h).Holds hash (fun _ => none) ∧
    (khClear h).nBuckets = h.nBuckets ∧ (khClear h).size ≤ h.size := by
  have hnil : ∀ {h' : Khash κ ν}, h'.Sound hash → h'.entries = [] →
      h'.Holds hash fun _ => none := by
    intro h' hsound hentries
    refine ⟨hsound, ?_⟩
    rw [hentries]
    exact lists_nil
  refine ⟨?_, ?_, ?_⟩
  · rcases hh.sound with hbare | ⟨k, hs⟩
    · have hclear : (khClear h).Bare := by
        rw [khClear]
        split
        · exact hbare
        · exact ⟨hbare.nBuckets, rfl, rfl, hbare.upperBound⟩
      exact hnil (.inl hclear) hclear.entries
    · rw [hs.khClear_eq]
      exact hnil (.inr ⟨k, hs.cleared⟩) hs.cleared_entries
  · rw [khClear]
    split <;> rfl
  · rw [khClear]
    split
    · exact Nat.le_refl _
    · exact Nat.zero_le _

theorem khResize_holds (alloc : KhAlloc) (hh : h.Holds hash f) {n : Nat} (hle : h.nBuckets ≤ 2 ^ 31)
    (hn : n ≤ 2 ^ 31) (hfewer : alloc.fewerKeys = true ∧ alloc.fewerVals = true) :
    ∃ ret h', khResize hash alloc h n = .ok (ret, h') ∧ (ret = 0 ∨ ret = -1 ∧ alloc.CanFail) ∧
      h'.Holds hash f ∧ h'.nBuckets ≤ 2 ^ 31 ∧ h'.size = h.size := by
  have hround := khRoundup_eq hn
  have hsize : (n - 1).size ≤ 31 := Nat.size_le.mpr (by omega)
  have hk : max 2 (n - 1).size ≤ 31 := Nat.max_le.mpr ⟨by decide, hsize⟩
  obtain ⟨ret, h', hrun, hresized⟩ := khResize_spec alloc hh.sound (Nat.le_max_left _ _)
    hround (.inr hfewer)
  refine ⟨ret, h', hrun, ?_⟩
  cases hresized with
  | small _ => exact ⟨.inl rfl, hh, hle, rfl⟩
  | failed _ hfails hext =>
      refine ⟨.inr ⟨rfl, hfails.canFail⟩, ⟨hext.sound hh.sound, ?_⟩, ?_, hext.size⟩
      · rw [hext.entries]
        exact hh.lists
      · rw [hext.nBuckets]
        exact hle
  | moved _ hmoved =>
      refine ⟨.inl rfl, ⟨.inr ⟨_, hmoved.sized⟩, hh.lists.perm hmoved.entries⟩, ?_, ?_⟩
      · rw [hmoved.sized.nBuckets]
        exact Nat.pow_le_pow_right (by decide) hk
      · rw [hmoved.sized.size, hmoved.entries.length_eq, hh.sound.size]

/-! ### Sequences of calls -/

section Calls

variable [DecidableEq κ] {g : κ → Option ν} {call : MapCall κ ν} {result : MapResult κ ν}

/-- The dictionary `g` after a call, and what the call returns. -/
inductive Answers (f : κ → Option ν) : MapCall κ ν → MapResult κ ν → (κ → Option ν) → Prop where
  | add (alloc : KhAlloc) (key : κ) (node : ν) :
      Answers f (.add alloc key node) .done (Function.update f key (some node))
  | remove (serial : κ) :
      Answers f (.remove serial) (.freed (f serial)) (Function.update f serial none)
  | get (serial : κ) : Answers f (.get serial) (.found (f serial)) f
  | size {l : List (κ × ν)} (hl : Lists l f) : Answers f .size (.count l.length) f
  | foreach {l : List (κ × ν)} (hl : Lists l f) : Answers f .foreach (.visited (l.map Prod.fst)) f
  | clear : Answers f .clear .done fun _ => none
  | resize (alloc : KhAlloc) (n : Nat) {ret : Int} (hret : ret = 0 ∨ ret = -1 ∧ alloc.CanFail) :
      Answers f (.resize alloc n) (.resized ret) f

/-- The calls and their results from `f` to `g`. -/
inductive AnswersAll : (κ → Option ν) → List (MapCall κ ν) → List (MapResult κ ν) →
    (κ → Option ν) → Prop where
  | nil (f : κ → Option ν) : AnswersAll f [] [] f
  | cons {f g f' : κ → Option ν} {call : MapCall κ ν} {result : MapResult κ ν}
      {calls : List (MapCall κ ν)} {results : List (MapResult κ ν)}
      (first : Answers f call result g) (rest : AnswersAll g calls results f') :
      AnswersAll f (call :: calls) (result :: results) f'

/-- Sizes fit `khint_t`, and an array can always be made smaller. -/
def MapCall.Fits : MapCall κ ν → Prop
  | .resize alloc n => n ≤ 2 ^ 31 ∧ alloc.fewerKeys = true ∧ alloc.fewerVals = true
  | _ => True

def MapCall.adds : MapCall κ ν → Nat
  | .add _ _ _ => 1
  | _ => 0

/-- An allocation fails in the call, and it is one of a `map_add`. -/
def MapCall.Aborts : MapCall κ ν → Prop
  | .add alloc _ _ => alloc.CanFail
  | _ => False

/-- One call. -/
theorem mapCall_answers (hh : h.Holds hash f) (hle : h.nBuckets ≤ 2 ^ 31) (hfew : h.size < 2 ^ 30)
    (hfits : call.Fits) :
    mapCall hash h call = .error .abort ∧ call.Aborts ∨
      ∃ result h' g, mapCall hash h call = .ok (result, h') ∧ Answers f call result g ∧
        h'.Holds hash g ∧ h'.nBuckets ≤ 2 ^ 31 ∧ h'.size ≤ h.size + call.adds := by
  cases call with
  | add alloc key node =>
      rcases mapAdd_spec alloc hh hle hfew key node with
        ⟨habort, hfails⟩ | ⟨x, h', hadd, hh', hle', hsize⟩
      · refine .inl ⟨?_, hfails⟩
        rw [mapCall, habort]
        rfl
      · refine .inr ⟨_, h', _, ?_, .add alloc key node, hh', hle', hsize⟩
        rw [mapCall, hadd]
        rfl
  | remove serial =>
      obtain ⟨h', hremove, hh', hn, hsize⟩ := mapRemove_spec hh serial
      refine .inr ⟨_, h', _, ?_, .remove serial, hh', hn.trans_le hle, hsize⟩
      rw [mapCall, hremove]
      rfl
  | get serial =>
      right
      have hget : mapCall hash h (.get serial) = .ok (.found (f serial), h) := by
        rcases mapGet_spec hh serial with ⟨hget, hnone⟩ | ⟨x, v, hget, hv, hread⟩
        · rw [mapCall, hget, hnone]
          rfl
        · rw [mapCall, hget, hv, kh_bind_ok]
          dsimp only
          rw [hread]
          rfl
      exact ⟨_, h, f, hget, .get serial, hh, hle, Nat.le_refl _⟩
  | size =>
      right
      obtain ⟨l, hl, hentries⟩ := hh.exists_list
      refine ⟨_, h, f, ?_, .size hl, hh, hle, Nat.le_refl _⟩
      rw [mapCall, mapSize, hh.sound.size, hentries, List.length_map]
  | foreach =>
      right
      obtain ⟨l, hl, hentries⟩ := hh.exists_list
      refine ⟨_, h, f, ?_, .foreach hl, hh, hle, Nat.le_refl _⟩
      rw [mapCall, mapForeach_eq _ hh.sound, foldl_visit, List.nil_append, map_fst_places, hentries,
        List.map_map]
      rfl
  | clear =>
      obtain ⟨hclear, hn, hsize⟩ := khClear_holds hh
      exact .inr ⟨_, khClear h, _, rfl, .clear, hclear, hn.trans_le hle, hsize⟩
  | resize alloc n =>
      obtain ⟨ret, h', hrun, hret, hh', hle', hsize⟩ := khResize_holds alloc hh hle hfits.1 hfits.2
      refine .inr ⟨_, h', f, ?_, .resize alloc n hret, hh', hle', hsize.le⟩
      rw [mapCall, hrun]
      rfl

/-- Every call after the first ones. -/
theorem mapCalls_answers {calls : List (MapCall κ ν)} (hh : h.Holds hash f)
    (hle : h.nBuckets ≤ 2 ^ 31) (hfits : ∀ call ∈ calls, call.Fits)
    (hfew : h.size + (calls.map MapCall.adds).sum < 2 ^ 30) :
    mapCalls hash h calls = .error .abort ∧ (∃ call ∈ calls, call.Aborts) ∨
      ∃ results h' g, mapCalls hash h calls = .ok (results, h') ∧ AnswersAll f calls results g ∧
        h'.Holds hash g := by
  induction calls generalizing h f with
  | nil => exact .inr ⟨[], h, f, rfl, .nil f, hh⟩
  | cons call calls ih =>
      rw [List.map_cons, List.sum_cons] at hfew
      rcases mapCall_answers hh hle (by omega) (hfits call List.mem_cons_self) with
        ⟨habort, haborts⟩ | ⟨result, h₁, g, hcall, hanswers, hh₁, hle₁, hsize⟩
      · refine .inl ⟨?_, call, List.mem_cons_self, haborts⟩
        rw [mapCalls, habort]
        rfl
      · rcases ih hh₁ hle₁ (fun call h => hfits call (List.mem_cons_of_mem _ h)) (by omega) with
          ⟨habort, call', hmem, haborts⟩ | ⟨results, h', f', hcalls, hall, hh'⟩
        · refine .inl ⟨?_, call', List.mem_cons_of_mem _ hmem, haborts⟩
          rw [mapCalls, hcall, kh_bind_ok]
          dsimp only
          rw [habort]
          rfl
        · refine .inr ⟨result :: results, h', f', ?_, .cons hanswers hall, hh'⟩
          rw [mapCalls, hcall, kh_bind_ok]
          dsimp only
          rw [hcalls]
          rfl

/-- **A map is a dictionary.** Every sequence of calls on a new map ends without leaving an array,
reading what was not written or looping, and each call returns what a dictionary returns. Only
`map_add` aborts, where an allocation fails. -/
theorem mapCalls_dictionary (hash : κ → BitVec 32) (calls : List (MapCall κ ν))
    (hfits : ∀ call ∈ calls, call.Fits) (hfew : (calls.map MapCall.adds).sum < 2 ^ 30) :
    mapCalls hash mapCreate calls = .error .abort ∧ (∃ call ∈ calls, call.Aborts) ∨
      ∃ results h f, mapCalls hash mapCreate calls = .ok (results, h) ∧
        AnswersAll (fun _ => none) calls results f ∧ h.Holds hash f := by
  apply mapCalls_answers (mapCreate_holds hash) _ hfits
  · exact (Nat.zero_add _).trans_lt hfew
  · exact Nat.zero_le _

/-- All allocations succeed. -/
def KhAlloc.good : KhAlloc :=
  { flags := true, keys := true, vals := true, fewerKeys := true, fewerVals := true }

/-- Four keys with the same hash, in a table that grows from four buckets to eight. -/
def collidingCalls : List (MapCall Nat Nat) :=
  [.add .good 3 30, .add .good 5 50, .add .good 7 70, .add .good 9 90, .remove 5, .get 9,
    .resize .good 20, .foreach]

theorem mapCalls_dictionary_colliding :
    mapCalls (fun _ => 6) mapCreate collidingCalls = .error .abort ∧
        (∃ call ∈ collidingCalls, call.Aborts) ∨
      ∃ results h f, mapCalls (fun _ => 6) mapCreate collidingCalls = .ok (results, h) ∧
        AnswersAll (fun _ => none) collidingCalls results f ∧ h.Holds (fun _ => 6) f :=
  mapCalls_dictionary _ collidingCalls
    (by simp [collidingCalls, MapCall.Fits, KhAlloc.good]) (by decide)

/-- **Resizing a map.** After every sequence of calls, `kh_resize` either leaves the map with all of
its elements in `2 ^ k` buckets, none of them deleted, or leaves the map as it was: where the
elements do not fit, or where an allocation fails. -/
theorem mapCalls_resize (hash : κ → BitVec 32) (calls : List (MapCall κ ν))
    (hfits : ∀ call ∈ calls, call.Fits) (hfew : (calls.map MapCall.adds).sum < 2 ^ 30)
    {results : List (MapResult κ ν)} {h : Khash κ ν}
    (hrun : mapCalls hash mapCreate calls = .ok (results, h)) (alloc : KhAlloc) {n : Nat}
    (hn : n ≤ 2 ^ 31) (hfewer : alloc.fewerKeys = true ∧ alloc.fewerVals = true) :
    ∃ ret h' f, khResize hash alloc h n = .ok (ret, h') ∧ h.Holds hash f ∧ h'.Holds hash f ∧
      h'.entries.Perm h.entries ∧
      (ret = 0 ∧ acUpperBound (2 ^ max 2 (n - 1).size) ≤ h.size ∧ h' = h ∨
        ret = -1 ∧ alloc.CanFail ∧ Extends h h' ∨
        ret = 0 ∧ h'.nBuckets = 2 ^ max 2 (n - 1).size ∧ h'.nOccupied = h.size ∧
          h.size < acUpperBound (2 ^ max 2 (n - 1).size)) := by
  have hdictionary : ∃ f, h.Holds hash f := by
    rcases mapCalls_answers (mapCreate_holds hash) (Nat.zero_le _) hfits
      ((Nat.zero_add _).trans_lt hfew) with ⟨habort, -⟩ | ⟨results', h', f, hrun', -, hh⟩
    · rw [hrun] at habort
      cases habort
    · obtain rfl : h = h' := (Prod.mk.inj (Except.ok.inj (hrun.symm.trans hrun'))).2
      exact ⟨f, hh⟩
  obtain ⟨f, hh⟩ := hdictionary
  obtain ⟨ret, h', hresize, hresized⟩ := khResize_spec alloc hh.sound (Nat.le_max_left _ _)
    (khRoundup_eq hn) (.inr hfewer)
  refine ⟨ret, h', f, hresize, hh, ?_⟩
  cases hresized with
  | small hsmall => exact ⟨hh, .refl _, .inl ⟨rfl, hsmall, rfl⟩⟩
  | failed _ hfails hext =>
      have hentries := hext.entries
      refine ⟨⟨hext.sound hh.sound, hentries.symm ▸ hh.lists⟩, ?_,
        .inr (.inl ⟨rfl, hfails.canFail, hext⟩)⟩
      rw [hentries]
  | moved hroom hmoved =>
      exact ⟨⟨.inr ⟨_, hmoved.sized⟩, hh.lists.perm hmoved.entries⟩, hmoved.entries,
        .inr (.inr ⟨rfl, hmoved.sized.nBuckets, hmoved.nOccupied, hroom⟩)⟩

theorem mapCalls_resize_colliding : ∃ results h ret h' f,
    mapCalls (fun _ => 6) mapCreate collidingCalls = .ok (results, h) ∧
      khResize (fun _ => 6) .good h 3 = .ok (ret, h') ∧ h.Holds (fun _ => 6) f ∧
        h'.Holds (fun _ => 6) f ∧ h'.entries.Perm h.entries := by
  obtain ⟨⟨results, h⟩, hrun⟩ := kh_exists_of_isOk
    (show (mapCalls (fun _ => 6) mapCreate collidingCalls).isOk = true by decide +kernel)
  obtain ⟨ret, h', f, hresize, hh, hh', hperm, -⟩ := mapCalls_resize (fun _ => 6) collidingCalls
    (by simp [collidingCalls, MapCall.Fits, KhAlloc.good]) (by decide) hrun .good (n := 3)
    (by decide)
    ⟨rfl, rfl⟩
  exact ⟨results, h, ret, h', f, hrun, hresize, hh, hh', hperm⟩

end Calls

end AtxSys
