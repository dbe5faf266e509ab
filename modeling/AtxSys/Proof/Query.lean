import AtxSys.Query
import Mathlib.Order.Basic

/-!
# What a query says and what is read from it

A name is looked for as a text anywhere in the query. The result is the one of the law only if the
first place where the name stands is that of an item with this name.
-/

namespace AtxSys

open CText Slices

/-! ### The law -/

section Law

variable {text want : Bytes} {i : Nat} {r : Nat × Nat}

/-- An item with the wanted name and a value starts here. -/
structure Wanted (text want : Bytes) (i : Nat) : Prop where
  start : itemStart text i = true
  name : equals ∉ want ∧ ampersand ∉ want
  at_ : At text i want
  value : text[i + want.length]? = some equals

theorem named_iff {item : Bytes} :
    named want item = true ↔ equals ∉ want ∧ want ++ [equals] <+: item := by
  rw [named, Bool.and_eq_true, decide_eq_true_iff, decide_eq_true_iff]
  constructor
  · rintro ⟨hmem, rfl⟩
    obtain ⟨name, value, rfl, hname⟩ := List.eq_append_cons_of_mem hmem
    rw [takeWhile_append_cons hname]
    exact ⟨hname, value, by simp⟩
  · rintro ⟨hnot, rest, rfl⟩
    rw [List.append_assoc, List.singleton_append]
    exact ⟨by simp, takeWhile_append_cons hnot⟩

theorem wanted_iff :
    (itemStart text i && named want (queryItem text i)) = true ↔ Wanted text want i := by
  rw [Bool.and_eq_true, named_iff, queryItem, prefix_takeWhile_iff]
  have hat : want ++ [equals] <+: text.drop i ↔
      At text i want ∧ text[i + want.length]? = some equals := by
    have hcons : At text (i + want.length) [equals] ↔ text[i + want.length]? = some equals := by
      rw [at_cons_iff]
      exact and_iff_left List.nil_prefix
    rw [← hcons]
    exact at_append_iff
  have hmem : ampersand ∉ want ++ [equals] ↔ ampersand ∉ want := by
    simp [show ampersand ≠ equals by decide]
  rw [hat, hmem]
  constructor
  · rintro ⟨hstart, hequals, ⟨hat, hvalue⟩, hampersand⟩
    exact ⟨hstart, ⟨hequals, hampersand⟩, hat, hvalue⟩
  · intro h
    exact ⟨h.start, h.name.1, ⟨h.at_, h.value⟩, h.name.2⟩

theorem Wanted.lt (h : Wanted text want i) : i + want.length < text.length :=
  (List.getElem?_eq_some_iff.mp h.value).1

theorem queryValue_eq_none_iff : queryValue text want = none ↔ ∀ i, ¬ Wanted text want i := by
  rw [queryValue, Option.map_eq_none_iff, List.find?_range_eq_none]
  constructor
  · intro h i hwanted
    have hlt := hwanted.lt
    have hnot := h i (by omega)
    rw [wanted_iff.mpr hwanted] at hnot
    cases hnot
  · intro h i _
    rw [Bool.not_eq_true', Bool.eq_false_iff]
    exact fun hwanted => h i (wanted_iff.mp hwanted)

theorem queryValue_eq_some_iff :
    queryValue text want = some r ↔ ∃ i, Wanted text want i ∧ (∀ j, j < i → ¬ Wanted text want j) ∧
      r = (i + (want.length + 1), (queryItem text i).length - (want.length + 1)) := by
  rw [queryValue, Option.map_eq_some_iff]
  simp only [List.find?_range_eq_some, wanted_iff]
  constructor
  · rintro ⟨i, ⟨hwanted, -, hbefore⟩, rfl⟩
    refine ⟨i, hwanted, fun j hj hwanted' => ?_, rfl⟩
    have hnot := hbefore j hj
    rw [wanted_iff.mpr hwanted'] at hnot
    cases hnot
  · rintro ⟨i, hwanted, hbefore, rfl⟩
    have hlt := hwanted.lt
    refine ⟨i, ⟨hwanted, List.mem_range.mpr (by omega), fun j hj => ?_⟩, rfl⟩
    rw [Bool.not_eq_true', Bool.eq_false_iff]
    exact fun hwanted' => hbefore j hj (wanted_iff.mp hwanted')

/-- The value goes on to the next ampersand. -/
theorem Wanted.length_value (h : Wanted text want i) :
    (queryItem text i).length - (want.length + 1) =
      ((text.drop (i + (want.length + 1))).takeWhile (· ≠ ampersand)).length := by
  have hat : At text i (want ++ [equals]) := by
    apply at_append_iff.mpr
    refine ⟨h.at_, ?_⟩
    rw [at_cons_iff]
    exact ⟨h.value, List.nil_prefix⟩
  obtain ⟨rest, hrest⟩ := hat
  have hleft : text.drop (i + (want.length + 1)) = rest := by
    have hlen : (want ++ [equals]).length = want.length + 1 := by simp
    rw [← hlen]
    exact left_append hrest.symm
  have hall : ∀ c ∈ want ++ [equals], decide (c ≠ ampersand) = true := by
    intro c hc
    apply decide_eq_true
    rintro rfl
    rcases List.mem_append.mp hc with hc | hc
    · exact h.name.2 hc
    · exact absurd (List.mem_singleton.mp hc) (by decide)
  rw [queryItem, ← hrest, List.takeWhile_append_of_pos hall, hleft, List.length_append]
  simp

end Law

/-! ### The code -/

section Code

variable {text want : Bytes} {i : Nat}

theorem exists_firstAt (h : At text i want) : ∃ j, FirstAt text want j := by
  induction i using Nat.strongRecOn with
  | _ i ih =>
      by_cases hbefore : ∃ j, j < i ∧ At text j want
      · obtain ⟨j, hj, hat⟩ := hbefore
        exact ih j hj hat
      · exact ⟨i, h, fun j hj hat => hbefore ⟨j, hj, hat⟩⟩

/-- Where the name first stands, an item of this name starts if an equals sign follows; and if none
follows, no item has this name. -/
def Clear (q : QueryString) (want : Bytes) : Prop :=
  ∀ i, FirstAt q.text want i →
    if q.byte (i + want.length) = equals then Wanted q.text want i
    else ∀ j, ¬ Wanted q.text want j

theorem firstAt_unique {j : Nat} (hi : FirstAt text want i) (hj : FirstAt text want j) : i = j := by
  rcases Nat.lt_trichotomy i j with hlt | heq | hlt
  · exact absurd hi.1 (hj.2 i hlt)
  · exact heq
  · exact absurd hj.1 (hi.2 j hlt)

theorem clear_iff_of_firstAt {q : QueryString} (hi : FirstAt q.text want i) :
    Clear q want ↔ if q.byte (i + want.length) = equals then Wanted q.text want i
      else ∀ j, ¬ Wanted q.text want j := by
  constructor
  · intro h
    exact h i hi
  · intro h j hj
    rw [← firstAt_unique hi hj]
    exact h

/-- **Query strings.** The result is the value of the first item with the wanted name if and only if
the first place where the name stands does not mislead. -/
theorem http_parse_query_str_iff (strstr : MgStrstr) (q : QueryString) (want : Bytes)
    (hwant : cstr want ≠ []) :
    httpParseQueryStr strstr q want = .ok (queryValue q.text (cstr want)) ↔
      Clear q (cstr want) := by
  unfold httpParseQueryStr
  generalize cstr want = want at hwant
  dsimp only
  have hpos := List.length_pos_iff.mpr hwant
  cases hfind : strstr.find q.text want with
  | none =>
      have hnowhere : ∀ i, ¬ FirstAt q.text want i := by
        intro i hi
        rw [(strstr.hfind _ _ i hwant).mpr hi] at hfind
        cases hfind
      apply iff_of_true
      · have hnone : queryValue q.text want = none := by
          apply queryValue_eq_none_iff.mpr
          intro i hwanted
          obtain ⟨j, hj⟩ := exists_firstAt hwanted.at_
          exact hnowhere j hj
        rw [hnone]
      · intro i hi
        exact absurd hi (hnowhere i)
  | some i =>
      have hi := (strstr.hfind _ _ i hwant).mp hfind
      have hin := hi.1.length_le hwant
      rw [clear_iff_of_firstAt hi]
      dsimp only
      by_cases hbyte : q.byte (i + want.length) = equals
      · rw [if_pos ⟨by omega, by omega, hbyte⟩, if_pos hbyte]
        by_cases hend : q.text.length < i + (want.length + 1)
        · rw [if_pos hend]
          apply iff_of_false
          · intro h
            cases h
          · intro h
            have hlt := h.lt
            omega
        · rw [if_neg hend, ← length_takeWhile, Except.ok.injEq, eq_comm, queryValue_eq_some_iff]
          constructor
          · rintro ⟨j, hwanted, -, heq⟩
            have hij : i = j := by
              have hfst := (Prod.mk.inj heq).1
              omega
            rw [hij]
            exact hwanted
          · intro hwanted
            refine ⟨i, hwanted, fun j hj hwanted' => hi.2 j hj hwanted'.at_, ?_⟩
            rw [hwanted.length_value]
      · have hfalse : ¬ (want.length ≤ q.text.length ∧ i < q.text.length ∧
            q.byte (i + want.length) = equals) := fun h => hbyte h.2.2
        rw [if_neg hfalse, if_neg hbyte, Except.ok.injEq, eq_comm]
        exact queryValue_eq_none_iff

/-- A search from the front. -/
def MgStrstr.scan : MgStrstr where
  find text needle :=
    (List.range (text.length + 1)).find? fun i => needle.isPrefixOf (text.drop i)
  hfind text needle i hneedle := by
    rw [List.find?_range_eq_some]
    simp only [List.isPrefixOf_iff_prefix, Bool.not_eq_true', ← Bool.not_eq_true]
    constructor
    · rintro ⟨hat, -, hbefore⟩
      exact ⟨hat, hbefore⟩
    · rintro ⟨hat, hbefore⟩
      have hin := At.length_le hat hneedle
      exact ⟨hat, List.mem_range.mpr (by omega), hbefore⟩

theorem http_parse_query_str_iff_plain :
    httpParseQueryStr .scan ⟨bytes "a=1&b=2", space⟩ (bytes "b") = .ok (some (6, 1)) := by
  have hclear : Clear ⟨bytes "a=1&b=2", space⟩ (cstr (bytes "b")) := by
    have hfirst : FirstAt (bytes "a=1&b=2") (cstr (bytes "b")) 4 :=
      (MgStrstr.scan.hfind _ _ 4 (by decide)).mp (by decide)
    apply (clear_iff_of_firstAt hfirst).mpr
    rw [if_pos (by decide)]
    exact wanted_iff.mp (by decide)
  exact (http_parse_query_str_iff .scan ⟨bytes "a=1&b=2", space⟩ (bytes "b") (by decide)).mpr hclear

/-- The name `b` stands at the end of another name. -/
theorem http_parse_query_str_suffix :
    ∃ (strstr : MgStrstr) (q : QueryString) (want : Bytes), cstr want ≠ [] ∧
      httpParseQueryStr strstr q want ≠ .ok (queryValue q.text (cstr want)) :=
  ⟨.scan, ⟨bytes "ab=1&b=2", space⟩, bytes "b", by decide, by decide⟩

end Code

end AtxSys
