import AtxSys.Lib.JsonSyntax

/-!
# Paths into a document

A path names members by their keys and elements by their numbers. It is followed on places and on
bare trees alike, and in a document of a lexicon it leads to values of the lexicon.
-/

namespace JsonSyntax

open CText

inductive Step where
  | member (key : Bytes)
  | element (i : Nat)
  deriving DecidableEq

namespace Value

def element (i : Nat) : Value → Option Value
  | .arr _ items => items.get i
  | _ => none

def step : Step → Value → Option Value
  | .member key, v => v.member key
  | .element i, v => v.element i

def walk : List Step → Value → Option Value
  | [], v => some v
  | e :: path, v => v.step e >>= walk path

/-- The text of the value, of a string without its quotes. -/
def content : Value → Bytes
  | .str body => body
  | v => v.text

end Value

namespace Place

def step : Step → Place → Option Place
  | .member key, p => p.member key
  | .element i, p => p.element i

def walk : List Step → Place → Option Place
  | [], p => some p
  | e :: path, p => p.step e >>= walk path

theorem element_value (i : Nat) (p : Place) :
    (p.element i).map Place.value = p.value.element i := by
  obtain ⟨index, off, value⟩ := p
  cases value with
  | arr pad items => exact items.element_value true _ _ i
  | str | prim | obj => rfl

theorem step_value (e : Step) (p : Place) : (p.step e).map Place.value = p.value.step e := by
  cases e with
  | member key => exact p.member_value key
  | element i => exact p.element_value i

theorem walk_value (path : List Step) (p : Place) :
    (p.walk path).map Place.value = p.value.walk path := by
  induction path generalizing p with
  | nil => rfl
  | cons e path ih =>
      rw [Place.walk, Value.walk, ← p.step_value]
      cases p.step e with
      | none => rfl
      | some next => exact ih next

theorem step_mem_places {e : Step} {p q : Place} (h : p.step e = some q) : q ∈ p.places := by
  cases e with
  | member key => exact member_mem_places h
  | element i => exact element_mem_places h

end Place

/-- Keys alone are followed as a path of members. -/
theorem Value.walk_member (keys : List Bytes) (v : Value) :
    v.walk (keys.map Step.member) = v.follow keys := by
  induction keys generalizing v with
  | nil => rfl
  | cons key keys ih =>
      rw [List.map_cons, Value.walk, Value.follow, Value.step]
      cases v.member key with
      | none => rfl
      | some next => exact ih next

/-! ### Elements and members in order -/

def Items.values : Items → List Value
  | .nil => []
  | .cons _ value _ rest => value :: rest.values

def Members.pairs : Members → List (Bytes × Value)
  | .nil => []
  | .cons _ key _ _ value _ rest => (key, value) :: rest.pairs

/-- The numbers of the elements. -/
def Items.slots : Items → Nat → List Nat
  | .nil, _ => []
  | .cons _ value _ rest, index => index :: rest.slots (index + value.count)

/-- The numbers of the keys. -/
def Members.slots : Members → Nat → List Nat
  | .nil, _ => []
  | .cons _ _ _ _ value _ rest, index => index :: rest.slots (index + 1 + value.count)

theorem Items.slots_getElem? (items : Items) (first : Bool) (index off i : Nat) :
    (items.slots index)[i]? = (items.element first index off i).map Place.index := by
  induction items, i using Items.get.induct generalizing first index off with
  | case1 => rfl
  | case2 before value after rest => rfl
  | case3 before value after rest i ih => exact ih false _ _

/-- A lookup finds the first member with the key. -/
theorem Members.slots_lookup (key : Bytes) (members : Members) (first : Bool) (index off : Nat) :
    (((members.pairs.map Prod.fst).zip (members.slots index)).lookup key).map (· + 1) =
      (members.member key first index off).map Place.index := by
  induction members using Members.find.induct key generalizing first index off with
  | case1 => rfl
  | case2 before beforeColon afterColon value after rest =>
      simp [Members.pairs, Members.slots, Members.member]
  | case3 before k beforeColon afterColon value after rest hne ih =>
      have hbeq : (key == k) = false := by simpa using Ne.symm hne
      rw [Members.pairs, Members.slots, Members.member, if_neg hne, List.map_cons,
        List.zip_cons_cons, List.lookup_cons, hbeq]
      exact ih false _ _

/-! ### Values of a lexicon -/

section Lexical

variable {L : Lexicon}

theorem Members.Lexical.find {key : Bytes} {members : Members} {v : Value}
    (h : members.Lexical L) (hfind : members.find key = some v) : v.Lexical L := by
  induction members using Members.find.induct key with
  | case1 => cases hfind
  | case2 before beforeColon afterColon value after rest =>
      rw [Members.find, if_pos rfl] at hfind
      obtain rfl := Option.some.inj hfind
      exact h.2.2.2.2.1
  | case3 before k beforeColon afterColon value after rest hne ih =>
      rw [Members.find, if_neg hne] at hfind
      exact ih h.2.2.2.2.2.2 hfind

theorem Items.Lexical.get {items : Items} {i : Nat} {v : Value} (h : items.Lexical L)
    (hget : items.get i = some v) : v.Lexical L := by
  induction items, i using Items.get.induct with
  | case1 => cases hget
  | case2 before value after rest =>
      obtain rfl := Option.some.inj hget
      exact h.2.1
  | case3 before value after rest i ih => exact ih h.2.2.2 hget

theorem Value.Lexical.step {e : Step} {v w : Value} (h : v.Lexical L) (hstep : v.step e = some w) :
    w.Lexical L := by
  cases e with
  | member key =>
      cases v with
      | obj pad members => exact h.2.find hstep
      | str | prim | arr => cases hstep
  | element i =>
      cases v with
      | arr pad items => exact h.2.get hstep
      | str | prim | obj => cases hstep

theorem Value.Lexical.walk {path : List Step} {v w : Value} (h : v.Lexical L)
    (hwalk : v.walk path = some w) : w.Lexical L := by
  induction path generalizing v with
  | nil =>
      obtain rfl := Option.some.inj hwalk
      exact h
  | cons e path ih =>
      obtain ⟨next, hnext, hrest⟩ := Option.bind_eq_some_iff.mp hwalk
      exact ih (h.step hnext) hrest

theorem Number.head {text : Bytes} (h : Number text) :
    ∃ c rest, text = c :: rest ∧ (c = 0x2D ∨ 48 ≤ c ∧ c ≤ 57) := by
  obtain ⟨hsign, ⟨hne, hdigit⟩, -, -, -⟩ := h
  rcases hsign with rfl | rfl
  · rename_i int frac exp
    obtain ⟨d, ds, rfl⟩ := List.exists_cons_of_ne_nil hne
    exact ⟨d, ds ++ frac ++ exp, by simp, .inr (hdigit d (by simp))⟩
  · exact ⟨0x2D, _, rfl, .inl rfl⟩

/-- No word of JSON but `null` starts with an `n`. -/
theorem null_of_head {text : Bytes} (h : json.prim text) :
    text.take 1 = bytes "n" ↔ text = bytes "null" := by
  constructor
  · intro hhead
    rcases h with rfl | rfl | rfl | hnumber
    · exact absurd hhead (by decide)
    · exact absurd hhead (by decide)
    · rfl
    · obtain ⟨c, rest, rfl, hc⟩ := hnumber.head
      obtain rfl : c = 0x6E := (List.cons.inj hhead).1
      exact absurd hc (by decide)
  · rintro rfl
    rfl

end Lexical

end JsonSyntax
