import AtxSys.Lib.CText

/-!
# JSON documents as they are written

A document tree that keeps the text of its strings, numbers and blanks, so that rendering it gives
every spelling of a document. What counts as a string or a number is a parameter (`Lexicon`): the
grammar of JSON is one lexicon, and what some tokenizer takes for one is another. A `Place` is a
node of a tree with its number in preorder, keys counted, and the offset at which its text starts.
-/

namespace JsonSyntax

open CText

mutual

inductive Value where
  | str (body : Bytes)
  | prim (text : Bytes)
  | arr (pad : Bytes) (items : Items)
  | obj (pad : Bytes) (members : Members)

/-- The elements of an array, each with the blanks around it. -/
inductive Items where
  | nil
  | cons (before : Bytes) (value : Value) (after : Bytes) (rest : Items)

/-- The members of an object; `before` and `after` surround a member, the other two its colon. -/
inductive Members where
  | nil
  | cons (before key beforeColon afterColon : Bytes) (value : Value) (after : Bytes)
      (rest : Members)

end

/-! ### The text -/

def quoted (body : Bytes) : Bytes := quote :: (body ++ [quote])

def separator (first : Bool) : Bytes := if first then [] else [comma]

mutual

def Value.text : Value → Bytes
  | .str body => quoted body
  | .prim text => text
  | .arr pad items => lbracket :: (pad ++ items.text true ++ [rbracket])
  | .obj pad members => lbrace :: (pad ++ members.text true ++ [rbrace])

def Items.text : Bool → Items → Bytes
  | _, .nil => []
  | first, .cons before value after rest =>
    separator first ++ before ++ value.text ++ after ++ rest.text false

def Members.text : Bool → Members → Bytes
  | _, .nil => []
  | first, .cons before key beforeColon afterColon value after rest =>
    separator first ++ before ++ quoted key ++ beforeColon ++ colon :: afterColon ++ value.text ++
      after ++ rest.text false

end

def Items.length : Items → Nat
  | .nil => 0
  | .cons _ _ _ rest => rest.length + 1

def Members.length : Members → Nat
  | .nil => 0
  | .cons _ _ _ _ _ _ rest => rest.length + 1

/-! ### Lexicons -/

structure Lexicon where
  str : Bytes → Prop
  prim : Bytes → Prop

def Blank (s : Bytes) : Prop := ∀ c ∈ s, c ∈ [tab, newline, carriageReturn, space]

mutual

def Value.Lexical (L : Lexicon) : Value → Prop
  | .str body => L.str body
  | .prim text => L.prim text
  | .arr pad items => Blank pad ∧ items.Lexical L
  | .obj pad members => Blank pad ∧ members.Lexical L

def Items.Lexical (L : Lexicon) : Items → Prop
  | .nil => True
  | .cons before value after rest =>
    Blank before ∧ value.Lexical L ∧ Blank after ∧ rest.Lexical L

def Members.Lexical (L : Lexicon) : Members → Prop
  | .nil => True
  | .cons before key beforeColon afterColon value after rest =>
    Blank before ∧ L.str key ∧ Blank beforeColon ∧ Blank afterColon ∧ value.Lexical L ∧
      Blank after ∧ rest.Lexical L

end

/-- A document with an object at top level. -/
structure Document where
  lead : Bytes
  pad : Bytes
  members : Members
  trail : Bytes

namespace Document

def value (d : Document) : Value := .obj d.pad d.members

def text (d : Document) : Bytes := d.lead ++ d.value.text ++ d.trail

def Lexical (L : Lexicon) (d : Document) : Prop :=
  Blank d.lead ∧ d.value.Lexical L ∧ Blank d.trail

end Document

/-- What one lexicon takes the other takes too. -/
structure Lexicon.Within (L L' : Lexicon) : Prop where
  str : ∀ s, L.str s → L'.str s
  prim : ∀ s, L.prim s → L'.prim s

section Mono

variable {L L' : Lexicon}

mutual

theorem Value.Lexical.mono (hL : L.Within L') : ∀ {v : Value}, v.Lexical L → v.Lexical L'
  | .str body, h => hL.str body h
  | .prim text, h => hL.prim text h
  | .arr _ _, ⟨hpad, hitems⟩ => ⟨hpad, hitems.mono hL⟩
  | .obj _ _, ⟨hpad, hmembers⟩ => ⟨hpad, hmembers.mono hL⟩

theorem Items.Lexical.mono (hL : L.Within L') :
    ∀ {items : Items}, items.Lexical L → items.Lexical L'
  | .nil, _ => trivial
  | .cons _ _ _ _, ⟨hbefore, hvalue, hafter, hrest⟩ =>
    ⟨hbefore, hvalue.mono hL, hafter, hrest.mono hL⟩

theorem Members.Lexical.mono (hL : L.Within L') :
    ∀ {members : Members}, members.Lexical L → members.Lexical L'
  | .nil, _ => trivial
  | .cons _ key _ _ _ _ _, ⟨hbefore, hkey, hbeforeColon, hafterColon, hvalue, hafter, hrest⟩ =>
    ⟨hbefore, hL.str key hkey, hbeforeColon, hafterColon, hvalue.mono hL, hafter, hrest.mono hL⟩

end

theorem Document.Lexical.mono (hL : L.Within L') {d : Document} (h : d.Lexical L) :
    d.Lexical L' :=
  ⟨h.1, h.2.1.mono hL, h.2.2⟩

end Mono

/-! ### The JSON lexicon -/

def escapes : Bytes := [quote, 0x2F, backslash, 0x62, 0x66, 0x6E, 0x72, 0x74]

def IsHex (c : UInt8) : Prop := 48 ≤ c ∧ c ≤ 57 ∨ 65 ≤ c ∧ c ≤ 70 ∨ 97 ≤ c ∧ c ≤ 102

/-- What may stand between the quotes of a string whose unescaped bytes satisfy `plain`. -/
inductive StringBody (plain : UInt8 → Prop) : Bytes → Prop where
  | nil : StringBody plain []
  | plain {c : UInt8} {s : Bytes} (hplain : plain c) (hquote : c ≠ quote)
      (hbackslash : c ≠ backslash) (rest : StringBody plain s) : StringBody plain (c :: s)
  | escape {c : UInt8} {s : Bytes} (hescape : c ∈ escapes) (rest : StringBody plain s) :
      StringBody plain (backslash :: c :: s)
  | unicode {a b c d : UInt8} {s : Bytes} (ha : IsHex a) (hb : IsHex b) (hc : IsHex c)
      (hd : IsHex d) (rest : StringBody plain s) :
      StringBody plain (backslash :: 0x75 :: a :: b :: c :: d :: s)

theorem StringBody.mono {plain plain' : UInt8 → Prop} (h : ∀ c, plain c → plain' c) {s : Bytes}
    (hs : StringBody plain s) : StringBody plain' s := by
  induction hs with
  | nil => exact .nil
  | plain hplain hquote hbackslash _ ih => exact .plain (h _ hplain) hquote hbackslash ih
  | escape hescape _ ih => exact .escape hescape ih
  | unicode ha hb hc hd _ ih => exact .unicode ha hb hc hd ih

def Digits (s : Bytes) : Prop := s ≠ [] ∧ ∀ c ∈ s, 48 ≤ c ∧ c ≤ 57

/-- The parts of a number: sign, integer, fraction and exponent. -/
inductive Number : Bytes → Prop where
  | mk {sign int frac exp : Bytes} (hsign : sign = [] ∨ sign = bytes "-")
      (hint : Digits int) (hlead : int = bytes "0" ∨ int.head? ≠ some 48)
      (hfrac : frac = [] ∨ ∃ ds, Digits ds ∧ frac = dot :: ds)
      (hexp : exp = [] ∨ ∃ e esign ds, (e = 0x65 ∨ e = 0x45) ∧
        (esign = [] ∨ esign = bytes "+" ∨ esign = bytes "-") ∧ Digits ds ∧ exp = e :: esign ++ ds) :
      Number (sign ++ int ++ frac ++ exp)

/-- The JSON grammar, but for the encoding: a string may hold any bytes from 0x20 on, and those from
0x80 on need not be UTF-8. -/
def json : Lexicon where
  str := StringBody (0x20 ≤ ·)
  prim text := text = bytes "true" ∨ text = bytes "false" ∨ text = bytes "null" ∨ Number text

/-- A well-formed JSON document with an object at top level. -/
abbrev Document.WellFormed (d : Document) : Prop := d.Lexical json

/-! ### Places -/

mutual

/-- The nodes of a tree, each value and each key being one. -/
def Value.count : Value → Nat
  | .str _ | .prim _ => 1
  | .arr _ items => items.count + 1
  | .obj _ members => members.count + 1

def Items.count : Items → Nat
  | .nil => 0
  | .cons _ value _ rest => value.count + rest.count

def Members.count : Members → Nat
  | .nil => 0
  | .cons _ _ _ _ value _ rest => value.count + 1 + rest.count

end

structure Place where
  index : Nat
  off : Nat
  value : Value

/-- The offset of a member's value from where the member's text starts. -/
def valueOff (first : Bool) (before key beforeColon afterColon : Bytes) : Nat :=
  (separator first ++ before ++ quoted key ++ beforeColon ++ colon :: afterColon).length

def Items.element : Items → Bool → Nat → Nat → Nat → Option Place
  | .nil, _, _, _, _ => none
  | .cons before value _ _, first, index, off, 0 =>
    some ⟨index, off + (separator first ++ before).length, value⟩
  | .cons before value after rest, first, index, off, i + 1 =>
    rest.element false (index + value.count)
      (off + (separator first ++ before ++ value.text ++ after).length) i

/-- The value of the first member with the key `key`. -/
def Members.member (key : Bytes) : Members → Bool → Nat → Nat → Option Place
  | .nil, _, _, _ => none
  | .cons before k beforeColon afterColon value after rest, first, index, off =>
    let off := off + valueOff first before k beforeColon afterColon
    if k = key then some ⟨index + 1, off, value⟩
    else rest.member key false (index + 1 + value.count) (off + (value.text ++ after).length)

namespace Place

def element (p : Place) (i : Nat) : Option Place :=
  match p.value with
  | .arr pad items => items.element true (p.index + 1) (p.off + 1 + pad.length) i
  | _ => none

def member (key : Bytes) (p : Place) : Option Place :=
  match p.value with
  | .obj pad members => members.member key true (p.index + 1) (p.off + 1 + pad.length)
  | _ => none

/-- The place that the keys lead to, through the first member with each key. -/
def follow : List Bytes → Place → Option Place
  | [], p => some p
  | key :: keys, p => p.member key >>= follow keys

end Place

mutual

/-- The places of a tree in preorder. -/
def Value.places : Value → Nat → Nat → List Place
  | .str body, index, off => [⟨index, off, .str body⟩]
  | .prim text, index, off => [⟨index, off, .prim text⟩]
  | .arr pad items, index, off =>
    ⟨index, off, .arr pad items⟩ :: items.places true (index + 1) (off + 1 + pad.length)
  | .obj pad members, index, off =>
    ⟨index, off, .obj pad members⟩ :: members.places true (index + 1) (off + 1 + pad.length)

def Items.places : Items → Bool → Nat → Nat → List Place
  | .nil, _, _, _ => []
  | .cons before value after rest, first, index, off =>
    value.places index (off + (separator first ++ before).length) ++
      rest.places false (index + value.count)
        (off + (separator first ++ before ++ value.text ++ after).length)

def Members.places : Members → Bool → Nat → Nat → List Place
  | .nil, _, _, _ => []
  | .cons before key beforeColon afterColon value after rest, first, index, off =>
    let off := off + valueOff first before key beforeColon afterColon
    value.places (index + 1) off ++
      rest.places false (index + 1 + value.count) (off + (value.text ++ after).length)

end

namespace Document

def root (d : Document) : Place := ⟨0, d.lead.length, d.value⟩

def places (d : Document) : List Place := d.value.places 0 d.lead.length

end Document

/-! ### The same steps on bare trees -/

def Members.find (key : Bytes) : Members → Option Value
  | .nil => none
  | .cons _ k _ _ value _ rest => if k = key then some value else rest.find key

namespace Value

def member (key : Bytes) : Value → Option Value
  | .obj _ members => members.find key
  | _ => none

def follow : List Bytes → Value → Option Value
  | [], v => some v
  | key :: keys, v => v.member key >>= follow keys

end Value

def Items.get : Items → Nat → Option Value
  | .nil, _ => none
  | .cons _ value _ _, 0 => some value
  | .cons _ _ _ rest, i + 1 => rest.get i

theorem Members.member_value (key : Bytes) (members : Members) (first : Bool) (index off : Nat) :
    (members.member key first index off).map Place.value = members.find key := by
  induction members using Members.find.induct key generalizing first index off with
  | case1 => rfl
  | case2 before beforeColon afterColon value after rest => simp [Members.member, Members.find]
  | case3 before k beforeColon afterColon value after rest hne ih =>
      rw [Members.member, Members.find, if_neg hne, if_neg hne]
      exact ih false _ _

theorem Place.member_value (key : Bytes) (p : Place) :
    (p.member key).map Place.value = p.value.member key := by
  obtain ⟨index, off, value⟩ := p
  cases value with
  | obj pad members => exact members.member_value key true _ _
  | str | prim | arr => rfl

theorem Place.follow_value (keys : List Bytes) (p : Place) :
    (p.follow keys).map Place.value = p.value.follow keys := by
  induction keys generalizing p with
  | nil => rfl
  | cons key keys ih =>
      rw [Place.follow, Value.follow, ← p.member_value]
      cases p.member key with
      | none => rfl
      | some next => exact ih next

theorem Items.element_value (items : Items) (first : Bool) (index off i : Nat) :
    (items.element first index off i).map Place.value = items.get i := by
  induction items, i using Items.get.induct generalizing first index off with
  | case1 => rfl
  | case2 before value after rest => rfl
  | case3 before value after rest i ih => exact ih false _ _

theorem Items.get_eq_none_iff {items : Items} {i : Nat} :
    items.get i = none ↔ items.length ≤ i := by
  induction items, i using Items.get.induct with
  | case1 => simp [Items.get, Items.length]
  | case2 before value after rest => simp [Items.get, Items.length]
  | case3 before value after rest i ih => simpa [Items.get, Items.length] using ih

/-! ### Steps lead to places of the tree -/

theorem Value.self_mem_places (v : Value) (index off : Nat) :
    ⟨index, off, v⟩ ∈ v.places index off := by
  cases v <;> simp [Value.places]

theorem Members.member_mem_places {key : Bytes} {members : Members} {first : Bool}
    {index off : Nat} {p : Place} (h : members.member key first index off = some p) :
    p ∈ members.places first index off := by
  induction members using Members.find.induct key generalizing first index off with
  | case1 => simp [Members.member] at h
  | case2 before beforeColon afterColon value after rest =>
      rw [Members.member, if_pos rfl] at h
      obtain rfl := Option.some.inj h
      exact List.mem_append_left _ (value.self_mem_places _ _)
  | case3 before k beforeColon afterColon value after rest hne ih =>
      rw [Members.member, if_neg hne] at h
      exact List.mem_append_right _ (ih h)

theorem Items.element_mem_places {items : Items} {first : Bool} {index off i : Nat} {p : Place}
    (h : items.element first index off i = some p) : p ∈ items.places first index off := by
  induction items, i using Items.get.induct generalizing first index off with
  | case1 => simp [Items.element] at h
  | case2 before value after rest =>
      obtain rfl := Option.some.inj h
      exact List.mem_append_left _ (value.self_mem_places _ _)
  | case3 before value after rest i ih => exact List.mem_append_right _ (ih h)

def Place.places (p : Place) : List Place := p.value.places p.index p.off

theorem Place.member_mem_places {key : Bytes} {p q : Place} (h : p.member key = some q) :
    q ∈ p.places := by
  obtain ⟨index, off, value⟩ := p
  cases value with
  | obj pad members => exact List.mem_cons_of_mem _ (Members.member_mem_places h)
  | str | prim | arr => cases h

theorem Place.element_mem_places {p q : Place} {i : Nat} (h : p.element i = some q) :
    q ∈ p.places := by
  obtain ⟨index, off, value⟩ := p
  cases value with
  | arr pad items => exact List.mem_cons_of_mem _ (Items.element_mem_places h)
  | str | prim | obj => cases h

end JsonSyntax
