import AtxSys.Lib.JsonSyntax
import AtxSys.Proof.Tokenizer

/-!
# The tokens of a document

On a document the tokens are the nodes of its tree in preorder, with the number of children beside
each: `jsmnParse_document`. The proof follows the tree; what `toksuper` is between two siblings is
where it is delicate, since a leaf leaves it on the key before it and a container moves it to the
container around.
-/

namespace AtxSys

open CText FlatForest JsonSyntax Slices

/-! ### The text that is left

The tokenizer goes by position and a document is a list of bytes: `js.drop pos` is what is left of
the text at `pos`. -/

section Left

variable {js rest : Bytes} {pos : Nat} {c : UInt8}

theorem peek_of_left (hleft : js.drop pos = c :: rest) (hc : c ≠ 0) : peek js pos = some c := by
  rw [peek, getElem?_of_left hleft]
  simp [hc]

end Left

/-! ### Strings and primitives -/

abbrev InPrimitive (c : UInt8) : Prop := endsPrimitive c = false ∧ 32 ≤ c ∧ c < 127

/-- What the tokenizer takes for a string and for a primitive. -/
def jsmnLexicon : Lexicon where
  str := StringBody (· ≠ 0)
  prim text := (∃ c rest, text = c :: rest ∧ startsPrimitive c) ∧ ∀ c ∈ text, InPrimitive c

theorem inPrimitive_digit {c : UInt8} (hlow : 48 ≤ c) (hhigh : c ≤ 57) : InPrimitive c := by
  refine ⟨?_, UInt8.le_trans (by decide) hlow, UInt8.lt_of_le_of_lt hhigh (by decide)⟩
  rw [Bool.eq_false_iff]
  intro hends
  simp only [endsPrimitive, isWhitespace, Bool.or_eq_true, beq_iff_eq] at hends
  rcases hends with (((((rfl | rfl) | rfl) | rfl) | rfl) | rfl) | rfl
  iterate 5 exact absurd hlow (by decide)
  iterate 2 exact absurd hhigh (by decide)

theorem inPrimitive_number {text : Bytes} (h : Number text) : ∀ c ∈ text, InPrimitive c := by
  have hdigits : ∀ ds, Digits ds → ∀ c ∈ ds, InPrimitive c := fun ds hds c hc =>
    inPrimitive_digit (hds.2 c hc).1 (hds.2 c hc).2
  obtain ⟨hsign, hint, -, hfrac, hexp⟩ := h
  intro c hc
  rcases List.mem_append.mp hc with hc | hc
  · rcases List.mem_append.mp hc with hc | hc
    · rcases List.mem_append.mp hc with hc | hc
      · rcases hsign with rfl | rfl
        · cases hc
        · obtain rfl := List.mem_singleton.mp hc
          decide
      · exact hdigits _ hint c hc
    · rcases hfrac with rfl | ⟨ds, hds, rfl⟩
      · cases hc
      · rcases List.mem_cons.mp hc with rfl | hc
        · decide
        · exact hdigits ds hds c hc
  · rcases hexp with rfl | ⟨e, esign, ds, he, hesign, hds, rfl⟩
    · cases hc
    · rcases List.mem_cons.mp hc with rfl | hc
      · rcases he with rfl | rfl <;> decide
      · rcases List.mem_append.mp hc with hc | hc
        · rcases hesign with rfl | rfl | rfl
          · cases hc
          · obtain rfl := List.mem_singleton.mp hc
            decide
          · obtain rfl := List.mem_singleton.mp hc
            decide
        · exact hdigits ds hds c hc

theorem startsPrimitive_number {text : Bytes} (h : Number text) :
    ∃ c rest, text = c :: rest ∧ startsPrimitive c := by
  obtain ⟨hsign, hint, -, -, -⟩ := h
  rcases hsign with rfl | rfl
  · rename_i int frac exp
    obtain ⟨hne, hdigit⟩ := hint
    obtain ⟨d, ds, rfl⟩ := List.exists_cons_of_ne_nil hne
    refine ⟨d, ds ++ frac ++ exp, by simp, ?_⟩
    obtain ⟨hlow, hhigh⟩ := hdigit d (by simp)
    simp [startsPrimitive, hlow, hhigh]
  · exact ⟨0x2D, _, rfl, rfl⟩

theorem inPrimitive_all {text : Bytes} (h : text.all (fun c => decide (InPrimitive c)) = true) :
    ∀ c ∈ text, InPrimitive c := by
  simpa using h

theorem json_within_jsmnLexicon : json.Within jsmnLexicon where
  str s hs := StringBody.mono (fun c hc => by rintro rfl; exact absurd hc (by decide)) hs
  prim s hs := by
    rcases hs with rfl | rfl | rfl | hnumber
    · exact ⟨⟨_, _, rfl, by decide⟩, inPrimitive_all (by decide)⟩
    · exact ⟨⟨_, _, rfl, by decide⟩, inPrimitive_all (by decide)⟩
    · exact ⟨⟨_, _, rfl, by decide⟩, inPrimitive_all (by decide)⟩
    · exact ⟨startsPrimitive_number hnumber, inPrimitive_number hnumber⟩

theorem isSimpleEscape_iff {c : UInt8} : isSimpleEscape c = true ↔ c ∈ escapes := by
  simp [isSimpleEscape, escapes, or_assoc]
  tauto

theorem isHexDigit_iff {c : UInt8} : isHexDigit c = true ↔ IsHex c := by
  simp [isHexDigit, IsHex, or_assoc]

section Scan

variable {js rest : Bytes} {pos fuel : Nat}

theorem scanEscape_simple {c : UInt8} (hc : c ∈ escapes) (hleft : js.drop pos = c :: rest) :
    scanEscape js pos = .ok pos := by
  rw [scanEscape, getElem?_of_left hleft]
  simp [isSimpleEscape_iff.mpr hc]

theorem scanHex_digit {i : Nat} {c : UInt8} (hc : IsHex c) (hleft : js.drop pos = c :: rest) :
    scanHex js (i + 1) pos = scanHex js i (pos + 1) := by
  have hne : c ≠ 0 := by
    rintro rfl
    revert hc
    simp [IsHex]
  rw [scanHex, peek_of_left hleft hne]
  simp [isHexDigit_iff.mpr hc]

theorem scanEscape_unicode {a b c d : UInt8} (ha : IsHex a) (hb : IsHex b) (hc : IsHex c)
    (hd : IsHex d) (hleft : js.drop pos = 0x75 :: a :: b :: c :: d :: rest) :
    scanEscape js pos = .ok (pos + 4) := by
  have h1 := left_cons hleft
  have h2 := left_cons h1
  have h3 := left_cons h2
  have h4 := left_cons h3
  have hhex : scanHex js 4 (pos + 1) = .ok (pos + 5) := by
    rw [scanHex_digit ha h1, scanHex_digit hb h2, scanHex_digit hc h3, scanHex_digit hd h4]
    rfl
  rw [scanEscape, getElem?_of_left hleft]
  simp [show isSimpleEscape 0x75 = false from rfl, hhex, bind, Except.bind]

theorem scanString_body {body : Bytes} (hbody : jsmnLexicon.str body)
    (hleft : js.drop pos = body ++ quote :: rest) (hfuel : body.length < fuel) :
    scanString js fuel pos = .ok (pos + body.length) := by
  change StringBody (· ≠ 0) body at hbody
  induction hbody generalizing pos fuel with
  | nil =>
      obtain ⟨fuel, rfl⟩ : ∃ f, fuel = f + 1 := ⟨fuel - 1, by simp at hfuel; omega⟩
      rw [scanString, peek_of_left hleft (by decide)]
      simp
  | @plain c s hplain hquote hbackslash _ ih =>
      obtain ⟨fuel, rfl⟩ : ∃ f, fuel = f + 1 := ⟨fuel - 1, by simp at hfuel; omega⟩
      rw [scanString, peek_of_left hleft hplain]
      simp only [hquote, if_false, hbackslash, false_and]
      rw [ih (left_cons hleft) (by simpa using hfuel)]
      simp only [List.length_cons]
      congr 1
      omega
  | @escape c s hescape _ ih =>
      simp only [List.length_cons] at hfuel
      obtain ⟨fuel, rfl⟩ : ∃ f, fuel = f + 1 := ⟨fuel - 1, by omega⟩
      have hnext := left_cons hleft
      have hlen := length_of_left hnext
      rw [scanString, peek_of_left hleft (by decide)]
      simp only [show backslash ≠ quote by decide, if_false, true_and]
      rw [if_pos (by omega), scanEscape_simple hescape hnext]
      simp only [bind, Except.bind]
      rw [ih (left_cons hnext) (by omega)]
      simp only [List.length_cons]
      congr 1
      omega
  | @unicode a b c d s ha hb hc hd _ ih =>
      simp only [List.length_cons] at hfuel
      obtain ⟨fuel, rfl⟩ : ∃ f, fuel = f + 1 := ⟨fuel - 1, by omega⟩
      have hnext := left_cons hleft
      have hlen := length_of_left hnext
      have hafter : js.drop (pos + 1 + 4 + 1) = s ++ quote :: rest :=
        left_append (s := [backslash, 0x75, a, b, c, d]) hleft
      rw [scanString, peek_of_left hleft (by decide)]
      simp only [show backslash ≠ quote by decide, if_false, true_and]
      rw [if_pos (by omega), scanEscape_unicode ha hb hc hd hnext]
      simp only [bind, Except.bind]
      rw [ih hafter (by omega)]
      simp only [List.length_cons]
      congr 1
      omega

/-- What follows a primitive: a byte that ends it. -/
def Delimited (rest : Bytes) : Prop := ∃ c rest', rest = c :: rest' ∧ endsPrimitive c

theorem scanPrimitive_text {text : Bytes}
    (htext : ∀ c ∈ text, InPrimitive c)
    (hleft : js.drop pos = text ++ rest) (hrest : Delimited rest) (hfuel : text.length < fuel) :
    scanPrimitive js fuel pos = .ok (pos + text.length) := by
  induction text generalizing pos fuel with
  | nil =>
      obtain ⟨fuel, rfl⟩ : ∃ f, fuel = f + 1 := ⟨fuel - 1, by simp at hfuel; omega⟩
      obtain ⟨c, rest', rfl, hends⟩ := hrest
      have hne : c ≠ 0 := by
        rintro rfl
        exact absurd hends (by decide)
      rw [scanPrimitive, peek_of_left hleft hne]
      simp [hends]
  | cons c text ih =>
      obtain ⟨fuel, rfl⟩ : ∃ f, fuel = f + 1 := ⟨fuel - 1, by simp at hfuel; omega⟩
      obtain ⟨hends, hlow, hhigh⟩ := htext c (by simp)
      have hne : c ≠ 0 := by
        rintro rfl
        exact absurd hlow (by decide)
      rw [scanPrimitive, peek_of_left hleft hne]
      have hrange : ¬ (c < 32 ∨ 127 ≤ c) := by
        simp only [not_or, UInt8.not_lt, UInt8.not_le]
        exact ⟨hlow, hhigh⟩
      simp only [hends, Bool.false_eq_true, if_false, if_neg hrange]
      rw [ih (fun d hd => htext d (by simp [hd])) (left_cons hleft) (by simpa using hfuel)]
      simp only [List.length_cons]
      congr 1
      omega

end Scan

/-! ### Runs of the main loop -/

/-- Iterations of the main loop that lead from one parser state to another. -/
inductive JsmnRun (js : Bytes) (numTokens : Nat) : JsmnParser → JsmnParser → Prop where
  | refl (p : JsmnParser) : JsmnRun js numTokens p p
  | step {p q r : JsmnParser} {c : UInt8} (hpeek : peek js p.pos = some c)
      (hstep : jsmnStep js numTokens c p = .ok q)
      (rest : JsmnRun js numTokens { q with pos := q.pos + 1 } r) : JsmnRun js numTokens p r

theorem JsmnMove.pos_lt {js : Bytes} {numTokens : Nat} {p p' : JsmnParser}
    (h : JsmnMove js numTokens p p') : p.pos < p'.pos := by
  cases h with
  | leaf hroom hpos => exact hpos
  | skip | opened | closed | colon | comma => exact Nat.lt_succ_self p.pos

section Run

variable {js : Bytes} {numTokens : Nat} {p q r : JsmnParser}

theorem JsmnRun.trans (h : JsmnRun js numTokens p q) (h' : JsmnRun js numTokens q r) :
    JsmnRun js numTokens p r := by
  induction h with
  | refl => exact h'
  | step hpeek hstep _ ih => exact .step hpeek hstep (ih h')

theorem JsmnRun.one {c : UInt8} {rest : Bytes} (hleft : js.drop p.pos = c :: rest) (hc : c ≠ 0)
    (hstep : jsmnStep js numTokens c p = .ok q) :
    JsmnRun js numTokens p { q with pos := q.pos + 1 } :=
  .step (peek_of_left hleft hc) hstep (.refl _)

/-- The fuel of the loop is enough for any run to the end of the text. -/
theorem JsmnRun.loop (h : JsmnRun js numTokens p q) (hspine : p.Spine)
    (hend : peek js q.pos = none) {fuel : Nat} (hfuel : js.length ≤ p.pos + fuel) :
    jsmnLoop js numTokens fuel p = .ok q := by
  induction h generalizing fuel with
  | refl q => cases fuel <;> simp [jsmnLoop, hend]
  | step hpeek hstep _ ih =>
      have hpos := (peek_lt hpeek).1
      obtain ⟨fuel, rfl⟩ : ∃ f, fuel = f + 1 := ⟨fuel - 1, by omega⟩
      have hmove := jsmnStep_move hspine.superIn hpeek hstep
      have hlt := hmove.pos_lt
      rw [jsmnLoop, hpeek]
      simp only [hstep, bind, Except.bind]
      exact ih (hmove.spine hspine) hend (by simp only at hlt ⊢; omega)

/-! Steps on the bytes of a document. -/

theorem isWhitespace_iff {c : UInt8} :
    isWhitespace c = true ↔ c ∈ [tab, newline, carriageReturn, space] := by
  simp only [isWhitespace, Bool.or_eq_true, beq_iff_eq, List.mem_cons, List.not_mem_nil, or_false]
  tauto

theorem jsmnStep_blank {c : UInt8} (hc : isWhitespace c = true) :
    jsmnStep js numTokens c p = .ok p := by
  rw [isWhitespace_iff] at hc
  simp only [List.mem_cons, List.not_mem_nil, or_false] at hc
  rcases hc with rfl | rfl | rfl | rfl <;> rfl

theorem jsmnStep_primitive {c : UInt8} (hc : startsPrimitive c = true) :
    jsmnStep js numTokens c p =
      if (p.toksuper.bind (p.toks[·]?)).any rejectsPrimitive then .error .inval
      else countToken <$> jsmnParsePrimitive js numTokens p := by
  have hne : ∀ d, startsPrimitive d = false → c ≠ d := by
    rintro d hd rfl
    rw [hc] at hd
    cases hd
  have hblank : isWhitespace c = false := by
    have hends := not_endsPrimitive hc
    simp only [endsPrimitive, Bool.or_eq_false_iff] at hends
    exact hends.1.1.1
  unfold jsmnStep
  simp only [hne lbrace rfl, hne lbracket rfl, hne rbrace rfl, hne rbracket rfl, hne quote rfl,
    hne colon rfl, hne comma rfl, hblank, hc, if_false, if_true, Bool.false_eq_true]

theorem JsmnRun.blank {s rest : Bytes} (hblank : Blank s) (hleft : js.drop p.pos = s ++ rest) :
    JsmnRun js numTokens p { p with pos := p.pos + s.length } := by
  induction s generalizing p with
  | nil => exact .refl p
  | cons c s ih =>
      have hc := isWhitespace_iff.mpr (hblank c (by simp))
      have hne : c ≠ 0 := by
        rintro rfl
        exact absurd hc (by decide)
      have hrest := ih (p := { p with pos := p.pos + 1 }) (fun d hd => hblank d (by simp [hd]))
        (left_cons hleft)
      have hpos : p.pos + (c :: s).length = p.pos + 1 + s.length := by
        simp only [List.length_cons]
        omega
      rw [hpos]
      exact (JsmnRun.one hleft hne (jsmnStep_blank hc)).trans hrest

end Run

/-! ### The tokens of a tree -/

mutual

/-- The tokens of a value whose text starts at `off`. -/
def valueToks : Value → Nat → List JsmnTok
  | .str body, off => [⟨.string, (off + 1 : Nat), (off + 1 + body.length : Nat), 0⟩]
  | .prim text, off => [⟨.primitive, off, (off + text.length : Nat), 0⟩]
  | .arr pad items, off =>
    ⟨.array, off, (off + (Value.arr pad items).text.length : Nat), items.length⟩ ::
      itemsToks items true (off + 1 + pad.length)
  | .obj pad members, off =>
    ⟨.object, off, (off + (Value.obj pad members).text.length : Nat), members.length⟩ ::
      membersToks members true (off + 1 + pad.length)

def itemsToks : Items → Bool → Nat → List JsmnTok
  | .nil, _, _ => []
  | .cons before value after rest, first, off =>
    valueToks value (off + (separator first ++ before).length) ++
      itemsToks rest false (off + (separator first ++ before ++ value.text ++ after).length)

def membersToks : Members → Bool → Nat → List JsmnTok
  | .nil, _, _ => []
  | .cons before key beforeColon afterColon value after rest, first, off =>
    let keyOff := off + (separator first ++ before).length
    let valueOff := off + valueOff first before key beforeColon afterColon
    ⟨.string, (keyOff + 1 : Nat), (keyOff + 1 + key.length : Nat), 1⟩ ::
      valueToks value valueOff ++ membersToks rest false (valueOff + (value.text ++ after).length)

end

mutual

theorem valueToks_length : ∀ (v : Value) (off : Nat), (valueToks v off).length = v.count
  | .str _, _ | .prim _, _ => rfl
  | .arr pad items, off => by
      rw [valueToks, Value.count, List.length_cons, itemsToks_length]
  | .obj pad members, off => by
      rw [valueToks, Value.count, List.length_cons, membersToks_length]

theorem itemsToks_length :
    ∀ (items : Items) (first : Bool) (off : Nat), (itemsToks items first off).length = items.count
  | .nil, _, _ => rfl
  | .cons before value after rest, first, off => by
      rw [itemsToks, Items.count, List.length_append, valueToks_length, itemsToks_length]

theorem membersToks_length :
    ∀ (members : Members) (first : Bool) (off : Nat),
      (membersToks members first off).length = members.count
  | .nil, _, _ => rfl
  | .cons before key beforeColon afterColon value after rest, first, off => by
      simp only [membersToks, Members.count, List.length_append, List.length_cons,
        valueToks_length value, membersToks_length rest]

end

theorem isOpen_closed (type : JsmnType) (start stop size : Nat) :
    JsmnTok.isOpen ⟨type, start, stop, size⟩ = false := by
  have hstop : (stop : Int) ≠ -1 := by omega
  simp [JsmnTok.isOpen, hstop]

mutual

theorem valueToks_closed : ∀ (v : Value) (off : Nat), ∀ t ∈ valueToks v off, t.isOpen = false
  | .str _, _, t, ht | .prim _, _, t, ht => by
      obtain rfl := List.mem_singleton.mp ht
      exact isOpen_closed _ _ _ _
  | .arr pad items, off, t, ht => by
      rcases List.mem_cons.mp ht with rfl | ht
      · exact isOpen_closed _ _ _ _
      · exact itemsToks_closed items true _ t ht
  | .obj pad members, off, t, ht => by
      rcases List.mem_cons.mp ht with rfl | ht
      · exact isOpen_closed _ _ _ _
      · exact membersToks_closed members true _ t ht

theorem itemsToks_closed : ∀ (items : Items) (first : Bool) (off : Nat),
    ∀ t ∈ itemsToks items first off, t.isOpen = false
  | .nil, _, _, _, ht => by cases ht
  | .cons before value after rest, first, off, t, ht => by
      rcases List.mem_append.mp ht with ht | ht
      · exact valueToks_closed value _ t ht
      · exact itemsToks_closed rest false _ t ht

theorem membersToks_closed : ∀ (members : Members) (first : Bool) (off : Nat),
    ∀ t ∈ membersToks members first off, t.isOpen = false
  | .nil, _, _, _, ht => by cases ht
  | .cons before key beforeColon afterColon value after rest, first, off, t, ht => by
      rcases List.mem_append.mp ht with ht | ht
      · rcases List.mem_cons.mp ht with rfl | ht
        · exact isOpen_closed _ _ _ _
        · exact valueToks_closed value _ t ht
      · exact membersToks_closed rest false _ t ht

end

/-! ### Closing and continuing a container -/

def innermost (toks : List JsmnTok) : Option Nat := searchDown JsmnTok.isOpen toks toks.length

theorem searchDown_congr {found : JsmnTok → Bool} {toks toks' : List JsmnTok} {n : Nat}
    (h : ∀ i, i < n → (toks[i]?).any found = (toks'[i]?).any found) :
    searchDown found toks n = searchDown found toks' n := by
  induction n with
  | zero => rfl
  | succ n ih =>
      rw [searchDown, searchDown, h n (Nat.lt_succ_self n), ih fun i hi => h i (by omega)]

theorem searchDown_append_cons {found : JsmnTok → Bool} (A : List JsmnTok) {t : JsmnTok}
    {B : List JsmnTok} (ht : found t = true) (hB : ∀ u ∈ B, found u = false) :
    searchDown found (A ++ t :: B) (A ++ t :: B).length = some A.length := by
  have hget : (A ++ t :: B)[A.length]? = some t := by simp
  obtain ⟨i, hi, hle⟩ := searchDown_ge (n := (A ++ t :: B).length) (by simp) hget ht
  obtain ⟨_, ⟨u, hu, hfound⟩, _⟩ := searchDown_eq_some hi
  rw [hi]
  by_contra hne
  obtain ⟨j, rfl⟩ : ∃ j, i = A.length + (j + 1) :=
    ⟨i - A.length - 1, by have : i ≠ A.length := fun h => hne (by rw [h]); omega⟩
  have huB : u ∈ B := by
    rw [List.getElem?_append_right (by omega), Nat.add_sub_cancel_left,
      List.getElem?_cons_succ] at hu
    exact List.mem_of_getElem? hu
  simp [hB u huB] at hfound

theorem any_isOpen_bumpSuper (toksuper : Option Nat) (toks : List JsmnTok) (i : Nat) :
    ((bumpSuper toksuper toks)[i]?).any JsmnTok.isOpen = (toks[i]?).any JsmnTok.isOpen := by
  cases toksuper with
  | none => rfl
  | some s =>
      by_cases hi : s = i <;> cases htok : toks[i]? <;>
        simp [bumpSuper, hi, htok, JsmnTok.isOpen, JsmnTok.bump]

theorem innermost_bumpSuper (toksuper : Option Nat) (toks : List JsmnTok) :
    innermost (bumpSuper toksuper toks) = innermost toks := by
  unfold innermost
  rw [bumpSuper_length]
  exact searchDown_congr fun i _ => any_isOpen_bumpSuper toksuper toks i

/-- The parser stands in the container `t`: the tokens after `t` are closed. -/
structure Inside (type : JsmnType) (A : List JsmnTok) (t : JsmnTok) (B : List JsmnTok)
    (p : JsmnParser) : Prop where
  toks : p.toks = A ++ t :: B
  type : t.type = type
  opened : t.isOpen = true
  closed : ∀ u ∈ B, u.isOpen = false

section Inside

variable {type : JsmnType} {A B : List JsmnTok} {t : JsmnTok} {p : JsmnParser}

theorem Inside.innermost (h : Inside type A t B p) : innermost p.toks = some A.length := by
  rw [AtxSys.innermost, h.toks]
  exact searchDown_append_cons A h.opened h.closed

theorem Inside.bumpSuper (h : Inside type A t B p) :
    bumpSuper (some A.length) p.toks = A ++ t.bump :: B := by
  rw [AtxSys.bumpSuper, h.toks]
  exact modify_append_cons A t B JsmnTok.bump

theorem closeContainer_inside (h : Inside type A t B p) :
    closeContainer type p = .ok { p with
      toks := A ++ { t with stop := p.pos + 1 } :: B
      toksuper := innermost A } := by
  have hfound : searchDown JsmnTok.isOpen p.toks p.toknext = some A.length := h.innermost
  have hget : p.toks[A.length]? = some t := by simp [h.toks]
  have hstop : (p.pos : Int) + 1 ≠ -1 := by omega
  have hsuper : searchDown JsmnTok.isOpen (A ++ { t with stop := (p.pos : Int) + 1 } :: B)
      (A.length + 1) = innermost A := by
    rw [searchDown, if_neg (by simp [JsmnTok.isOpen, hstop])]
    apply searchDown_congr
    intro i hi
    rw [List.getElem?_append_left hi]
  obtain rfl := h.type
  unfold closeContainer
  simp only [hfound, hget, Option.any_some, bne_self_eq_false, Bool.false_eq_true, if_false]
  rw [h.toks, modify_append_cons, hsuper]

/-- Between two entries the superior token is the container, or the key of the last entry. -/
def Resumes (A : List JsmnTok) (p : JsmnParser) : Prop :=
  p.toksuper = some A.length ∨
    ∃ j u, p.toksuper = some j ∧ p.toks[j]? = some u ∧ u.isContainer = false

theorem afterComma_inside (h : Inside type A t B p) (htype : type = .object ∨ type = .array)
    (hresumes : Resumes A p) : afterComma p = { p with toksuper := some A.length } := by
  have hcontainer : t.isContainer = true := by
    rcases htype with rfl | rfl <;> simp [JsmnTok.isContainer, h.type]
  have hget : p.toks[A.length]? = some t := by simp [h.toks]
  unfold afterComma
  rcases hresumes with hsuper | ⟨j, u, hsuper, hu, hnot⟩
  · rw [if_neg (by simp [hsuper, hget, hcontainer]), ← hsuper]
  · have hfound : searchDown (fun t => t.isContainer && t.isOpen) p.toks p.toknext
        = some A.length := by
      rw [JsmnParser.toknext, h.toks]
      apply searchDown_append_cons A (by simp [hcontainer, h.opened])
      intro w hw
      simp [h.closed w hw]
    simp [hsuper, hu, hnot, hfound]

end Inside

/-! ### The tree is tokenized -/

/-- The superior token takes a value: it is an array, or a key that has none yet. -/
def TakesValue (p : JsmnParser) : Prop :=
  ∀ s u, p.toksuper = some s → p.toks[s]? = some u →
    u.type = .array ∨ u.type = .string ∧ u.size = 0

/-- A leaf leaves the superior token, and a container moves it to the container around. -/
def superAfter (p : JsmnParser) : Value → Option Nat
  | .str _ | .prim _ => p.toksuper
  | .arr _ _ | .obj _ _ => innermost p.toks

def JsmnParser.after (p : JsmnParser) (v : Value) : JsmnParser where
  pos := p.pos + v.text.length
  toks := bumpSuper p.toksuper p.toks ++ valueToks v p.pos
  toksuper := superAfter p v
  count := p.count + v.count

def JsmnParser.afterItems (p : JsmnParser) (A : List JsmnTok) (t : JsmnTok) (B : List JsmnTok)
    (items : Items) (first : Bool) : JsmnParser where
  pos := p.pos + (items.text first).length
  toks := A ++ { t with size := t.size + items.length } :: (B ++ itemsToks items first p.pos)
  toksuper := some A.length
  count := p.count + items.count

def JsmnParser.afterMembers (p : JsmnParser) (A : List JsmnTok) (t : JsmnTok) (B : List JsmnTok)
    (members : Members) (first : Bool) (s : Option Nat) : JsmnParser where
  pos := p.pos + (members.text first).length
  toks := A ++ { t with size := t.size + members.length } :: (B ++ membersToks members first p.pos)
  toksuper := s
  count := p.count + members.count

section Tree

variable {js rest : Bytes} {numTokens : Nat} {p : JsmnParser}

theorem TakesValue.any (h : TakesValue p) {f : JsmnTok → Bool}
    (hf : ∀ u : JsmnTok, (u.type = .array ∨ u.type = .string ∧ u.size = 0) → f u = false) :
    (p.toksuper.bind (p.toks[·]?)).any f = false := by
  cases hsuper : p.toksuper with
  | none => rfl
  | some s =>
      cases hu : p.toks[s]? with
      | none => simp [hu]
      | some u => simp [hu, hf u (h s u hsuper hu)]

theorem string_run {body : Bytes} (hbody : jsmnLexicon.str body) (hsuper : p.SuperIn)
    (hroom : p.toknext < numTokens) (hleft : js.drop p.pos = quoted body ++ rest) :
    JsmnRun js numTokens p { p.push
      ⟨.string, (p.pos + 1 : Nat), (p.pos + 1 + body.length : Nat), 0⟩ with
      pos := p.pos + (quoted body).length } := by
  have hleft' : js.drop p.pos = quote :: (body ++ quote :: rest) := by
    simpa [quoted] using hleft
  have hscan : scanString js (js.length + 1) (p.pos + 1) = .ok (p.pos + 1 + body.length) := by
    apply scanString_body hbody (left_cons hleft')
    have hlen := length_of_left hleft'
    simp only [List.length_append] at hlen
    omega
  have hstep : jsmnStep js numTokens quote p = .ok { p.push
      ⟨.string, (p.pos + 1 : Nat), (p.pos + 1 + body.length : Nat), 0⟩ with
      pos := p.pos + 1 + body.length } := by
    change countToken <$> jsmnParseString js numTokens p = _
    rw [jsmnParseString_eq hsuper, hscan]
    exact if_neg (by omega)
  have hpos : p.pos + (quoted body).length = p.pos + 1 + body.length + 1 := by
    simp only [quoted, List.length_cons, List.length_append, List.length_nil]
    omega
  rw [hpos]
  exact JsmnRun.one hleft' (by decide) hstep

theorem primitive_run {text : Bytes} (htext : jsmnLexicon.prim text) (hsuper : p.SuperIn)
    (htakes : TakesValue p) (hroom : p.toknext < numTokens)
    (hleft : js.drop p.pos = text ++ rest) (hrest : Delimited rest) :
    JsmnRun js numTokens p { p.push ⟨.primitive, p.pos, (p.pos + text.length : Nat), 0⟩ with
      pos := p.pos + text.length } := by
  obtain ⟨⟨c, text', rfl, hstarts⟩, hchars⟩ := htext
  have hscan : scanPrimitive js (js.length + 1) p.pos = .ok (p.pos + (c :: text').length) := by
    apply scanPrimitive_text hchars hleft hrest
    have hlen := length_of_left hleft
    simp only [List.append_eq, List.length_append] at hlen
    simp only [List.length_cons]
    omega
  have hrejects : (p.toksuper.bind (p.toks[·]?)).any rejectsPrimitive = false := by
    apply htakes.any
    intro u hu
    rcases hu with htype | ⟨htype, hsize⟩ <;> simp [rejectsPrimitive, *]
  have hstep : jsmnStep js numTokens c p = .ok { p.push
      ⟨.primitive, p.pos, (p.pos + (c :: text').length : Nat), 0⟩ with
      pos := p.pos + (c :: text').length - 1 } := by
    rw [jsmnStep_primitive hstarts, hrejects, if_neg Bool.false_ne_true,
      jsmnParsePrimitive_eq hsuper, hscan]
    exact if_neg (by omega)
  have hne : c ≠ 0 := by
    rintro rfl
    exact absurd hstarts (by decide)
  exact JsmnRun.one hleft hne hstep

theorem container_run {type : JsmnType} (o c : UInt8) {pad inner : Bytes} {size n : Nat}
    (kids : Nat → List JsmnTok)
    (hopen : ∀ q, jsmnStep js numTokens o q = openContainer numTokens type q)
    (hclose : ∀ q, jsmnStep js numTokens c q = closeContainer type q) (ho : o ≠ 0) (hc : c ≠ 0)
    (hsuper : p.SuperIn) (htakes : TakesValue p) (hroom : p.toknext < numTokens)
    (hpad : Blank pad) (hleft : js.drop p.pos = o :: (pad ++ (inner ++ c :: rest)))
    (hkids : ∀ off, ∀ u ∈ kids off, u.isOpen = false)
    (hinner : ∀ q A t, js.drop q.pos = inner ++ c :: rest → Inside type A t [] q →
      q.toksuper = some A.length → q.toknext = p.toknext + 1 → t.size = 0 →
      ∃ s, JsmnRun js numTokens q
        { pos := q.pos + inner.length, toks := A ++ { t with size := size } :: kids q.pos,
          toksuper := s, count := q.count + n }) :
    JsmnRun js numTokens p
      { pos := p.pos + (pad.length + inner.length + 2),
        toks := bumpSuper p.toksuper p.toks ++
          ⟨type, p.pos, (p.pos + (pad.length + inner.length + 2) : Nat), size⟩ ::
            kids (p.pos + 1 + pad.length),
        toksuper := innermost p.toks, count := p.count + (n + 1) } := by
  have hstart : (p.pos : Int) ≠ -1 := by omega
  have hany : (p.toksuper.bind (p.toks[·]?)).any (·.type == .object) = false := by
    apply htakes.any
    intro u hu
    rcases hu with h | ⟨h, _⟩ <;> simp [h]
  -- the opening bracket and the blanks after it
  let top : JsmnTok := { type, start := p.pos, stop := -1, size := 0 }
  let inside (pos : Nat) : JsmnParser :=
    { p.push top with toksuper := some p.toknext, pos }
  have hopened : openContainer numTokens type p = .ok (inside p.pos) := by
    rw [openContainer_eq hsuper, if_neg (by omega), hany]
    rfl
  have hinside : Inside type (bumpSuper p.toksuper p.toks) top []
      (inside (p.pos + 1 + pad.length)) :=
    ⟨rfl, rfl, by simp [JsmnTok.isOpen, top, hstart], by simp⟩
  have hfirst : JsmnRun js numTokens p (inside (p.pos + 1)) :=
    JsmnRun.one hleft ho ((hopen p).trans hopened)
  have hblank : JsmnRun js numTokens (inside (p.pos + 1)) (inside (p.pos + 1 + pad.length)) :=
    JsmnRun.blank hpad (left_cons hleft)
  -- what stands between the brackets
  obtain ⟨s, hrun⟩ := hinner _ _ top (left_append (left_cons hleft)) hinside
    (by simp [inside]) push_toknext rfl
  -- the closing bracket
  let last : JsmnParser :=
    { pos := p.pos + 1 + pad.length + inner.length
      toks := bumpSuper p.toksuper p.toks ++
        { top with size := size } :: kids (p.pos + 1 + pad.length)
      toksuper := s
      count := p.count + 1 + n }
  have hlast : Inside type (bumpSuper p.toksuper p.toks) { top with size := size }
      (kids (p.pos + 1 + pad.length)) last :=
    ⟨rfl, rfl, by simp [JsmnTok.isOpen, top, hstart], hkids _⟩
  have hend := JsmnRun.one (left_append (left_append (left_cons hleft))) hc
    ((hclose last).trans (closeContainer_inside hlast))
  have hpos : p.pos + (pad.length + inner.length + 2) =
      p.pos + 1 + pad.length + inner.length + 1 := by omega
  have hcount : p.count + (n + 1) = p.count + 1 + n := by omega
  rw [hpos, hcount, ← innermost_bumpSuper p.toksuper]
  exact ((hfirst.trans hblank).trans hrun).trans hend

theorem Delimited.cons {c : UInt8} (hc : endsPrimitive c = true) : Delimited (c :: rest) :=
  ⟨c, rest, rfl, hc⟩

theorem Delimited.blank_append {s : Bytes} (hs : Blank s) (hrest : Delimited rest) :
    Delimited (s ++ rest) := by
  cases s with
  | nil => exact hrest
  | cons c s =>
      refine .cons ?_
      simp [endsPrimitive, isWhitespace_iff.mpr (hs c (by simp))]

theorem items_delimited (items : Items) (hrest : Delimited rest) :
    Delimited (items.text false ++ rest) := by
  cases items with
  | nil => exact hrest
  | cons => exact .cons rfl

theorem members_delimited (members : Members) (hrest : Delimited rest) :
    Delimited (members.text false ++ rest) := by
  cases members with
  | nil => exact hrest
  | cons => exact .cons rfl

section Entries

variable {A B : List JsmnTok} {t : JsmnTok} {type : JsmnType}

/-- The parser where an entry of the container starts. -/
def JsmnParser.entered (p : JsmnParser) (A : List JsmnTok) (first : Bool) (before : Bytes) :
    JsmnParser :=
  { p with toksuper := some A.length, pos := p.pos + (separator first ++ before).length }

theorem entered_inside {first : Bool} {before : Bytes} (h : Inside type A t B p) :
    Inside type A t B (p.entered A first before) :=
  ⟨h.toks, h.type, h.opened, h.closed⟩

/-- What separates an entry from the one before it makes the container the superior token. -/
theorem entry_run {first : Bool} {before : Bytes} (h : Inside type A t B p)
    (htype : type = .object ∨ type = .array)
    (hfirst : first = true → p.toksuper = some A.length) (hresumes : Resumes A p)
    (hbefore : Blank before) (hleft : js.drop p.pos = separator first ++ (before ++ rest)) :
    JsmnRun js numTokens p (p.entered A first before) := by
  unfold JsmnParser.entered
  cases first with
  | true =>
      rw [← hfirst rfl]
      exact JsmnRun.blank hbefore hleft
  | false =>
      have hcomma : jsmnStep js numTokens comma p = .ok { p with toksuper := some A.length } :=
        congrArg Except.ok (afterComma_inside h htype hresumes)
      have hrun := JsmnRun.one hleft (by decide) hcomma
      have hblank : JsmnRun js numTokens { p with toksuper := some A.length, pos := p.pos + 1 }
          { p with toksuper := some A.length, pos := p.pos + 1 + before.length } :=
        JsmnRun.blank hbefore (left_cons hleft)
      have hpos : p.pos + (separator false ++ before).length = p.pos + 1 + before.length := by
        simp only [separator, Bool.false_eq_true, if_false, List.length_append, List.length_cons,
          List.length_nil]
        omega
      rw [hpos]
      exact hrun.trans hblank

theorem Inside.superIn (h : Inside type A t B p) (hsuper : p.toksuper = some A.length) :
    p.SuperIn := by
  intro s hs
  obtain rfl := Option.some.inj (hsuper.symm.trans hs)
  simp [JsmnParser.toknext, h.toks]

theorem Inside.takesValue (h : Inside .array A t B p) (hsuper : p.toksuper = some A.length) :
    TakesValue p := by
  intro s u hs hu
  obtain rfl := Option.some.inj (hsuper.symm.trans hs)
  simp only [h.toks, List.getElem?_append_right (Nat.le_refl _), Nat.sub_self,
    List.getElem?_cons_zero, Option.some.injEq] at hu
  exact .inl (hu ▸ h.type)

theorem Inside.bump (h : Inside type A t B p) {C : List JsmnTok} {p' : JsmnParser}
    (htoks : p'.toks = A ++ t.bump :: (B ++ C)) (hC : ∀ u ∈ C, u.isOpen = false) :
    Inside type A t.bump (B ++ C) p' := by
  refine ⟨htoks, h.type, h.opened, fun u hu => ?_⟩
  rcases List.mem_append.mp hu with hu | hu
  · exact h.closed u hu
  · exact hC u hu

/-! The key that follows the tokens of a container so far. -/

theorem append_key (A B C : List JsmnTok) (t key : JsmnTok) :
    A ++ t :: (B ++ key :: C) = (A ++ t :: B) ++ key :: C := by
  simp

theorem length_append_key (A B : List JsmnTok) (t : JsmnTok) :
    (A ++ t :: B).length = A.length + 1 + B.length := by
  simp only [List.length_append, List.length_cons]
  omega

theorem getElem?_key (A B C : List JsmnTok) (t key : JsmnTok) :
    (A ++ t :: (B ++ key :: C))[A.length + 1 + B.length]? = some key := by
  rw [append_key, ← length_append_key A B t]
  simp

theorem bumpSuper_key (A B C : List JsmnTok) (t key : JsmnTok) :
    bumpSuper (some (A.length + 1 + B.length)) (A ++ t :: (B ++ key :: C)) =
      A ++ t :: (B ++ key.bump :: C) := by
  rw [append_key, append_key, bumpSuper, ← length_append_key A B t, modify_append_cons]

theorem key_run {key beforeColon afterColon : Bytes} (h : Inside .object A t B p)
    (hsuper : p.toksuper = some A.length) (hkey : jsmnLexicon.str key)
    (hbeforeColon : Blank beforeColon) (hafterColon : Blank afterColon)
    (hroom : p.toknext < numTokens)
    (hleft : js.drop p.pos = (quoted key ++ beforeColon ++ colon :: afterColon) ++ rest) :
    JsmnRun js numTokens p
      { pos := p.pos + (quoted key ++ beforeColon ++ colon :: afterColon).length
        toks := A ++ t.bump ::
          (B ++ [⟨.string, (p.pos + 1 : Nat), (p.pos + 1 + key.length : Nat), 0⟩])
        toksuper := some (A.length + 1 + B.length)
        count := p.count + 1 } := by
  have hkeyLeft : js.drop p.pos =
      quoted key ++ (beforeColon ++ colon :: (afterColon ++ rest)) := by
    simpa only [List.append_assoc, List.cons_append] using hleft
  have hstring := string_run hkey (h.superIn hsuper) hroom hkeyLeft
  let keyed (pos : Nat) (toksuper : Option Nat) : JsmnParser :=
    { pos
      toks := A ++ t.bump ::
        (B ++ [⟨.string, (p.pos + 1 : Nat), (p.pos + 1 + key.length : Nat), 0⟩])
      toksuper
      count := p.count + 1 }
  have hpushed : ({ p.push ⟨.string, (p.pos + 1 : Nat), (p.pos + 1 + key.length : Nat), 0⟩ with
      pos := p.pos + (quoted key).length } : JsmnParser) =
      keyed (p.pos + (quoted key).length) (some A.length) := by
    simp [JsmnParser.push, keyed, hsuper, h.bumpSuper]
  rw [hpushed] at hstring
  have hafterKey := left_append hkeyLeft
  have hblank : JsmnRun js numTokens (keyed (p.pos + (quoted key).length) (some A.length))
      (keyed (p.pos + (quoted key).length + beforeColon.length) (some A.length)) :=
    JsmnRun.blank hbeforeColon hafterKey
  have hlast : ∀ pos toksuper, (keyed pos toksuper).lastTok = some (A.length + 1 + B.length) := by
    intro pos toksuper
    have hlen : (keyed pos toksuper).toknext = A.length + 1 + B.length + 1 := by
      simp only [JsmnParser.toknext, keyed, List.length_append, List.length_cons, List.length_nil]
      omega
    rw [JsmnParser.lastTok, hlen]
    rfl
  have hstep : ∀ q, jsmnStep js numTokens colon q = .ok { q with toksuper := q.lastTok } :=
    fun _ => rfl
  have hcolon := JsmnRun.one (left_append hafterKey) (by decide)
    (hstep (keyed (p.pos + (quoted key).length + beforeColon.length) (some A.length)))
  have hafter : JsmnRun js numTokens
      (keyed (p.pos + (quoted key).length + beforeColon.length + 1)
        (some (A.length + 1 + B.length)))
      (keyed (p.pos + (quoted key).length + beforeColon.length + 1 + afterColon.length)
        (some (A.length + 1 + B.length))) :=
    JsmnRun.blank hafterColon (left_cons (left_append hafterKey))
  have hpos : p.pos + (quoted key ++ beforeColon ++ colon :: afterColon).length =
      p.pos + (quoted key).length + beforeColon.length + 1 + afterColon.length := by
    simp only [List.length_append, List.length_cons]
    omega
  rw [hpos]
  rw [hlast] at hcolon
  exact ((hstring.trans hblank).trans hcolon).trans hafter

end Entries

theorem superAfter_inside {A B : List JsmnTok} {t : JsmnTok} {type : JsmnType}
    (h : Inside type A t B p) (v : Value) :
    superAfter p v = p.toksuper ∨ superAfter p v = some A.length := by
  cases v with
  | str | prim => exact .inl rfl
  | arr | obj => exact .inr h.innermost

section Item

variable {A B : List JsmnTok} {t : JsmnTok} {first : Bool} {before after : Bytes} {value : Value}

/-- The parser behind an element and the blanks after it. -/
def JsmnParser.afterItem (p : JsmnParser) (A : List JsmnTok) (first : Bool) (before : Bytes)
    (value : Value) (after : Bytes) : JsmnParser :=
  let q := (p.entered A first before).after value
  { q with pos := q.pos + after.length }

theorem afterItem_inside {type : JsmnType} (h : Inside type A t B p) :
    Inside type A t.bump (B ++ valueToks value (p.pos + (separator first ++ before).length))
      (p.afterItem A first before value after) := by
  have hentered : Inside type A t B (p.entered A first before) := entered_inside h
  refine h.bump ?_ (valueToks_closed value _)
  change bumpSuper (some A.length) (p.entered A first before).toks ++ _ = _
  rw [hentered.bumpSuper, List.append_assoc, List.cons_append]
  rfl

theorem afterItem_super {type : JsmnType} (h : Inside type A t B p) :
    (p.afterItem A first before value after).toksuper = some A.length :=
  (superAfter_inside (entered_inside h) value).elim id id

theorem afterItem_toknext :
    (p.afterItem A first before value after).toknext = p.toknext + value.count := by
  simp [JsmnParser.toknext, JsmnParser.afterItem, JsmnParser.after, JsmnParser.entered,
    valueToks_length]

/-- The elements behind an element are those of the tail, from where it ends. -/
theorem afterItems_cons (items : Items) :
    p.afterItems A t B (.cons before value after items) first =
      (p.afterItem A first before value after).afterItems A t.bump
        (B ++ valueToks value (p.pos + (separator first ++ before).length)) items false := by
  have hsize : t.size + (items.length + 1) = t.size + 1 + items.length := by omega
  unfold JsmnParser.afterItems
  congr 1
  · simp only [JsmnParser.afterItem, JsmnParser.after, JsmnParser.entered, Items.text,
      List.length_append]
    omega
  · have hoff : p.pos + (separator first ++ before ++ value.text ++ after).length =
        (p.afterItem A first before value after).pos := by
      simp only [JsmnParser.afterItem, JsmnParser.after, JsmnParser.entered, List.length_append]
      omega
    rw [itemsToks, hoff, Items.length, hsize, List.append_assoc]
    rfl
  · simp only [JsmnParser.afterItem, JsmnParser.after, JsmnParser.entered, Items.count]
    omega

end Item

section Member

variable {A B : List JsmnTok} {t : JsmnTok} {first : Bool}
  {before key beforeColon afterColon : Bytes}

/-- The token of the key of a member whose text starts at `off`, before it has a value. -/
def keyTok (off : Nat) (first : Bool) (before key : Bytes) : JsmnTok :=
  ⟨.string, (off + (separator first ++ before).length + 1 : Nat),
    (off + (separator first ++ before).length + 1 + key.length : Nat), 0⟩

/-- The parser behind the colon of a member. -/
def JsmnParser.keyed (p : JsmnParser) (A : List JsmnTok) (t : JsmnTok) (B : List JsmnTok)
    (first : Bool) (before key beforeColon afterColon : Bytes) : JsmnParser where
  pos := p.pos + valueOff first before key beforeColon afterColon
  toks := A ++ t.bump :: (B ++ [keyTok p.pos first before key])
  toksuper := some (A.length + 1 + B.length)
  count := p.count + 1

/-- The separator, the key and its colon. -/
theorem member_key_run (h : Inside .object A t B p)
    (hfirst : first = true → p.toksuper = some A.length) (hresumes : Resumes A p)
    (hbefore : Blank before) (hkey : jsmnLexicon.str key) (hbeforeColon : Blank beforeColon)
    (hafterColon : Blank afterColon) (hroom : p.toknext < numTokens)
    (hleft : js.drop p.pos = (separator first ++ before) ++
      ((quoted key ++ beforeColon ++ colon :: afterColon) ++ rest)) :
    JsmnRun js numTokens p (p.keyed A t B first before key beforeColon afterColon) := by
  have hentry : JsmnRun js numTokens p (p.entered A first before) :=
    entry_run h (.inl rfl) hfirst hresumes hbefore (hleft.trans (List.append_assoc _ _ _))
  have hkeyRun := key_run (entered_inside h) rfl hkey hbeforeColon hafterColon hroom
    (left_append hleft)
  have hoff : p.pos + valueOff first before key beforeColon afterColon =
      p.pos + (separator first ++ before).length +
        (quoted key ++ beforeColon ++ colon :: afterColon).length := by
    simp only [valueOff, List.length_append, List.length_cons]
    omega
  rw [JsmnParser.keyed, hoff]
  exact hentry.trans hkeyRun

theorem keyed_inside (h : Inside .object A t B p) :
    Inside .object A t.bump (B ++ [keyTok p.pos first before key])
      (p.keyed A t B first before key beforeColon afterColon) :=
  h.bump rfl fun _ hu => List.mem_singleton.mp hu ▸ isOpen_closed _ _ _ _

theorem keyed_superIn : (p.keyed A t B first before key beforeColon afterColon).SuperIn := by
  intro s hs
  obtain rfl := Option.some.inj hs
  exact (List.getElem?_eq_some_iff.mp (getElem?_key A B [] t.bump _)).1

theorem keyed_takesValue :
    TakesValue (p.keyed A t B first before key beforeColon afterColon) := by
  intro s u hs hu
  obtain rfl := Option.some.inj hs
  obtain rfl := Option.some.inj ((getElem?_key A B [] t.bump _).symm.trans hu)
  exact .inr ⟨rfl, rfl⟩

theorem keyed_toknext (h : Inside .object A t B p) :
    (p.keyed A t B first before key beforeColon afterColon).toknext = p.toknext + 1 := by
  simp only [JsmnParser.toknext, JsmnParser.keyed, h.toks, List.length_append, List.length_cons,
    List.length_nil]
  omega

/-- The parser behind a member and the blanks after it. -/
def JsmnParser.afterMember (p : JsmnParser) (A : List JsmnTok) (t : JsmnTok) (B : List JsmnTok)
    (first : Bool) (before key beforeColon afterColon : Bytes) (value : Value) (after : Bytes) :
    JsmnParser :=
  let q := (p.keyed A t B first before key beforeColon afterColon).after value
  { q with pos := q.pos + after.length }

/-- The tokens of a member. -/
def memberToks (off : Nat) (first : Bool) (before key beforeColon afterColon : Bytes)
    (value : Value) : List JsmnTok :=
  (keyTok off first before key).bump ::
    valueToks value (off + valueOff first before key beforeColon afterColon)

variable {value : Value} {after : Bytes}

theorem afterMember_toks :
    (p.afterMember A t B first before key beforeColon afterColon value after).toks =
      A ++ t.bump :: (B ++ memberToks p.pos first before key beforeColon afterColon value) := by
  simp [JsmnParser.afterMember, JsmnParser.after, JsmnParser.keyed, bumpSuper_key, memberToks]

theorem afterMember_inside (h : Inside .object A t B p) :
    Inside .object A t.bump (B ++ memberToks p.pos first before key beforeColon afterColon value)
      (p.afterMember A t B first before key beforeColon afterColon value after) := by
  refine h.bump afterMember_toks fun u hu => ?_
  rcases List.mem_cons.mp hu with rfl | hu
  · exact isOpen_closed _ _ _ _
  · exact valueToks_closed value _ u hu

/-- The superior token is the object again, or still the key. -/
theorem afterMember_resumes (h : Inside .object A t B p) :
    Resumes A (p.afterMember A t B first before key beforeColon afterColon value after) := by
  rcases superAfter_inside (keyed_inside h) value with hs | hs
  · refine .inr ⟨_, (keyTok p.pos first before key).bump, hs, ?_, rfl⟩
    rw [afterMember_toks]
    exact getElem?_key _ _ _ _ _
  · exact .inl hs

theorem afterMember_toknext (h : Inside .object A t B p) :
    (p.afterMember A t B first before key beforeColon afterColon value after).toknext =
      p.toknext + 1 + value.count := by
  have hkeyed : (p.keyed A t B first before key beforeColon afterColon).toknext =
      p.toknext + 1 := keyed_toknext h
  rw [← hkeyed]
  simp [JsmnParser.toknext, JsmnParser.afterMember, JsmnParser.after, valueToks_length]

/-- The members behind a member are those of the tail, from where it ends. -/
theorem afterMembers_cons (members : Members) (s : Option Nat) :
    p.afterMembers A t B (.cons before key beforeColon afterColon value after members) first s =
      (p.afterMember A t B first before key beforeColon afterColon value after).afterMembers A
        t.bump (B ++ memberToks p.pos first before key beforeColon afterColon value) members false
        s := by
  have hsize : t.size + (members.length + 1) = t.size + 1 + members.length := by omega
  unfold JsmnParser.afterMembers
  congr 1
  · simp only [JsmnParser.afterMember, JsmnParser.after, JsmnParser.keyed, Members.text, valueOff,
      List.length_append, List.length_cons]
    omega
  · have hoff : p.pos + valueOff first before key beforeColon afterColon +
        (value.text ++ after).length =
          (p.afterMember A t B first before key beforeColon afterColon value after).pos := by
      rw [List.length_append, ← Nat.add_assoc]
      rfl
    rw [membersToks, hoff, Members.length, hsize]
    simp [memberToks, keyTok, JsmnTok.bump]
  · simp only [JsmnParser.afterMember, JsmnParser.after, JsmnParser.keyed, Members.count]
    omega

end Member

mutual

theorem value_run : ∀ (v : Value) {rest : Bytes} {p : JsmnParser}, v.Lexical jsmnLexicon →
    p.SuperIn → TakesValue p → p.toknext + v.count ≤ numTokens →
    js.drop p.pos = v.text ++ rest → ((∃ text, v = .prim text) → Delimited rest) →
    JsmnRun js numTokens p (p.after v)
  | .str body, rest, p, hlex, hsuper, htakes, hroom, hleft, _ =>
      string_run hlex hsuper hroom hleft
  | .prim text, rest, p, hlex, hsuper, htakes, hroom, hleft, hrest =>
      primitive_run hlex hsuper htakes hroom hleft (hrest ⟨text, rfl⟩)
  | .arr pad items, rest, p, ⟨hpad, hlex⟩, hsuper, htakes, hroom, hleft, _ => by
      rw [Value.count] at hroom
      have hlen : (Value.arr pad items).text.length =
          pad.length + (items.text true).length + 2 := by
        simp only [Value.text, List.length_cons, List.length_append, List.length_nil]
      rw [JsmnParser.after, valueToks, hlen]
      refine container_run lbracket rbracket (itemsToks items true) (fun _ => rfl) (fun _ => rfl)
        (by decide) (by decide) hsuper htakes (by omega) hpad (by simpa [Value.text] using hleft)
        (itemsToks_closed items true) fun q A t hq hin hqsuper hnext hsize => ?_
      have hitems := items_run items true hlex hin hqsuper (by omega) hq (.cons rfl)
      rw [JsmnParser.afterItems, hsize, Nat.zero_add, List.nil_append] at hitems
      exact ⟨_, hitems⟩
  | .obj pad members, rest, p, ⟨hpad, hlex⟩, hsuper, htakes, hroom, hleft, _ => by
      rw [Value.count] at hroom
      have hlen : (Value.obj pad members).text.length =
          pad.length + (members.text true).length + 2 := by
        simp only [Value.text, List.length_cons, List.length_append, List.length_nil]
      rw [JsmnParser.after, valueToks, hlen]
      refine container_run lbrace rbrace (membersToks members true) (fun _ => rfl) (fun _ => rfl)
        (by decide) (by decide) hsuper htakes (by omega) hpad (by simpa [Value.text] using hleft)
        (membersToks_closed members true) fun q A t hq hin hqsuper hnext hsize => ?_
      obtain ⟨s, hmembers, -⟩ := members_run members true hlex hin (fun _ => hqsuper)
        (.inl hqsuper) (by omega) hq (.cons rfl)
      rw [JsmnParser.afterMembers, hsize, Nat.zero_add, List.nil_append] at hmembers
      exact ⟨s, hmembers⟩

theorem items_run : ∀ (items : Items) (first : Bool) {rest : Bytes} {p : JsmnParser}
    {A B : List JsmnTok} {t : JsmnTok}, items.Lexical jsmnLexicon → Inside .array A t B p →
    p.toksuper = some A.length → p.toknext + items.count ≤ numTokens →
    js.drop p.pos = items.text first ++ rest → Delimited rest →
    JsmnRun js numTokens p (p.afterItems A t B items first)
  | .nil, first, rest, p, A, B, t, _, hin, hsuper, _, _, _ => by
      simp only [JsmnParser.afterItems, Items.text, Items.length, Items.count, itemsToks,
        List.append_nil, List.length_nil, Nat.add_zero]
      rw [← hin.toks, ← hsuper]
      exact .refl p
  | .cons before value after rest', first, rest, p, A, B, t, ⟨hbefore, hvalue, hafter, hrest'⟩,
      hin, hsuper, hroom, hleft, hrest => by
      rw [Items.count] at hroom
      have hleft' : js.drop p.pos = (separator first ++ before) ++
          (value.text ++ (after ++ (rest'.text false ++ rest))) := by
        simpa only [Items.text, List.append_assoc] using hleft
      have hvalueLeft := left_append hleft'
      have hafterLeft := left_append hvalueLeft
      have hentry : JsmnRun js numTokens p (p.entered A first before) :=
        entry_run hin (.inr rfl) (fun _ => hsuper) (.inl hsuper) hbefore
          (hleft'.trans (List.append_assoc _ _ _))
      have hinEntry : Inside .array A t B (p.entered A first before) := entered_inside hin
      have hroomValue : (p.entered A first before).toknext + value.count ≤ numTokens := by
        have hsame : (p.entered A first before).toknext = p.toknext := rfl
        omega
      have hrun : JsmnRun js numTokens (p.entered A first before)
          ((p.entered A first before).after value) :=
        value_run value hvalue (hinEntry.superIn rfl) (hinEntry.takesValue rfl) hroomValue
          hvalueLeft fun _ => .blank_append hafter (items_delimited rest' hrest)
      have hblank : JsmnRun js numTokens ((p.entered A first before).after value)
          (p.afterItem A first before value after) :=
        .blank hafter hafterLeft
      have hroomRest : (p.afterItem A first before value after).toknext =
          p.toknext + value.count := afterItem_toknext
      have hrestRun := items_run rest' false hrest' (afterItem_inside hin) (afterItem_super hin)
        (by omega) (left_append hafterLeft) hrest
      rw [afterItems_cons]
      exact ((hentry.trans hrun).trans hblank).trans hrestRun

theorem members_run : ∀ (members : Members) (first : Bool) {rest : Bytes} {p : JsmnParser}
    {A B : List JsmnTok} {t : JsmnTok}, members.Lexical jsmnLexicon → Inside .object A t B p →
    (first = true → p.toksuper = some A.length) → Resumes A p →
    p.toknext + members.count ≤ numTokens → js.drop p.pos = members.text first ++ rest →
    Delimited rest →
    ∃ s, JsmnRun js numTokens p (p.afterMembers A t B members first s) ∧
      Resumes A (p.afterMembers A t B members first s)
  | .nil, first, rest, p, A, B, t, _, hin, _, hresumes, _, _, _ => by
      simp only [JsmnParser.afterMembers, Members.text, Members.length, Members.count, membersToks,
        List.append_nil, List.length_nil, Nat.add_zero]
      rw [← hin.toks]
      exact ⟨p.toksuper, .refl p, hresumes⟩
  | .cons before key beforeColon afterColon value after rest', first, rest, p, A, B, t,
      ⟨hbefore, hkey, hbeforeColon, hafterColon, hvalue, hafter, hrest'⟩, hin, hfirst, hresumes,
      hroom, hleft, hrest => by
      rw [Members.count] at hroom
      have hleft' : js.drop p.pos = (separator first ++ before) ++
          ((quoted key ++ beforeColon ++ colon :: afterColon) ++
            (value.text ++ (after ++ (rest'.text false ++ rest)))) := by
        simpa [Members.text] using hleft
      let keyed := p.keyed A t B first before key beforeColon afterColon
      have hkeyRun : JsmnRun js numTokens p keyed :=
        member_key_run hin hfirst hresumes hbefore hkey hbeforeColon hafterColon (by omega) hleft'
      have hvalueLeft : js.drop keyed.pos =
          value.text ++ (after ++ (rest'.text false ++ rest)) := by
        have hwhole := hleft'
        rw [← List.append_assoc] at hwhole
        simpa [keyed, JsmnParser.keyed, valueOff] using left_append hwhole
      have hnext : keyed.toknext = p.toknext + 1 := keyed_toknext hin
      have hrun : JsmnRun js numTokens keyed (keyed.after value) :=
        value_run value hvalue keyed_superIn keyed_takesValue (by omega) hvalueLeft
          fun _ => .blank_append hafter (members_delimited rest' hrest)
      have hafterLeft := left_append hvalueLeft
      have hblank : JsmnRun js numTokens (keyed.after value)
          (p.afterMember A t B first before key beforeColon afterColon value after) :=
        .blank hafter hafterLeft
      have hroomRest : (p.afterMember A t B first before key beforeColon afterColon value
          after).toknext = p.toknext + 1 + value.count := afterMember_toknext hin
      obtain ⟨s, hrestRun, hend⟩ := members_run rest' false hrest' (afterMember_inside hin)
        (fun h => by cases h) (afterMember_resumes hin) (by omega) (left_append hafterLeft) hrest
      refine ⟨s, ?_⟩
      rw [afterMembers_cons]
      exact ⟨((hkeyRun.trans hrun).trans hblank).trans hrestRun, hend⟩

end

end Tree

/-! ### Documents -/

section Capacity

variable {js : Bytes} {n n' : Nat} {p q : JsmnParser}

theorem except_bind_eq_ok {ε α β : Type} {x : Except ε α} {f : α → Except ε β} {b : β}
    (h : (x >>= f) = .ok b) : ∃ a, x = .ok a ∧ f a = .ok b := by
  cases x with
  | error e => cases h
  | ok a => exact ⟨a, rfl, h⟩

theorem except_map_eq_ok {ε α β : Type} {x : Except ε α} {f : α → β} {b : β}
    (h : f <$> x = .ok b) : ∃ a, x = .ok a ∧ f a = b := by
  cases x with
  | error e => cases h
  | ok a => exact ⟨a, rfl, Except.ok.inj h⟩

theorem jsmnAllocToken_resize {toks toks' : List JsmnTok} (h : jsmnAllocToken n toks = .ok toks')
    (hroom : toks'.length ≤ n') : jsmnAllocToken n' toks = .ok toks' := by
  unfold jsmnAllocToken at h ⊢
  split at h
  · cases h
  · rw [← Except.ok.inj h, List.length_append, List.length_singleton] at hroom
    rwa [if_neg (by omega)]

theorem openContainer_resize {type : JsmnType} (h : openContainer n type p = .ok q)
    (hroom : q.toks.length ≤ n') : openContainer n' type p = .ok q := by
  obtain ⟨toks, htoks, h⟩ := except_bind_eq_ok h
  have hlength : toks.length = q.toks.length := by
    split at h
    · cases h
    · rw [← Except.ok.inj h]
      simp [bumpSuper_length]
  rw [openContainer, jsmnAllocToken_resize htoks (hlength.trans_le hroom)]
  exact h

theorem jsmnParseString_resize (h : jsmnParseString js n p = .ok q)
    (hroom : q.toks.length ≤ n') : jsmnParseString js n' p = .ok q := by
  obtain ⟨stop, hstop, h⟩ := except_bind_eq_ok h
  obtain ⟨toks, htoks, h⟩ := except_bind_eq_ok h
  have hlength : toks.length = q.toks.length := by
    rw [← Except.ok.inj h, List.length_modify]
  rw [jsmnParseString, hstop]
  change (jsmnAllocToken n' p.toks >>= _) = _
  rw [jsmnAllocToken_resize htoks (hlength.trans_le hroom)]
  exact h

theorem jsmnParsePrimitive_resize (h : jsmnParsePrimitive js n p = .ok q)
    (hroom : q.toks.length ≤ n') : jsmnParsePrimitive js n' p = .ok q := by
  obtain ⟨stop, hstop, h⟩ := except_bind_eq_ok h
  obtain ⟨toks, htoks, h⟩ := except_bind_eq_ok h
  have hlength : toks.length = q.toks.length := by
    rw [← Except.ok.inj h, List.length_modify]
  rw [jsmnParsePrimitive, hstop]
  change (jsmnAllocToken n' p.toks >>= _) = _
  rw [jsmnAllocToken_resize htoks (hlength.trans_le hroom)]
  exact h

theorem countToken_length (p : JsmnParser) : (countToken p).toks.length = p.toks.length :=
  bumpSuper_length p.toksuper p.toks

/-- A step depends on the size of the array only where it runs out of slots. -/
theorem jsmnStep_resize {c : UInt8} (h : jsmnStep js n c p = .ok q)
    (hroom : q.toks.length ≤ n') : jsmnStep js n' c p = .ok q := by
  obtain ⟨type, -, hstep⟩ | ⟨type, hstep⟩ | hstep | ⟨-, hstep⟩ | ⟨r, -, hstep⟩ | hstep :=
    jsmnStep_cases c p <;> rw [hstep] at h ⊢
  · exact openContainer_resize h hroom
  · exact h
  · obtain ⟨r, hr, rfl⟩ := except_map_eq_ok h
    rw [countToken_length] at hroom
    rw [jsmnParseString_resize hr hroom]
    rfl
  · obtain ⟨r, hr, rfl⟩ := except_map_eq_ok h
    rw [countToken_length] at hroom
    rw [jsmnParsePrimitive_resize hr hroom]
    rfl
  · exact h
  · exact h

theorem JsmnMove.length_le (hmove : JsmnMove js n p q) : p.toks.length ≤ q.toks.length := by
  have hpush : ∀ t : JsmnTok, p.toks.length ≤ (p.push t).toks.length := by
    intro t
    change p.toknext ≤ (p.push t).toknext
    rw [push_toknext]
    exact Nat.le_succ _
  cases hmove with
  | skip | colon | comma => exact Nat.le_refl _
  | leaf | opened => exact hpush _
  | closed _ _ htoks =>
      subst htoks
      exact (List.length_modify ..).ge

theorem jsmnLoop_resize (hspine : p.Spine) {fuel : Nat} (h : jsmnLoop js n fuel p = .ok q)
    (hroom : q.toks.length ≤ n') : jsmnLoop js n' fuel p = .ok q := by
  induction fuel generalizing p with
  | zero => exact h
  | succ fuel ih =>
      rw [jsmnLoop] at h ⊢
      split at h
      · exact h
      · next c hpeek =>
        obtain ⟨r, hr, h⟩ := except_bind_eq_ok h
        have hmove := jsmnStep_move hspine.superIn hpeek hr
        have hnext := hmove.spine hspine
        have hlength : r.toks.length ≤ q.toks.length :=
          (jsmnLoop_invariant (I := fun s => r.toks.length ≤ s.toks.length)
            (fun _ _ _ hle hmove => Nat.le_trans hle hmove.length_le) hnext (Nat.le_refl _) h).2
        rw [jsmnStep_resize hr (Nat.le_trans hlength hroom)]
        exact ih hnext h

theorem jsmnParse_resize (h : jsmnParse js n = .ok p) (hroom : p.toks.length ≤ n') :
    jsmnParse js n' = .ok p := by
  obtain ⟨q, hq, h⟩ := except_bind_eq_ok h
  have hsame : q = p := by
    split at h
    · cases h
    · exact Except.ok.inj h
  rw [jsmnParse, jsmnLoop_resize jsmnInit_spine hq (hsame ▸ hroom)]
  exact h

theorem jsmnParse_mono (hn : n ≤ n') (h : jsmnParse js n = .ok p) : jsmnParse js n' = .ok p :=
  jsmnParse_resize h (Nat.le_trans (jsmnParse_tokens h).2.2 hn)

end Capacity

/-- A document of the tokenizer's lexicon is accepted, and its tokens are its nodes. -/
theorem jsmnParse_lexical {d : Document} (hd : d.Lexical jsmnLexicon) {numTokens : Nat}
    (hroom : d.value.count ≤ numTokens) :
    jsmnParse d.text numTokens = .ok
      { pos := d.text.length, toks := valueToks d.value d.lead.length, toksuper := none
        count := d.value.count } := by
  obtain ⟨hlead, hvalue, htrail⟩ := hd
  let start : JsmnParser := { jsmnInit with pos := d.lead.length }
  let stop : JsmnParser :=
    { pos := d.text.length, toks := valueToks d.value d.lead.length, toksuper := none
      count := d.value.count }
  have hleft : d.text.drop 0 = d.lead ++ (d.value.text ++ d.trail) := by
    simp [Document.text]
  have hvalueLeft : d.text.drop start.pos = d.value.text ++ d.trail := by
    simpa using left_append hleft
  have hafter : { start.after d.value with
      pos := (start.after d.value).pos + d.trail.length } = stop := by
    have hpos : (start.after d.value).pos + d.trail.length = d.text.length := by
      simp only [JsmnParser.after, start, Document.text, List.length_append]
    have hcount : (start.after d.value).count = d.value.count := Nat.zero_add _
    rw [JsmnParser.mk.injEq]
    exact ⟨hpos, rfl, rfl, hcount⟩
  have hlead' : JsmnRun d.text numTokens jsmnInit start := by
    have hrun : JsmnRun d.text numTokens jsmnInit { jsmnInit with pos := 0 + d.lead.length } :=
      .blank hlead hleft
    rwa [Nat.zero_add] at hrun
  have hrun : JsmnRun d.text numTokens start (start.after d.value) := by
    refine value_run d.value hvalue (by simp [JsmnParser.SuperIn, start, jsmnInit])
      (by simp [TakesValue, start, jsmnInit]) ?_ hvalueLeft ?_
    · simpa [JsmnParser.toknext, start, jsmnInit] using hroom
    · rintro ⟨text, htext⟩
      cases htext
  have htrail' : JsmnRun d.text numTokens (start.after d.value) stop := by
    rw [← hafter]
    have hend : d.text.drop (start.after d.value).pos = d.trail ++ [] := by
      rw [List.append_nil]
      exact left_append hvalueLeft
    exact .blank htrail hend
  have hloop := ((hlead'.trans hrun).trans htrail').loop jsmnInit_spine (by simp [peek, stop])
    (Nat.le_add_left d.text.length 0)
  have hclosed : ¬ (valueToks d.value d.lead.length).any JsmnTok.isOpen := by
    intro hany
    obtain ⟨t, ht, hopen⟩ := List.any_eq_true.mp hany
    rw [valueToks_closed d.value _ t ht] at hopen
    cases hopen
  rw [jsmnParse, hloop]
  exact if_neg hclosed

theorem jsmnParse_document {d : Document} (hd : d.Lexical jsmnLexicon) {numTokens : Nat}
    {p : JsmnParser} (hparse : jsmnParse d.text numTokens = .ok p) :
    p.toks = valueToks d.value d.lead.length ∧ p.count = d.value.count := by
  have hmore := jsmnParse_mono (Nat.le_max_left numTokens d.value.count) hparse
  have hall := jsmnParse_lexical hd (Nat.le_max_right numTokens d.value.count)
  obtain rfl := Except.ok.inj (hmore.symm.trans hall)
  exact ⟨rfl, rfl⟩

end AtxSys
