import AtxSys.Lib.JsonOutline
import AtxSys.Proof.Continuation
import AtxSys.Proof.Cut

/-!
# What the tokenizer accepts

The tokenizer lets blanks, commas and colons stand anywhere, but it matches brackets and reads
strings and primitives. So any text it accepts has an outline, and the tokens are its parts.
-/

namespace AtxSys

open CText JsonSyntax Slices

/-! ### Tokens without their sizes -/

def JsmnTok.bare (t : JsmnTok) : JsmnTok := { t with size := 0 }

def groupType : Group → JsmnType
  | .object => .object
  | .array => .array

def partTok : Part → JsmnTok
  | .str start stop => ⟨.string, start, stop, 0⟩
  | .prim start stop => ⟨.primitive, start, stop, 0⟩
  | .group g start none => ⟨groupType g, start, -1, 0⟩
  | .group g start (some stop) => ⟨groupType g, start, stop, 0⟩

section Bare

variable {p : JsmnParser}

theorem bumpSuper_bare (toksuper : Option Nat) (toks : List JsmnTok) :
    (bumpSuper toksuper toks).map JsmnTok.bare = toks.map JsmnTok.bare := by
  cases toksuper with
  | none => rfl
  | some s =>
      apply List.ext_getElem?
      intro i
      rw [bumpSuper, List.getElem?_map, List.getElem?_map, List.getElem?_modify]
      cases toks[i]? with
      | none => rfl
      | some t =>
          by_cases hi : s = i <;> simp [hi, JsmnTok.bare, JsmnTok.bump]

theorem push_bare (t : JsmnTok) (p : JsmnParser) :
    (p.push t).toks.map JsmnTok.bare = p.toks.map JsmnTok.bare ++ [t.bare] := by
  rw [JsmnParser.push, List.map_append, bumpSuper_bare]
  rfl

theorem afterComma_toks (p : JsmnParser) : (afterComma p).toks = p.toks ∧
    (afterComma p).pos = p.pos := by
  unfold afterComma
  split
  · split <;> exact ⟨rfl, rfl⟩
  · exact ⟨rfl, rfl⟩

theorem isOpen_partTok (part : Part) : (partTok part).isOpen = true ↔ part.IsOpen := by
  match part with
  | .str start stop | .prim start stop | .group g start none | .group g start (some stop) =>
      simp [partTok, JsmnTok.isOpen, Part.IsOpen]

theorem closed_toks {toks : List JsmnTok} {parts : List Part}
    (htoks : toks.map JsmnTok.bare = parts.map partTok) (hclosed : ∀ part ∈ parts, ¬ part.IsOpen) :
    ∀ t ∈ toks, t.isOpen = false := by
  intro t ht
  have hmem : t.bare ∈ parts.map partTok := by
    rw [← htoks]
    exact List.mem_map_of_mem ht
  obtain ⟨part, hpart, heq⟩ := List.mem_map.mp hmem
  change t.bare.isOpen = false
  rw [← heq, Bool.eq_false_iff, ne_eq, isOpen_partTok]
  exact hclosed part hpart

end Bare

/-! ### What a step adds -/

/-- What the body of the main loop does at the byte `c`, as far as the text and the places of the
tokens go. -/
inductive Adds (js : Bytes) (c : UInt8) (p q : JsmnParser) : Prop where
  | separator (hc : Separates c) (htoks : q.toks = p.toks) (hpos : q.pos = p.pos)
  | opened (g : Group) (hc : c = g.opening)
      (htoks : q.toks.map JsmnTok.bare =
        p.toks.map JsmnTok.bare ++ [partTok (.group g p.pos none)])
      (hpos : q.pos = p.pos)
  | closed (g : Group) (hc : c = g.closing) (hclose : closeContainer (groupType g) p = .ok q)
  | string (stop : Nat) (hc : c = quote)
      (hscan : scanString js (js.length + 1) (p.pos + 1) = .ok stop)
      (htoks : q.toks.map JsmnTok.bare =
        p.toks.map JsmnTok.bare ++ [partTok (.str (p.pos + 1) stop)])
      (hpos : q.pos = stop)
  | primitive (stop : Nat) (hc : startsPrimitive c = true)
      (hscan : scanPrimitive js (js.length + 1) p.pos = .ok stop)
      (htoks : q.toks.map JsmnTok.bare =
        p.toks.map JsmnTok.bare ++ [partTok (.prim p.pos stop)])
      (hpos : q.pos = stop - 1)

section Step

variable {js : Bytes} {n : Nat} {c : UInt8} {p q : JsmnParser}

theorem openContainer_adds (hsuper : p.SuperIn) (g : Group)
    (h : openContainer n (groupType g) p = .ok q) : Adds js g.opening p q := by
  rw [openContainer_eq hsuper] at h
  split at h
  · cases h
  · split at h
    · cases h
    · obtain rfl := Except.ok.inj h
      exact .opened g rfl (push_bare _ p) rfl

theorem jsmnParseString_adds (hsuper : p.SuperIn)
    (h : countToken <$> jsmnParseString js n p = .ok q) : Adds js quote p q := by
  rw [jsmnParseString_eq hsuper] at h
  obtain ⟨stop, hscan, h⟩ := except_bind_eq_ok h
  split at h
  · cases h
  · obtain rfl := Except.ok.inj h
    exact .string stop rfl hscan (push_bare _ p) rfl

theorem jsmnParsePrimitive_adds (hsuper : p.SuperIn) (hc : startsPrimitive c = true)
    (h : countToken <$> jsmnParsePrimitive js n p = .ok q) : Adds js c p q := by
  rw [jsmnParsePrimitive_eq hsuper] at h
  obtain ⟨stop, hscan, h⟩ := except_bind_eq_ok h
  split at h
  · cases h
  · obtain rfl := Except.ok.inj h
    exact .primitive stop hc hscan (push_bare _ p) rfl

theorem jsmnStep_adds (hsuper : p.SuperIn) (h : jsmnStep js n c p = .ok q) : Adds js c p q := by
  unfold jsmnStep at h
  by_cases hlbrace : c = lbrace
  · subst hlbrace
    exact openContainer_adds hsuper .object h
  rw [if_neg hlbrace] at h
  by_cases hlbracket : c = lbracket
  · subst hlbracket
    exact openContainer_adds hsuper .array h
  rw [if_neg hlbracket] at h
  by_cases hrbrace : c = rbrace
  · rw [if_pos hrbrace] at h
    exact .closed .object hrbrace h
  rw [if_neg hrbrace] at h
  by_cases hrbracket : c = rbracket
  · rw [if_pos hrbracket] at h
    exact .closed .array hrbracket h
  rw [if_neg hrbracket] at h
  by_cases hquote : c = quote
  · subst hquote
    exact jsmnParseString_adds hsuper h
  rw [if_neg hquote] at h
  by_cases hblank : isWhitespace c
  · rw [if_pos hblank] at h
    obtain rfl := Except.ok.inj h
    have hc := isWhitespace_iff.mp hblank
    exact .separator (List.mem_append_left [comma, colon] hc) rfl rfl
  rw [if_neg hblank] at h
  by_cases hcolon : c = colon
  · rw [if_pos hcolon] at h
    obtain rfl := Except.ok.inj h
    exact .separator (by rw [hcolon]; decide) rfl rfl
  rw [if_neg hcolon] at h
  by_cases hcomma : c = comma
  · rw [if_pos hcomma] at h
    obtain rfl := Except.ok.inj h
    obtain ⟨htoks, hpos⟩ := afterComma_toks p
    exact .separator (by rw [hcomma]; decide) htoks hpos
  rw [if_neg hcomma] at h
  by_cases hstarts : startsPrimitive c
  · rw [if_pos hstarts] at h
    split at h
    · cases h
    · exact jsmnParsePrimitive_adds hsuper hstarts h
  · rw [if_neg hstarts] at h
    cases h

end Step

/-! ### What is read -/

section Reading

variable {js : Bytes} {c : UInt8} {p q : JsmnParser} {stop : Nat}

theorem take_peek {pos : Nat} (hpeek : peek js pos = some c) :
    js.take (pos + 1) = js.take pos ++ [c] := by
  obtain ⟨hlt, hget, -⟩ := peek_lt hpeek
  rw [List.take_add_one, hget]
  rfl

/-- What a scan has passed is a primitive of the tokenizer's lexicon. -/
theorem scanPrimitive_prim {fuel pos : Nat} (h : scanPrimitive js fuel pos = .ok stop) :
    ∀ c ∈ (js.drop pos).take (stop - pos), InPrimitive c := by
  induction fuel generalizing pos with
  | zero => cases h
  | succ fuel ih =>
      rw [scanPrimitive] at h
      split at h
      · cases h
      · next c hpeek =>
        split at h
        · obtain rfl := Except.ok.inj h
          rw [Nat.sub_self, List.take_zero]
          intro c hc
          cases hc
        · next hends =>
          split at h
          · cases h
          · next hrange =>
            have hlt := (scanPrimitive_bounds h).1
            rw [slice_cons (peek_lt hpeek).2.1 (by omega)]
            intro d hd
            rcases List.mem_cons.mp hd with rfl | hd
            · simp only [not_or, UInt8.not_lt, UInt8.not_le] at hrange
              exact ⟨Bool.eq_false_iff.mpr hends, hrange⟩
            · exact ih h d hd

/-- The text up to the position has an outline, and the tokens are its parts. -/
def Outlined (js : Bytes) (p : JsmnParser) : Prop :=
  ∃ gs parts, Reads jsmnLexicon gs (js.take p.pos) parts ∧
    p.toks.map JsmnTok.bare = parts.map partTok ∧ p.pos ≤ js.length

theorem outlined_init (js : Bytes) : Outlined js jsmnInit :=
  ⟨[], [], .outside (o := .nil) trivial, rfl, Nat.zero_le _⟩

/-- More of the text is read, with more tokens. -/
theorem Outlined.append {gs : List Group} {parts : List Part} {o : Outline} {pos : Nat}
    (hreads : Reads jsmnLexicon gs (js.take p.pos) parts) (hpos : p.pos ≤ js.length)
    (htoks : p.toks.map JsmnTok.bare = parts.map partTok) (ho : o.Lexical jsmnLexicon)
    (htext : js.take pos = js.take p.pos ++ o.text) (hstop : pos ≤ js.length)
    (hmore : q.toks.map JsmnTok.bare = p.toks.map JsmnTok.bare ++ (o.parts p.pos).map partTok) :
    Outlined js { q with pos } := by
  have hnext := hreads.append ho
  rw [List.length_take, Nat.min_eq_left hpos, ← htext] at hnext
  exact ⟨gs, _, hnext, by rw [List.map_append, ← htoks, hmore], hstop⟩

theorem Outlined.string (h : Outlined js p) (hpeek : peek js p.pos = some quote)
    (hscan : scanString js (js.length + 1) (p.pos + 1) = .ok stop)
    (htoks : q.toks.map JsmnTok.bare =
      p.toks.map JsmnTok.bare ++ [partTok (.str (p.pos + 1) stop)]) :
    Outlined js { q with pos := stop + 1 } := by
  obtain ⟨gs, parts, hreads, htoks', hpos⟩ := h
  obtain ⟨hle, hlt⟩ := scanString_bounds hscan
  have hquote := scanString_quote hscan
  let body := (js.drop (p.pos + 1)).take (stop - (p.pos + 1))
  have hlen : body.length = stop - (p.pos + 1) := by
    simp only [body, List.length_take, List.length_drop]
    omega
  have htext : js.take (stop + 1) = js.take p.pos ++ (Outline.str body .nil).text := by
    have hstop : stop = p.pos + 1 + (stop - (p.pos + 1)) := by omega
    rw [List.take_add_one, hquote]
    conv_lhs => rw [hstop, List.take_add, take_peek hpeek]
    simp [Outline.text, quoted, body]
  refine Outlined.append hreads hpos htoks' (o := .str body .nil) ⟨scanString_str hscan, trivial⟩
    htext (by omega) ?_
  have hend : p.pos + 1 + body.length = stop := by omega
  rw [htoks, Outline.parts, hend]
  rfl

theorem Outlined.primitive (h : Outlined js p) (hpeek : peek js p.pos = some c)
    (hstarts : startsPrimitive c = true)
    (hscan : scanPrimitive js (js.length + 1) p.pos = .ok stop)
    (htoks : q.toks.map JsmnTok.bare =
      p.toks.map JsmnTok.bare ++ [partTok (.prim p.pos stop)]) :
    Outlined js { q with pos := stop } := by
  obtain ⟨gs, parts, hreads, htoks', hpos⟩ := h
  have hlt := scanPrimitive_lt hpeek (not_endsPrimitive hstarts) hscan
  have hstop := (scanPrimitive_bounds hscan).2
  let text := (js.drop p.pos).take (stop - p.pos)
  have hlen : text.length = stop - p.pos := by
    simp only [text, List.length_take, List.length_drop]
    omega
  have hprim : jsmnLexicon.prim text :=
    ⟨⟨c, _, slice_cons (peek_lt hpeek).2.1 hlt, hstarts⟩, scanPrimitive_prim hscan⟩
  have htext : js.take stop = js.take p.pos ++ (Outline.prim text .nil).text := by
    have heq : stop = p.pos + (stop - p.pos) := by omega
    conv_lhs => rw [heq, List.take_add]
    simp [Outline.text, text]
  refine Outlined.append hreads hpos htoks' (o := .prim text .nil) ⟨hprim, trivial⟩ htext
    (by omega) ?_
  have hend : p.pos + text.length = stop := by omega
  rw [htoks, Outline.parts, hend]
  rfl

theorem Outlined.opened (h : Outlined js p) (g : Group) (hpeek : peek js p.pos = some g.opening)
    (htoks : q.toks.map JsmnTok.bare =
      p.toks.map JsmnTok.bare ++ [partTok (.group g p.pos none)]) :
    Outlined js { q with pos := p.pos + 1 } := by
  obtain ⟨gs, parts, hreads, htoks', hpos⟩ := h
  have hnext := hreads.opened g
  rw [List.length_take, Nat.min_eq_left hpos, ← take_peek hpeek] at hnext
  exact ⟨g :: gs, _, hnext, by rw [List.map_append, ← htoks', htoks]; rfl, (peek_lt hpeek).1⟩

theorem groupType_inj {g g' : Group} (h : groupType g = groupType g') : g = g' := by
  cases g <;> cases g' <;> first | rfl | cases h

/-- Without an open token nothing can be closed. -/
theorem closeContainer_none {type : JsmnType} (hclosed : ∀ t ∈ p.toks, t.isOpen = false) :
    closeContainer type p ≠ .ok q := by
  intro hclose
  unfold closeContainer at hclose
  cases hsearch : searchDown JsmnTok.isOpen p.toks p.toknext with
  | none =>
      rw [hsearch] at hclose
      cases hclose
  | some i =>
      obtain ⟨-, ⟨t, ht, hopen⟩, -⟩ := searchDown_eq_some hsearch
      rw [hclosed t (List.mem_of_getElem? ht)] at hopen
      cases hopen

theorem closeContainer_pos {type : JsmnType} (hclose : closeContainer type p = .ok q) :
    q.pos = p.pos := by
  unfold closeContainer at hclose
  split at hclose
  · cases hclose
  · split at hclose
    · cases hclose
    · obtain rfl := Except.ok.inj hclose
      rfl

/-- The last open token is closed, if it is of the right type. -/
theorem closeContainer_last {type : JsmnType} {before inner : List JsmnTok} {t : JsmnTok}
    (htoks : p.toks = before ++ t :: inner) (hopen : t.isOpen = true)
    (hinner : ∀ t ∈ inner, t.isOpen = false) (hclose : closeContainer type p = .ok q) :
    t.type = type ∧ q.toks = before ++ { t with stop := p.pos + 1 } :: inner := by
  have hsearch : searchDown JsmnTok.isOpen p.toks p.toknext = some before.length := by
    rw [JsmnParser.toknext, htoks]
    exact searchDown_append_cons before hopen hinner
  have hget : p.toks[before.length]? = some t := by
    rw [htoks]
    simp
  rw [closeContainer, hsearch] at hclose
  dsimp only at hclose
  rw [hget, Option.any_some] at hclose
  by_cases htype : t.type = type
  · rw [if_neg (by simp [htype])] at hclose
    obtain rfl := Except.ok.inj hclose
    refine ⟨htype, ?_⟩
    change p.toks.modify before.length _ = _
    rw [htoks, modify_append_cons]
  · rw [if_pos (by simp [htype])] at hclose
    cases hclose

/-- The innermost open token is that of the innermost group. -/
theorem Outlined.closed (h : Outlined js p) (g : Group) (hpeek : peek js p.pos = some g.closing)
    (hclose : closeContainer (groupType g) p = .ok q) :
    Outlined js { q with pos := p.pos + 1 } := by
  obtain ⟨gs, parts, hreads, htoks, hpos⟩ := h
  cases gs with
  | nil => exact absurd hclose (closeContainer_none (closed_toks htoks hreads.closed))
  | cons g' gs =>
      obtain ⟨before, start, inner, rfl, hinner, hnext⟩ := hreads.innermost
      rw [List.map_append, List.map_cons, List.map_eq_append_iff] at htoks
      obtain ⟨A, rest, htoks, hA, hrest⟩ := htoks
      obtain ⟨t, B, rfl, ht, hB⟩ := List.map_eq_cons_iff.mp hrest
      have hopen : t.isOpen = true := by
        change t.bare.isOpen = true
        rw [ht, isOpen_partTok]
        trivial
      obtain ⟨htype, hq⟩ := closeContainer_last htoks hopen (closed_toks hB hinner) hclose
      obtain rfl : g' = g := by
        apply groupType_inj
        rw [← htype]
        exact (congrArg JsmnTok.type ht).symm
      rw [List.length_take, Nat.min_eq_left hpos, ← take_peek hpeek] at hnext
      refine ⟨gs, _, hnext, ?_, (peek_lt hpeek).1⟩
      have hclosed : JsmnTok.bare { t with stop := p.pos + 1 } =
          partTok (.group g' start (some (p.pos + 1))) := by
        change { t.bare with stop := (p.pos : Int) + 1 } = _
        rw [ht]
        rfl
      rw [hq, List.map_append, List.map_cons, hA, hB, hclosed, List.map_append, List.map_cons]

theorem Outlined.step (h : Outlined js p) (hpeek : peek js p.pos = some c)
    (hadds : Adds js c p q) : Outlined js { q with pos := q.pos + 1 } := by
  cases hadds with
  | separator hc htoks hpos =>
      rw [hpos]
      obtain ⟨gs, parts, hreads, htoks', hlen⟩ := h
      refine Outlined.append hreads hlen htoks' (o := .sep c .nil) ⟨hc, trivial⟩
        (take_peek hpeek) (peek_lt hpeek).1 ?_
      rw [htoks]
      exact (List.append_nil _).symm
  | opened g hc htoks hpos =>
      rw [hpos]
      exact h.opened g (hc ▸ hpeek) htoks
  | closed g hc hclose =>
      rw [closeContainer_pos hclose]
      exact h.closed g (hc ▸ hpeek) hclose
  | string stop hc hscan htoks hpos =>
      rw [hpos]
      exact h.string (hc ▸ hpeek) hscan htoks
  | primitive stop hc hscan htoks hpos =>
      have hlt := scanPrimitive_lt hpeek (not_endsPrimitive hc) hscan
      have hback : q.pos + 1 = stop := by omega
      rw [hback]
      exact h.primitive hpeek hc hscan htoks

end Reading

/-! ### Accepted texts -/

section Accepted

variable {js : Bytes} {n fuel : Nat} {p q : JsmnParser}

theorem Outlined.run (h : Outlined js p) (hspine : p.Spine) (hrun : JsmnRun js n p q) :
    Outlined js q := by
  induction hrun with
  | refl => exact h
  | step hpeek hstep _ ih =>
      have hnext := (jsmnStep_move hspine.superIn hpeek hstep).spine hspine
      exact ih (h.step hpeek (jsmnStep_adds hspine.superIn hstep)) hnext

/-- The loop ends where the text does. -/
theorem jsmnLoop_end (hspine : p.Spine) (hfuel : js.length ≤ p.pos + fuel)
    (h : jsmnLoop js n fuel p = .ok q) : peek js q.pos = none := by
  induction fuel generalizing p with
  | zero =>
      obtain rfl := Except.ok.inj h
      rw [peek, List.getElem?_eq_none (by omega)]
      rfl
  | succ fuel ih =>
      rw [jsmnLoop] at h
      split at h
      · next hpeek =>
        obtain rfl := Except.ok.inj h
        exact hpeek
      · next c hpeek =>
        obtain ⟨r, hstep, h⟩ := except_bind_eq_ok h
        have hmove := jsmnStep_move hspine.superIn hpeek hstep
        have hlt := hmove.pos_lt
        dsimp only at hlt
        exact ih (hmove.spine hspine) (by dsimp only; omega) h

/-- **Accepted texts.** A text that the tokenizer accepts, up to its end or its first NUL, has an
outline: its brackets match, and between brackets, strings and primitives of the lexicon there are
only blanks, commas and colons. The tokens are exactly the parts of the outline, in order. -/
theorem jsmnParse_outline (h : jsmnParse js n = .ok p) :
    ∃ o : Outline, o.Lexical jsmnLexicon ∧ o.text = js.take p.pos ∧ peek js p.pos = none ∧
      p.toks.map JsmnTok.bare = (o.parts 0).map partTok := by
  obtain ⟨hloop, hclosed⟩ := jsmnParse_eq_ok h
  have hrun : JsmnRun (js ++ []) n jsmnInit p := jsmnLoop_append hloop
  rw [List.append_nil] at hrun
  obtain ⟨gs, parts, hreads, htoks, -⟩ := (outlined_init js).run jsmnInit_spine hrun
  have hend := jsmnLoop_end jsmnInit_spine (Nat.le_add_left _ _) hloop
  have hparts : ∀ part ∈ parts, ¬ part.IsOpen := by
    intro part hpart
    have hmem : partTok part ∈ p.toks.map JsmnTok.bare := by
      rw [htoks]
      exact List.mem_map_of_mem hpart
    obtain ⟨t, ht, heq⟩ := List.mem_map.mp hmem
    rw [← isOpen_partTok, ← heq]
    exact Bool.eq_false_iff.mp (hclosed t ht)
  obtain rfl := hreads.eq_nil hparts
  obtain ⟨o, ho, htext, rfl⟩ := hreads.outline
  exact ⟨o, ho, htext, hend, htoks⟩

/-- More is accepted than documents. -/
theorem jsmnParse_outline_stray :
    ∃ o : Outline, o.Lexical jsmnLexicon ∧ o.text = bytes "[1,:]" := by
  have hparse : jsmnParse (bytes "[1,:]") 2 = .ok
      { pos := 5, toksuper := none, count := 2,
        toks := [⟨.array, 0, 5, 1⟩, ⟨.primitive, 1, 2, 0⟩] } := by
    rfl
  obtain ⟨o, hlex, htext, -⟩ := jsmnParse_outline hparse
  exact ⟨o, hlex, htext⟩

end Accepted

end AtxSys
