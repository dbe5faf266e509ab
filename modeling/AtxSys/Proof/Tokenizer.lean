import AtxSys.Jsmn
import AtxSys.Lib.FlatForest
import AtxSys.Lib.Slices
import Mathlib.Algebra.Ring.Nat
import Mathlib.Tactic.Common
import Mathlib.Order.Basic

/-!
# The tokens form a forest

Every token is hung below the superior token of its moment, and whatever a stray colon, comma or
closing bracket does to `toksuper`, it stays on the path from a root to the last token. So the token
array is a forest in preorder with the `size` fields as child counts, grammatical JSON or not.
-/

namespace AtxSys

open CText FlatForest Slices

/-! ### What one step can do -/

namespace JsmnParser

/-- The parser with one more token, counted by the superior one. -/
def push (t : JsmnTok) (p : JsmnParser) : JsmnParser :=
  { p with toks := bumpSuper p.toksuper p.toks ++ [t], count := p.count + 1 }

/-- The superior token, if there is one, is a token. -/
def SuperIn (p : JsmnParser) : Prop := ∀ s, p.toksuper = some s → s < p.toknext

end JsmnParser

@[simp]
theorem bumpSuper_length (toksuper : Option Nat) (toks : List JsmnTok) :
    (bumpSuper toksuper toks).length = toks.length := by
  cases toksuper <;> simp [bumpSuper]

theorem bumpSuper_append {toksuper : Option Nat} {toks : List JsmnTok}
    (hsuper : ∀ s, toksuper = some s → s < toks.length) (rest : List JsmnTok) :
    bumpSuper toksuper (toks ++ rest) = bumpSuper toksuper toks ++ rest := by
  cases toksuper with
  | none => rfl
  | some s =>
      have hs := hsuper s rfl
      simp only [bumpSuper]
      apply List.ext_getElem?
      intro i
      by_cases hi : s = i
      · subst hi
        simp [List.getElem?_append, hs]
      · simp [List.getElem?_append, hi]

theorem searchDown_eq_some {found : JsmnTok → Bool} {toks : List JsmnTok} {n i : Nat}
    (h : searchDown found toks n = some i) :
    i < n ∧ (∃ t, toks[i]? = some t ∧ found t) ∧
      ∀ j t, i < j → j < n → toks[j]? = some t → ¬ found t := by
  induction n with
  | zero => simp [searchDown] at h
  | succ n ih =>
      rw [searchDown] at h
      split at h
      · next hn =>
        obtain rfl : n = i := by simpa using h
        obtain ⟨t, ht, hfound⟩ : ∃ t, toks[n]? = some t ∧ found t := by
          cases hget : toks[n]? with
          | none => simp [hget] at hn
          | some t => exact ⟨t, rfl, by simpa [hget] using hn⟩
        exact ⟨Nat.lt_succ_self n, ⟨t, ht, hfound⟩, fun j t hj hjn => by omega⟩
      · next hn =>
        obtain ⟨hi, hfound, hafter⟩ := ih h
        refine ⟨by omega, hfound, fun j t hj hjn ht => ?_⟩
        by_cases hjeq : j = n
        · subst hjeq
          simpa [ht] using hn
        · exact hafter j t hj (by omega) ht

theorem searchDown_eq_none {found : JsmnTok → Bool} {toks : List JsmnTok} {n : Nat}
    (h : searchDown found toks n = none) :
    ∀ j t, j < n → toks[j]? = some t → ¬ found t := by
  induction n with
  | zero => intro j t hj; omega
  | succ n ih =>
      rw [searchDown] at h
      split at h
      · simp at h
      · next hn =>
        intro j t hj ht
        by_cases hjeq : j = n
        · subst hjeq
          simpa [ht] using hn
        · exact ih h j t (by omega) ht

theorem searchDown_ge {found : JsmnTok → Bool} {toks : List JsmnTok} {n j : Nat} {t : JsmnTok}
    (hj : j < n) (ht : toks[j]? = some t) (hfound : found t) :
    ∃ i, searchDown found toks n = some i ∧ j ≤ i := by
  cases hsearch : searchDown found toks n with
  | none => exact absurd hfound (searchDown_eq_none hsearch j t hj ht)
  | some i =>
      refine ⟨i, rfl, ?_⟩
      by_contra hij
      exact (searchDown_eq_some hsearch).2.2 j t (by omega) hj ht hfound

section Steps

variable {js : Bytes} {numTokens : Nat} {p : JsmnParser}

theorem openContainer_eq (hsuper : p.SuperIn) (type : JsmnType) :
    openContainer numTokens type p =
      if numTokens ≤ p.toknext then .error .nomem
      else if (p.toksuper.bind (p.toks[·]?)).any (·.type == .object) then .error .inval
      else .ok { p.push { type, start := p.pos, stop := -1, size := 0 } with
        toksuper := some p.toknext } := by
  unfold openContainer jsmnAllocToken
  by_cases hmem : numTokens ≤ p.toks.length
  · simp [hmem, bind, Except.bind]
  · simp only [hmem, if_false, bind, Except.bind]
    rw [bumpSuper_append hsuper]
    have hlen : p.toknext = (bumpSuper p.toksuper p.toks).length := by simp
    rw [hlen, modify_append_cons]
    rfl

theorem jsmnParseString_eq (hsuper : p.SuperIn) :
    countToken <$> jsmnParseString js numTokens p =
      (scanString js (js.length + 1) (p.pos + 1)).bind fun stop =>
        if numTokens ≤ p.toknext then .error .nomem
        else .ok { p.push ⟨.string, (p.pos + 1 : Nat), stop, 0⟩ with pos := stop } := by
  unfold jsmnParseString jsmnAllocToken
  cases scanString js (js.length + 1) (p.pos + 1) with
  | error e => rfl
  | ok stop =>
      by_cases hmem : numTokens ≤ p.toks.length
      · simp [hmem, bind, Except.bind]
      · simp only [hmem, if_false, bind, Except.bind]
        rw [modify_append_cons]
        simp [countToken, JsmnParser.push, bumpSuper_append hsuper, jsmnFillToken]

theorem jsmnParsePrimitive_eq (hsuper : p.SuperIn) :
    countToken <$> jsmnParsePrimitive js numTokens p =
      (scanPrimitive js (js.length + 1) p.pos).bind fun stop =>
        if numTokens ≤ p.toknext then .error .nomem
        else .ok { p.push ⟨.primitive, p.pos, stop, 0⟩ with pos := stop - 1 } := by
  unfold jsmnParsePrimitive jsmnAllocToken
  cases scanPrimitive js (js.length + 1) p.pos with
  | error e => rfl
  | ok stop =>
      by_cases hmem : numTokens ≤ p.toks.length
      · simp [hmem, bind, Except.bind]
      · simp only [hmem, if_false, bind, Except.bind]
        rw [modify_append_cons]
        simp [countToken, JsmnParser.push, bumpSuper_append hsuper, jsmnFillToken]

/-- What the body of the main loop does to the parser at the byte `c`. -/
inductive JsmnEffect (js : Bytes) (numTokens : Nat) (c : UInt8) (p : JsmnParser) :
    JsmnParser → Prop where
  | skip : JsmnEffect js numTokens c p p
  | string {stop : Nat} (hroom : p.toknext < numTokens)
      (hscan : scanString js (js.length + 1) (p.pos + 1) = .ok stop) :
      JsmnEffect js numTokens c p { p.push ⟨.string, (p.pos + 1 : Nat), stop, 0⟩ with pos := stop }
  | primitive {stop : Nat} (hroom : p.toknext < numTokens) (hstarts : startsPrimitive c = true)
      (hscan : scanPrimitive js (js.length + 1) p.pos = .ok stop) :
      JsmnEffect js numTokens c p { p.push ⟨.primitive, p.pos, stop, 0⟩ with pos := stop - 1 }
  | opened {type : JsmnType} (hroom : p.toknext < numTokens)
      (htype : c = lbrace ∧ type = .object ∨ c = lbracket ∧ type = .array) :
      JsmnEffect js numTokens c p
        { p.push { type, start := p.pos, stop := -1, size := 0 } with toksuper := some p.toknext }
  | closed {i : Nat} {toks : List JsmnTok}
      (hfound : searchDown JsmnTok.isOpen p.toks p.toknext = some i)
      (htoks : toks = p.toks.modify i fun t => { t with stop := p.pos + 1 }) :
      JsmnEffect js numTokens c p
        { p with toks, toksuper := searchDown JsmnTok.isOpen toks (i + 1) }
  | colon : JsmnEffect js numTokens c p { p with toksuper := p.lastTok }
  | comma {i : Nat}
      (hfound : searchDown (fun t => t.isContainer && t.isOpen) p.toks p.toknext = some i) :
      JsmnEffect js numTokens c p { p with toksuper := some i }

/-- What an iteration of the main loop can do to the parser, the `pos++` included. -/
inductive JsmnMove (js : Bytes) (numTokens : Nat) (p : JsmnParser) : JsmnParser → Prop where
  | skip : JsmnMove js numTokens p { p with pos := p.pos + 1 }
  | leaf {t : JsmnTok} {pos : Nat} (hroom : p.toknext < numTokens) (hpos : p.pos < pos)
      (hsize : t.size = 0) (htype : t.isContainer = false) (hstart : 0 ≤ t.start)
      (hstop : t.start ≤ t.stop) (hin : t.stop ≤ js.length) :
      JsmnMove js numTokens p { p.push t with pos }
  | opened {type : JsmnType} (hroom : p.toknext < numTokens)
      (htype : type = .object ∨ type = .array) :
      JsmnMove js numTokens p
        { p.push { type, start := p.pos, stop := -1, size := 0 } with
          toksuper := some p.toknext, pos := p.pos + 1 }
  | closed {i : Nat} {toks : List JsmnTok} (hpos : p.pos < js.length)
      (hfound : searchDown JsmnTok.isOpen p.toks p.toknext = some i)
      (htoks : toks = p.toks.modify i fun t => { t with stop := p.pos + 1 }) :
      JsmnMove js numTokens p
        { p with toks, toksuper := searchDown JsmnTok.isOpen toks (i + 1), pos := p.pos + 1 }
  | colon : JsmnMove js numTokens p { p with toksuper := p.lastTok, pos := p.pos + 1 }
  | comma {i : Nat}
      (hfound : searchDown (fun t => t.isContainer && t.isOpen) p.toks p.toknext = some i) :
      JsmnMove js numTokens p { p with toksuper := some i, pos := p.pos + 1 }

theorem peek_lt {js : Bytes} {pos : Nat} {c : UInt8} (h : peek js pos = some c) :
    pos < js.length ∧ js[pos]? = some c ∧ c ≠ 0 := by
  obtain ⟨hget, hne⟩ := Option.filter_eq_some_iff.mp h
  refine ⟨?_, hget, by simpa using hne⟩
  exact (List.getElem?_eq_some_iff.mp hget).1

theorem scanHex_le {js : Bytes} {i pos stop : Nat} (h : scanHex js i pos = .ok stop) :
    pos ≤ stop := by
  induction i generalizing pos with
  | zero =>
      obtain rfl : pos = stop := by simpa [scanHex] using h
      exact le_rfl
  | succ i ih =>
      rw [scanHex] at h
      split at h
      · obtain rfl : pos = stop := by simpa using h
        exact le_rfl
      · split at h
        · exact Nat.le_of_succ_le (ih h)
        · cases h

theorem scanEscape_le {js : Bytes} {pos stop : Nat} (h : scanEscape js pos = .ok stop) :
    pos ≤ stop := by
  unfold scanEscape at h
  split at h
  · cases h
  · split at h
    · obtain rfl : pos = stop := by simpa using h
      exact le_rfl
    · split at h
      · cases hhex : scanHex js 4 (pos + 1) with
        | error e => simp [hhex, bind, Except.bind] at h
        | ok p =>
            have hle := scanHex_le hhex
            simp only [hhex, bind, Except.bind, Except.ok.injEq] at h
            omega
      · cases h

theorem scanString_bounds {js : Bytes} {fuel pos stop : Nat}
    (h : scanString js fuel pos = .ok stop) : pos ≤ stop ∧ stop < js.length := by
  induction fuel generalizing pos with
  | zero => cases h
  | succ fuel ih =>
      rw [scanString] at h
      split at h
      · cases h
      · next c hpeek =>
        split at h
        · obtain rfl : pos = stop := by simpa using h
          exact ⟨le_rfl, (peek_lt hpeek).1⟩
        · split at h
          · cases hesc : scanEscape js (pos + 1) with
            | error e => simp [hesc, bind, Except.bind] at h
            | ok p =>
                have hle := scanEscape_le hesc
                simp only [hesc, bind, Except.bind] at h
                have := ih h
                omega
          · have := ih h
            omega

/-- The scan of a string stops at its closing quote. -/
theorem scanString_quote {js : Bytes} {fuel pos stop : Nat}
    (h : scanString js fuel pos = .ok stop) : js[stop]? = some quote := by
  induction fuel generalizing pos with
  | zero => cases h
  | succ fuel ih =>
      rw [scanString] at h
      split at h
      · cases h
      · next c hpeek =>
        split at h
        · next hquote =>
          obtain rfl := Except.ok.inj h
          rw [← hquote]
          exact (peek_lt hpeek).2.1
        · split at h
          · cases hesc : scanEscape js (pos + 1) with
            | error e => simp [hesc, bind, Except.bind] at h
            | ok last =>
                simp only [hesc, bind, Except.bind] at h
                exact ih h
          · exact ih h

theorem scanPrimitive_bounds {js : Bytes} {fuel pos stop : Nat}
    (h : scanPrimitive js fuel pos = .ok stop) : pos ≤ stop ∧ stop < js.length := by
  induction fuel generalizing pos with
  | zero => cases h
  | succ fuel ih =>
      rw [scanPrimitive] at h
      split at h
      · cases h
      · next c hpeek =>
        split at h
        · obtain rfl : pos = stop := by simpa using h
          exact ⟨le_rfl, (peek_lt hpeek).1⟩
        · split at h
          · cases h
          · have := ih h
            omega

theorem scanPrimitive_ends {js : Bytes} {fuel pos stop : Nat}
    (h : scanPrimitive js fuel pos = .ok stop) :
    ∃ c, js[stop]? = some c ∧ endsPrimitive c = true := by
  induction fuel generalizing pos with
  | zero => cases h
  | succ fuel ih =>
      rw [scanPrimitive] at h
      split at h
      · cases h
      · next c hpeek =>
        split at h
        · next hends =>
          obtain rfl := Except.ok.inj h
          exact ⟨c, (peek_lt hpeek).2.1, hends⟩
        · split at h
          · cases h
          · exact ih h

theorem scanPrimitive_lt {js : Bytes} {fuel pos stop : Nat} {c : UInt8}
    (hpeek : peek js pos = some c) (hends : endsPrimitive c = false)
    (h : scanPrimitive js fuel pos = .ok stop) : pos < stop := by
  cases fuel with
  | zero => cases h
  | succ fuel =>
      rw [scanPrimitive, hpeek] at h
      simp only [hends, Bool.false_eq_true, if_false] at h
      split at h
      · cases h
      · exact (scanPrimitive_bounds h).1

theorem not_endsPrimitive {c : UInt8} (h : startsPrimitive c = true) :
    endsPrimitive c = false := by
  rw [Bool.eq_false_iff]
  intro hends
  simp only [endsPrimitive, isWhitespace, Bool.or_eq_true, beq_iff_eq] at hends
  rcases hends with (((((rfl | rfl) | rfl) | rfl) | rfl) | rfl) | rfl <;>
    exact absurd h (by decide)

/-- The branch that the main loop takes depends on the byte and on the parser only. -/
theorem jsmnStep_cases (c : UInt8) (p : JsmnParser) :
    (∃ type, (c = lbrace ∧ type = .object ∨ c = lbracket ∧ type = .array) ∧
        ∀ js n, jsmnStep js n c p = openContainer n type p) ∨
      (∃ type, ∀ js n, jsmnStep js n c p = closeContainer type p) ∨
      (∀ js n, jsmnStep js n c p = countToken <$> jsmnParseString js n p) ∨
      (startsPrimitive c = true ∧
        ∀ js n, jsmnStep js n c p = countToken <$> jsmnParsePrimitive js n p) ∨
      (∃ q, (q = p ∨ q = { p with toksuper := p.lastTok } ∨ q = afterComma p) ∧
        ∀ js n, jsmnStep js n c p = .ok q) ∨
      ∀ js n, jsmnStep js n c p = .error .inval := by
  by_cases hlbrace : c = lbrace
  · subst hlbrace
    exact .inl ⟨.object, .inl ⟨rfl, rfl⟩, fun _ _ => rfl⟩
  by_cases hlbracket : c = lbracket
  · subst hlbracket
    exact .inl ⟨.array, .inr ⟨rfl, rfl⟩, fun _ _ => rfl⟩
  by_cases hrbrace : c = rbrace
  · subst hrbrace
    exact .inr (.inl ⟨.object, fun _ _ => rfl⟩)
  by_cases hrbracket : c = rbracket
  · subst hrbracket
    exact .inr (.inl ⟨.array, fun _ _ => rfl⟩)
  by_cases hquote : c = quote
  · subst hquote
    exact .inr (.inr (.inl fun _ _ => rfl))
  refine .inr (.inr (.inr ?_))
  have hrest : ∀ js n, jsmnStep js n c p = _ := fun js n =>
    (if_neg hlbrace).trans <| (if_neg hlbracket).trans <| (if_neg hrbrace).trans <|
      (if_neg hrbracket).trans (if_neg hquote)
  by_cases hblank : isWhitespace c
  · exact .inr (.inl ⟨p, .inl rfl, fun js n => (hrest js n).trans (if_pos hblank)⟩)
  by_cases hcolon : c = colon
  · subst hcolon
    exact .inr (.inl ⟨_, .inr (.inl rfl), fun _ _ => rfl⟩)
  by_cases hcomma : c = comma
  · subst hcomma
    exact .inr (.inl ⟨_, .inr (.inr rfl), fun _ _ => rfl⟩)
  have hlast : ∀ js n, jsmnStep js n c p = _ := fun js n =>
    (hrest js n).trans <| (if_neg hblank).trans <| (if_neg hcolon).trans (if_neg hcomma)
  by_cases hstarts : startsPrimitive c
  · by_cases hrejects : (p.toksuper.bind (p.toks[·]?)).any rejectsPrimitive
    · exact .inr (.inr fun js n => (hlast js n).trans <| (if_pos hstarts).trans (if_pos hrejects))
    · exact .inl ⟨hstarts, fun js n =>
        (hlast js n).trans <| (if_pos hstarts).trans (if_neg hrejects)⟩
  · exact .inr (.inr fun js n => (hlast js n).trans (if_neg hstarts))

theorem closeContainer_effect {c : UInt8} {type : JsmnType} {p' : JsmnParser}
    (h : closeContainer type p = .ok p') : JsmnEffect js numTokens c p p' := by
  unfold closeContainer at h
  split at h
  · cases h
  · next i hfound =>
    split at h
    · cases h
    · obtain rfl := Except.ok.inj h
      exact .closed hfound rfl

theorem afterComma_effect {c : UInt8} : JsmnEffect js numTokens c p (afterComma p) := by
  unfold afterComma
  split
  · split
    · exact .skip
    · next i hfound => exact .comma hfound
  · exact .skip

theorem openContainer_effect {c : UInt8} {type : JsmnType} {p' : JsmnParser} (hsuper : p.SuperIn)
    (htype : c = lbrace ∧ type = .object ∨ c = lbracket ∧ type = .array)
    (h : openContainer numTokens type p = .ok p') : JsmnEffect js numTokens c p p' := by
  rw [openContainer_eq hsuper] at h
  split at h
  · cases h
  · next hroom =>
    split at h
    · cases h
    · obtain rfl := Except.ok.inj h
      exact .opened (Nat.lt_of_not_le hroom) htype

theorem jsmnStep_effect {c : UInt8} {p' : JsmnParser} (hsuper : p.SuperIn)
    (h : jsmnStep js numTokens c p = .ok p') : JsmnEffect js numTokens c p p' := by
  obtain ⟨type, htype, hstep⟩ | ⟨type, hstep⟩ | hstep | ⟨hstarts, hstep⟩ | ⟨q, hq, hstep⟩ | hstep :=
    jsmnStep_cases c p <;> rw [hstep] at h
  · exact openContainer_effect hsuper htype h
  · exact closeContainer_effect h
  · rw [jsmnParseString_eq hsuper] at h
    cases hscan : scanString js (js.length + 1) (p.pos + 1) with
    | error e => rw [hscan] at h; cases h
    | ok stop =>
        simp only [hscan, Except.bind] at h
        split at h
        · cases h
        · next hroom =>
          obtain rfl := Except.ok.inj h
          exact .string (Nat.lt_of_not_le hroom) hscan
  · rw [jsmnParsePrimitive_eq hsuper] at h
    cases hscan : scanPrimitive js (js.length + 1) p.pos with
    | error e => rw [hscan] at h; cases h
    | ok stop =>
        simp only [hscan, Except.bind] at h
        split at h
        · cases h
        · next hroom =>
          obtain rfl := Except.ok.inj h
          exact .primitive (Nat.lt_of_not_le hroom) hstarts hscan
  · obtain rfl := Except.ok.inj h
    obtain rfl | rfl | rfl := hq
    · exact .skip
    · exact .colon
    · exact afterComma_effect
  · cases h

theorem JsmnEffect.move {c : UInt8} {p' : JsmnParser} (h : JsmnEffect js numTokens c p p')
    (hpeek : peek js p.pos = some c) : JsmnMove js numTokens p { p' with pos := p'.pos + 1 } := by
  cases h with
  | skip => exact .skip
  | colon => exact .colon
  | comma hfound => exact .comma hfound
  | closed hfound htoks => exact .closed (peek_lt hpeek).1 hfound htoks
  | opened hroom htype => exact .opened hroom (htype.imp And.right And.right)
  | @string stop hroom hscan =>
      have hbounds := scanString_bounds hscan
      exact .leaf hroom (by simp; omega) rfl rfl (by simp; omega) (by simp; omega) (by simp; omega)
  | @primitive stop hroom hstarts hscan =>
      have hbounds := scanPrimitive_bounds hscan
      have hlt := scanPrimitive_lt hpeek (not_endsPrimitive hstarts) hscan
      exact .leaf hroom (by simp; omega) rfl rfl (by simp) (by simp; omega) (by simp; omega)

theorem jsmnStep_move {c : UInt8} {p' : JsmnParser} (hsuper : p.SuperIn)
    (hpeek : peek js p.pos = some c) (h : jsmnStep js numTokens c p = .ok p') :
    JsmnMove js numTokens p { p' with pos := p'.pos + 1 } :=
  (jsmnStep_effect hsuper h).move hpeek

end Steps

/-! ### The forest -/

def sizeAt (toks : List JsmnTok) (i : Nat) : Nat :=
  match toks[i]? with
  | none => 0
  | some t => t.size

/-- The tokens form a forest, and the superior token as well as every open token lies on the path
from a root to the last token, the open ones no deeper than the superior one. -/
structure JsmnParser.Spine (p : JsmnParser) : Prop where
  forest : ∃ k, Trees (sizeAt p.toks) k 0 p.toknext
  super : ∀ s, p.toksuper = some s → Subtree (sizeAt p.toks) s p.toknext
  opens : ∀ i t, p.toks[i]? = some t → t.isOpen →
    Subtree (sizeAt p.toks) i p.toknext ∧ ∃ s, p.toksuper = some s ∧ i ≤ s
  containers : ∀ (i : Nat) (t : JsmnTok), p.toks[i]? = some t → t.isOpen → t.isContainer

theorem JsmnParser.Spine.superIn {p : JsmnParser} (h : p.Spine) : p.SuperIn := by
  intro s hs
  have := (h.super s hs).le
  omega

theorem sizeAt_congr {toks toks' : List JsmnTok} {i : Nat}
    (h : (toks'[i]?).map (·.size) = (toks[i]?).map (·.size)) : sizeAt toks' i = sizeAt toks i := by
  unfold sizeAt
  cases htok : toks[i]? <;> cases htok' : toks'[i]? <;> simp_all

section Push

variable {p : JsmnParser} {t : JsmnTok} {i : Nat}

theorem getElem?_push_of_lt (hi : i < p.toknext) :
    (p.push t).toks[i]? =
      if p.toksuper = some i then (p.toks[i]?).map JsmnTok.bump else p.toks[i]? := by
  unfold JsmnParser.push
  rw [List.getElem?_append_left (by simpa using hi)]
  cases hsuper : p.toksuper with
  | none => simp [bumpSuper]
  | some s => by_cases hs : s = i <;> simp [bumpSuper, hs]

theorem getElem?_push_last : (p.push t).toks[p.toknext]? = some t := by
  unfold JsmnParser.push
  rw [List.getElem?_append_right (by simp)]
  simp

@[simp]
theorem push_toknext : (p.push t).toknext = p.toknext + 1 := by
  simp [JsmnParser.toknext, JsmnParser.push]

theorem sizeAt_push_of_ne (hi : i < p.toknext) (hsuper : p.toksuper ≠ some i) :
    sizeAt (p.push t).toks i = sizeAt p.toks i := by
  unfold sizeAt
  rw [getElem?_push_of_lt hi, if_neg hsuper]

theorem sizeAt_push_super (hi : i < p.toknext) (hsuper : p.toksuper = some i) :
    sizeAt (p.push t).toks i = sizeAt p.toks i + 1 := by
  unfold sizeAt
  rw [getElem?_push_of_lt hi, if_pos hsuper]
  have htok : p.toks[i]? = some p.toks[i] := List.getElem?_eq_getElem hi
  rw [htok]
  rfl

theorem sizeAt_push_last (hsize : t.size = 0) : sizeAt (p.push t).toks p.toknext = 0 := by
  unfold sizeAt
  rw [getElem?_push_last]
  exact hsize

theorem subtree_push_last (hsize : t.size = 0) :
    Subtree (sizeAt (p.push t).toks) p.toknext (p.push t).toknext := by
  rw [Subtree, sizeAt_push_last hsize, push_toknext]
  exact .nil _

/-- A new token reaches every node above the superior one. -/
theorem subtree_push (h : p.Spine) (hsize : t.size = 0) {s : Nat} (hs : p.toksuper = some s)
    (his : i ≤ s) (hsub : Subtree (sizeAt p.toks) i p.toknext) :
    Subtree (sizeAt (p.push t).toks) i (p.push t).toknext := by
  rw [push_toknext]
  have hsn := h.superIn s hs
  have hold : ∀ x, x < p.toknext → x ≠ s → sizeAt (p.push t).toks x = sizeAt p.toks x :=
    fun x hx hxs => sizeAt_push_of_ne hx (by simpa [hs] using Ne.symm hxs)
  by_cases hi : i = s
  · subst hi
    rw [Subtree, sizeAt_push_super hsn hs, Nat.add_comm]
    have hchildren : Trees (sizeAt (p.push t).toks) (sizeAt p.toks i) (i + 1) p.toknext :=
      hsub.congr fun x hx hxn => hold x hxn (by omega)
    exact hchildren.append (.leaf (sizeAt_push_last hsize))
  · rw [Subtree, hold i (by omega) hi]
    exact Trees.grow hold (sizeAt_push_super hsn hs) (sizeAt_push_last hsize) (h.super s hs) hsub
      (by omega)

theorem forest_push (h : p.Spine) (hsize : t.size = 0) :
    ∃ k, Trees (sizeAt (p.push t).toks) k 0 (p.push t).toknext := by
  rw [push_toknext]
  obtain ⟨k, hk⟩ := h.forest
  cases hs : p.toksuper with
  | none =>
      refine ⟨k + 1, Trees.grow_root (fun x hx => ?_) (sizeAt_push_last hsize) hk⟩
      exact sizeAt_push_of_ne hx (by simp [hs])
  | some s =>
      have hsn := h.superIn s hs
      refine ⟨k, Trees.grow (fun x hx hxs => ?_) (sizeAt_push_super hsn hs)
        (sizeAt_push_last hsize) (h.super s hs) hk (Nat.zero_le s)⟩
      exact sizeAt_push_of_ne hx (by simpa [hs] using Ne.symm hxs)

theorem opens_push (h : p.Spine) (hsize : t.size = 0) (hi : i < p.toknext) {u : JsmnTok}
    (hu : (p.push t).toks[i]? = some u) (hopen : u.isOpen) :
    Subtree (sizeAt (p.push t).toks) i (p.push t).toknext ∧
      (∃ s, p.toksuper = some s ∧ i ≤ s) ∧ u.isContainer := by
  obtain ⟨w, hw, hwopen, hcontainer⟩ : ∃ w, p.toks[i]? = some w ∧ w.isOpen ∧
      (w.isContainer → u.isContainer) := by
    rw [getElem?_push_of_lt hi] at hu
    split at hu
    · obtain ⟨w, hw, rfl⟩ := Option.map_eq_some_iff.mp hu
      exact ⟨w, hw, hopen, id⟩
    · exact ⟨u, hu, hopen, id⟩
  obtain ⟨hsub, s, hs, his⟩ := h.opens i w hw hwopen
  exact ⟨subtree_push h hsize hs his hsub, ⟨s, hs, his⟩, hcontainer (h.containers i w hw hwopen)⟩

end Push

theorem jsmnInit_spine : jsmnInit.Spine where
  forest := ⟨0, .nil 0⟩
  super := by simp [jsmnInit]
  opens := by simp [jsmnInit]
  containers := by simp [jsmnInit]

theorem JsmnParser.Spine.of_same {p p' : JsmnParser} (h : p.Spine)
    (hlen : p'.toknext = p.toknext) (hsize : ∀ i, sizeAt p'.toks i = sizeAt p.toks i)
    (hsuper : ∀ s, p'.toksuper = some s → Subtree (sizeAt p.toks) s p.toknext)
    (hopens : ∀ i t, p'.toks[i]? = some t → t.isOpen → p.toks[i]? = some t ∧
      ∃ s, p'.toksuper = some s ∧ i ≤ s) :
    p'.Spine := by
  have hsizes : sizeAt p'.toks = sizeAt p.toks := funext hsize
  refine ⟨?_, ?_, ?_, fun i t ht hopen => h.containers i t (hopens i t ht hopen).1 hopen⟩
  · rw [hsizes, hlen]
    exact h.forest
  · rw [hsizes, hlen]
    exact hsuper
  · intro i t ht hopen
    obtain ⟨hu, hs⟩ := hopens i t ht hopen
    rw [hsizes, hlen]
    exact ⟨(h.opens i t hu hopen).1, hs⟩

/-- The last token is a leaf, so it lies on its own path. -/
theorem JsmnParser.Spine.lastTok {p : JsmnParser} (h : p.Spine) {s : Nat}
    (hs : p.lastTok = some s) : Subtree (sizeAt p.toks) s p.toknext := by
  unfold JsmnParser.lastTok at hs
  split at hs
  · cases hs
  · next hne =>
    obtain rfl := Option.some.inj hs
    obtain ⟨k, hk⟩ := h.forest
    obtain ⟨n, hn⟩ : ∃ n, p.toknext = n + 1 := ⟨p.toknext - 1, by omega⟩
    rw [hn] at hk ⊢
    rw [Nat.add_sub_cancel, Subtree, hk.size_last (Nat.zero_le n)]
    exact .nil _

theorem lt_or_last {p : JsmnParser} {t u : JsmnTok} {i : Nat} (hu : (p.push t).toks[i]? = some u) :
    i < p.toknext ∨ i = p.toknext := by
  have hi : i < (p.push t).toknext := (List.getElem?_eq_some_iff.mp hu).1
  rw [push_toknext] at hi
  omega

theorem open_of_close {toks : List JsmnTok} {i j pos : Nat} {u : JsmnTok}
    (hu : (toks.modify i fun t => { t with stop := (pos : Int) + 1 })[j]? = some u)
    (hopen : u.isOpen) : toks[j]? = some u ∧ i ≠ j := by
  rw [List.getElem?_modify] at hu
  split at hu
  · obtain ⟨w, hw, rfl⟩ := Option.map_eq_some_iff.mp hu
    have hstop : (pos : Int) + 1 ≠ -1 := by omega
    simp [JsmnTok.isOpen, hstop] at hopen
  · next hij => exact ⟨by simpa using hu, hij⟩

theorem JsmnMove.spine {js : Bytes} {numTokens : Nat} {p p' : JsmnParser}
    (hmove : JsmnMove js numTokens p p') (h : p.Spine) : p'.Spine := by
  cases hmove with
  | skip =>
      refine h.of_same rfl (fun _ => rfl) h.super fun i t ht hopen => ?_
      exact ⟨ht, (h.opens i t ht hopen).2⟩
  | @leaf t pos hroom hpos hsize htype hstart hstop hin =>
      have hlast : t.isOpen = false := by
        have hstopne : t.stop ≠ -1 := by omega
        simp [JsmnTok.isOpen, hstopne]
      have hopens : ∀ i u, (p.push t).toks[i]? = some u → u.isOpen → i < p.toknext := by
        intro i u hu hopen
        rcases lt_or_last hu with hi | rfl
        · exact hi
        · obtain rfl : t = u := Option.some.inj (getElem?_push_last.symm.trans hu)
          simp [hlast] at hopen
      refine ⟨forest_push h hsize, fun s hs => subtree_push h hsize hs le_rfl (h.super s hs),
        fun i u hu hopen => ?_, fun i u hu hopen => ?_⟩
      · have hreach := opens_push h hsize (hopens i u hu hopen) hu hopen
        exact ⟨hreach.1, hreach.2.1⟩
      · exact (opens_push h hsize (hopens i u hu hopen) hu hopen).2.2
  | @opened type hroom htype =>
      refine ⟨forest_push h rfl, ?_, fun i u hu hopen => ?_, fun i u hu hopen => ?_⟩
      · rintro s hs
        obtain rfl := Option.some.inj hs
        exact subtree_push_last rfl
      · rcases lt_or_last hu with hi | rfl
        · exact ⟨(opens_push h rfl hi hu hopen).1, _, rfl, by omega⟩
        · exact ⟨subtree_push_last rfl, _, rfl, le_rfl⟩
      · rcases lt_or_last hu with hi | rfl
        · exact (opens_push h rfl hi hu hopen).2.2
        · obtain rfl := Option.some.inj (getElem?_push_last.symm.trans hu)
          rcases htype with rfl | rfl <;> rfl
  | @closed i toks hpos hfound htoks =>
      subst htoks
      obtain ⟨hi, ⟨t, ht, htopen⟩, hafter⟩ := searchDown_eq_some hfound
      refine h.of_same (by simp [JsmnParser.toknext]) (fun j => sizeAt_congr ?_)
        (fun s hs => ?_) fun j u hu hopen => ?_
      · by_cases hj : i = j <;> cases htok : p.toks[j]? <;>
          simp [hj, htok]
      · obtain ⟨hs, ⟨u, hu, hopen⟩, _⟩ := searchDown_eq_some hs
        exact (h.opens s u (open_of_close hu hopen).1 hopen).1
      · obtain ⟨hw, hij⟩ := open_of_close hu hopen
        have hjn : j < p.toknext := (List.getElem?_eq_some_iff.mp hw).1
        have hji : j < i := by
          by_contra hge
          exact hafter j u (by omega) hjn hw hopen
        exact ⟨hw, searchDown_ge (by omega) hu hopen⟩
  | colon =>
      refine h.of_same rfl (fun _ => rfl) (fun s hs => h.lastTok hs) fun i t ht hopen => ?_
      have hi : i < p.toknext := (List.getElem?_eq_some_iff.mp ht).1
      refine ⟨ht, p.toknext - 1, ?_, by omega⟩
      exact if_neg (by omega)
  | @comma i hfound =>
      obtain ⟨hi, ⟨t, ht, hfoundt⟩, hafter⟩ := searchDown_eq_some hfound
      rw [Bool.and_eq_true] at hfoundt
      refine h.of_same rfl (fun _ => rfl) (fun s hs => ?_) fun j u hu hopen => ?_
      · obtain rfl := Option.some.inj hs
        exact (h.opens i t ht hfoundt.2).1
      · refine ⟨hu, i, rfl, ?_⟩
        by_contra hij
        have hju : j < p.toknext := (List.getElem?_eq_some_iff.mp hu).1
        apply hafter j u (by omega) hju hu
        simp [h.containers j u hu hopen, hopen]

/-! ### Runs of the tokenizer -/

section Runs

variable {js : Bytes} {numTokens : Nat}

/-- What the body of the main loop preserves at every byte holds at the end of the text. -/
theorem jsmnLoop_effects {I : JsmnParser → Prop}
    (hstep : ∀ p p' c, p.Spine → I p → peek js p.pos = some c → JsmnEffect js numTokens c p p' →
      I { p' with pos := p'.pos + 1 }) {fuel : Nat}
    {p p' : JsmnParser} (hspine : p.Spine) (hinv : I p)
    (hloop : jsmnLoop js numTokens fuel p = .ok p') : p'.Spine ∧ I p' := by
  induction fuel generalizing p with
  | zero =>
      obtain rfl := Except.ok.inj hloop
      exact ⟨hspine, hinv⟩
  | succ fuel ih =>
      rw [jsmnLoop] at hloop
      split at hloop
      · obtain rfl := Except.ok.inj hloop
        exact ⟨hspine, hinv⟩
      · next c hpeek =>
        cases hq : jsmnStep js numTokens c p with
        | error e => simp [hq, bind, Except.bind] at hloop
        | ok q =>
            simp only [hq, bind, Except.bind] at hloop
            have heffect := jsmnStep_effect hspine.superIn hq
            exact ih ((heffect.move hpeek).spine hspine) (hstep _ _ c hspine hinv hpeek heffect) hloop

theorem jsmnLoop_invariant {I : JsmnParser → Prop}
    (hstep : ∀ p p', p.Spine → I p → JsmnMove js numTokens p p' → I p') {fuel : Nat}
    {p p' : JsmnParser} (hspine : p.Spine) (hinv : I p)
    (hloop : jsmnLoop js numTokens fuel p = .ok p') : p'.Spine ∧ I p' :=
  jsmnLoop_effects (fun _ _ _ hspine hinv hpeek heffect => hstep _ _ hspine hinv (heffect.move hpeek))
    hspine hinv hloop

/-- A token delimits a part of the text, or is open and starts before the current position. -/
def JsmnTok.InText (len pos : Nat) (t : JsmnTok) : Prop :=
  0 ≤ t.start ∧ (t.isOpen ∧ t.start ≤ pos ∨ t.start ≤ t.stop ∧ t.stop ≤ len)

theorem JsmnTok.InText.mono {len pos pos' : Nat} {t : JsmnTok} (h : t.InText len pos)
    (hpos : pos ≤ pos') : t.InText len pos' := by
  obtain ⟨hstart, ⟨hopen, hle⟩ | hclosed⟩ := h
  · exact ⟨hstart, .inl ⟨hopen, by omega⟩⟩
  · exact ⟨hstart, .inr hclosed⟩

structure JsmnParser.Counted (js : Bytes) (numTokens : Nat) (p : JsmnParser) : Prop where
  count : p.count = p.toknext
  room : p.toknext ≤ numTokens
  inText : ∀ t ∈ p.toks, t.InText js.length p.pos

/-- What holds of the tokens and of a new one holds after the push, where it is not about sizes. -/
theorem forall_push {P : JsmnTok → Prop} (hbump : ∀ t, P t → P t.bump) {p : JsmnParser}
    {t u : JsmnTok} (htoks : ∀ t ∈ p.toks, P t) (ht : P t) (hu : u ∈ (p.push t).toks) : P u := by
  rcases List.mem_append.mp hu with hu | hu
  · cases hsuper : p.toksuper with
    | none => exact htoks u (by simpa [bumpSuper, hsuper] using hu)
    | some s =>
        simp only [bumpSuper, hsuper] at hu
        obtain ⟨i, hi⟩ := List.mem_iff_getElem?.mp hu
        rw [List.getElem?_modify] at hi
        obtain ⟨w, hw, rfl⟩ := Option.map_eq_some_iff.mp hi
        have hw' := htoks w (List.mem_of_getElem? hw)
        split
        · exact hbump w hw'
        · exact hw'
  · obtain rfl := List.mem_singleton.mp hu
    exact ht

theorem inText_push {p : JsmnParser} {t u : JsmnTok} {len pos : Nat} (hpos : p.pos ≤ pos)
    (hinText : ∀ t ∈ p.toks, t.InText len p.pos) (ht : t.InText len pos)
    (hu : u ∈ (p.push t).toks) : u.InText len pos :=
  forall_push (fun _ h => h) (fun t ht => (hinText t ht).mono hpos) ht hu

theorem JsmnMove.counted {p p' : JsmnParser} (hmove : JsmnMove js numTokens p p')
    (h : p.Counted js numTokens) : p'.Counted js numTokens := by
  have hmono : ∀ t ∈ p.toks, t.InText js.length (p.pos + 1) :=
    fun t ht => (h.inText t ht).mono (Nat.le_succ p.pos)
  cases hmove with
  | skip | colon | comma => exact ⟨h.count, h.room, hmono⟩
  | @leaf t pos hroom hpos hsize htype hstart hstop hin =>
      refine ⟨?_, ?_, fun u hu => inText_push hpos.le h.inText ⟨hstart, .inr ⟨hstop, hin⟩⟩ hu⟩
      · exact (congrArg (· + 1) h.count).trans push_toknext.symm
      · exact push_toknext.le.trans hroom
  | @opened type hroom htype =>
      refine ⟨?_, ?_, fun u hu => inText_push (Nat.le_succ p.pos) h.inText ⟨?_, .inl ?_⟩ hu⟩
      · exact (congrArg (· + 1) h.count).trans push_toknext.symm
      · exact push_toknext.le.trans hroom
      · exact Int.natCast_nonneg p.pos
      · have hstart : (p.pos : Int) ≠ -1 := by omega
        exact ⟨by simp [JsmnTok.isOpen, hstart], by push_cast; omega⟩
  | @closed i toks hpos hfound htoks =>
      subst htoks
      refine ⟨by simpa [JsmnParser.toknext] using h.count,
        by simpa [JsmnParser.toknext] using h.room, fun u hu => ?_⟩
      obtain ⟨j, hj⟩ := List.mem_iff_getElem?.mp hu
      rw [List.getElem?_modify] at hj
      obtain ⟨w, hw, rfl⟩ := Option.map_eq_some_iff.mp hj
      split
      · next hij =>
        subst hij
        obtain ⟨_, ⟨t, ht, hopen⟩, _⟩ := searchDown_eq_some hfound
        obtain rfl : w = t := Option.some.inj (hw.symm.trans ht)
        obtain ⟨hstart, ⟨_, hle⟩ | ⟨hle, hstop⟩⟩ := h.inText w (List.mem_of_getElem? hw)
        · exact ⟨hstart, .inr ⟨by simp; omega, by simp; omega⟩⟩
        · -- an open token has no end yet
          simp only [JsmnTok.isOpen, Bool.and_eq_true, beq_iff_eq] at hopen
          omega
      · exact hmono w (List.mem_of_getElem? hw)

/-- The tokens of a document: a forest in preorder, each token a part of the text. -/
structure Tokens (js : Bytes) (toks : List JsmnTok) : Prop where
  forest : ∃ k, Trees (sizeAt toks) k 0 toks.length
  inText : ∀ t ∈ toks, 0 ≤ t.start ∧ t.start ≤ t.stop ∧ t.stop ≤ js.length

theorem jsmnParse_tokens {p : JsmnParser} (h : jsmnParse js numTokens = .ok p) :
    Tokens js p.toks ∧ p.count = p.toks.length ∧ p.toks.length ≤ numTokens := by
  unfold jsmnParse at h
  cases hloop : jsmnLoop js numTokens js.length jsmnInit with
  | error e => simp [hloop, bind, Except.bind] at h
  | ok q =>
      simp only [hloop, bind, Except.bind] at h
      split at h
      · cases h
      · next hclosed =>
        obtain rfl := Except.ok.inj h
        have hcounted : jsmnInit.Counted js numTokens :=
          ⟨rfl, Nat.zero_le _, by simp [jsmnInit]⟩
        obtain ⟨hspine, hq⟩ := jsmnLoop_invariant
          (fun p p' _ hinv hmove => hmove.counted hinv) jsmnInit_spine hcounted hloop
        refine ⟨⟨hspine.forest, fun t ht => ?_⟩, hq.count, hq.room⟩
        obtain ⟨hstart, ⟨hopen, _⟩ | hbounds⟩ := hq.inText t ht
        · exact absurd (List.any_eq_true.mpr ⟨t, ht, hopen⟩) hclosed
        · exact ⟨hstart, hbounds⟩

/-- In a text shorter than 2^31 bytes every offset is one that an `int` holds. -/
theorem jsmnParse_int {p : JsmnParser} (hshort : js.length < 2 ^ 31)
    (h : jsmnParse js numTokens = .ok p) {t : JsmnTok} (ht : t ∈ p.toks) :
    (BitVec.ofInt 32 t.start).toInt = t.start ∧ (BitVec.ofInt 32 t.stop).toInt = t.stop := by
  obtain ⟨hstart, hle, hstop⟩ := (jsmnParse_tokens h).1.inText t ht
  rw [BitVec.toInt_ofInt, BitVec.toInt_ofInt]
  exact ⟨Int.bmod_eq_of_le (by omega) (by omega), Int.bmod_eq_of_le (by omega) (by omega)⟩

/-! ### What frames a token -/

/-- An object or an array starts with its bracket. The text of any other token is followed by the
closing quote of a string or by a byte that ends a primitive. -/
def JsmnTok.Framed (js : Bytes) (t : JsmnTok) : Prop :=
  t.isContainer = true ∧ (∃ c, js[t.start.toNat]? = some c ∧ (c = lbrace ∨ c = lbracket)) ∨
    t.isContainer = false ∧ ∃ c, js[t.stop.toNat]? = some c ∧ (c = quote ∨ endsPrimitive c = true)

theorem JsmnEffect.framed {c : UInt8} {p p' : JsmnParser} (hspine : p.Spine)
    (hpeek : peek js p.pos = some c) (heffect : JsmnEffect js numTokens c p p')
    (h : ∀ t ∈ p.toks, t.Framed js) : ∀ t ∈ p'.toks, t.Framed js := by
  cases heffect with
  | skip | colon | comma => exact h
  | @string stop hroom hscan =>
      have hnew : JsmnTok.Framed js ⟨.string, (p.pos + 1 : Nat), stop, 0⟩ :=
        .inr ⟨rfl, quote, scanString_quote hscan, .inl rfl⟩
      exact fun u hu => forall_push (fun _ h => h) h hnew hu
  | @primitive stop hroom hstarts hscan =>
      obtain ⟨d, hd, hends⟩ := scanPrimitive_ends hscan
      have hnew : JsmnTok.Framed js ⟨.primitive, p.pos, stop, 0⟩ :=
        .inr ⟨rfl, d, hd, .inr hends⟩
      exact fun u hu => forall_push (fun _ h => h) h hnew hu
  | @opened type hroom htype =>
      have hcontainer : JsmnTok.isContainer ⟨type, p.pos, -1, 0⟩ = true := by
        rcases htype with ⟨-, rfl⟩ | ⟨-, rfl⟩ <;> rfl
      have hnew : JsmnTok.Framed js ⟨type, p.pos, -1, 0⟩ :=
        .inl ⟨hcontainer, c, (peek_lt hpeek).2.1, htype.imp And.left And.left⟩
      exact fun u hu => forall_push (fun _ h => h) h hnew hu
  | @closed i toks hfound htoks =>
      subst htoks
      obtain ⟨-, ⟨t, ht, hopen⟩, -⟩ := searchDown_eq_some hfound
      intro u hu
      obtain ⟨j, hj⟩ := List.mem_iff_getElem?.mp hu
      rw [List.getElem?_modify] at hj
      obtain ⟨w, hw, rfl⟩ := Option.map_eq_some_iff.mp hj
      have hframed := h w (List.mem_of_getElem? hw)
      split
      · next hij =>
        -- only a container is open, and its start stays where it is
        subst hij
        obtain rfl : w = t := Option.some.inj (hw.symm.trans ht)
        have hcontainer := hspine.containers i w hw hopen
        obtain ⟨-, hstart⟩ | ⟨hleaf, -⟩ := hframed
        · exact .inl ⟨hcontainer, hstart⟩
        · rw [hcontainer] at hleaf
          cases hleaf
      · exact hframed

theorem jsmnParse_framed {p : JsmnParser} (h : jsmnParse js numTokens = .ok p) {t : JsmnTok}
    (ht : t ∈ p.toks) : t.Framed js := by
  unfold jsmnParse at h
  cases hloop : jsmnLoop js numTokens js.length jsmnInit with
  | error e => simp [hloop, bind, Except.bind] at h
  | ok q =>
      simp only [hloop, bind, Except.bind] at h
      split at h
      · cases h
      · obtain rfl := Except.ok.inj h
        have hinit : ∀ t ∈ jsmnInit.toks, t.Framed js := by simp [jsmnInit]
        refine (jsmnLoop_effects (I := fun q => ∀ t ∈ q.toks, t.Framed js) ?_ jsmnInit_spine hinit
          hloop).2 t ht
        intro p p' c hspine hinv hpeek heffect
        have hnext := heffect.framed hspine hpeek hinv
        exact hnext

end Runs

end AtxSys
