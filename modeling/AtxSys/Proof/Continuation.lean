import AtxSys.Proof.TreeTokens

/-!
# What the rest of a run keeps

Once a run of the tokenizer has come to some state, every later state has its tokens: their type and
their start stay, a closed token keeps its end, and a closed token that is neither the last one nor
the superior one stays as it is.
-/

namespace AtxSys

open CText JsonSyntax Slices

/-! ### From a scan to its string -/

section Scan

variable {js : Bytes} {fuel pos stop : Nat}

/-- Four digits, or the end of the text comes first. -/
theorem scanHex_digits {i q : Nat} (h : scanHex js i pos = .ok q) :
    (q = pos + i ∧ ∀ k, k < i → ∃ c, js[pos + k]? = some c ∧ IsHex c) ∨ peek js q = none := by
  induction i generalizing pos with
  | zero =>
      obtain rfl := Except.ok.inj h
      exact .inl ⟨rfl, fun k hk => absurd hk (Nat.not_lt_zero k)⟩
  | succ i ih =>
      rw [scanHex] at h
      split at h
      · next hpeek =>
        obtain rfl := Except.ok.inj h
        exact .inr hpeek
      · next c hpeek =>
        split at h
        · next hdigit =>
          rcases ih h with ⟨rfl, hdigits⟩ | hend
          · refine .inl ⟨by omega, fun k hk => ?_⟩
            cases k with
            | zero => exact ⟨c, (peek_lt hpeek).2.1, isHexDigit_iff.mp hdigit⟩
            | succ k =>
                obtain ⟨d, hd, hhex⟩ := hdigits k (by omega)
                refine ⟨d, ?_, hhex⟩
                rw [← hd]
                congr 1
                omega
          · exact .inr hend
        · cases h

theorem scanString_peek (h : scanString js fuel pos = .ok stop) : peek js pos ≠ none := by
  intro hnone
  cases fuel with
  | zero => cases h
  | succ fuel =>
      rw [scanString, hnone] at h
      cases h

/-- What a scan has passed is a string of the tokenizer's lexicon. -/
theorem scanString_str (h : scanString js fuel pos = .ok stop) :
    jsmnLexicon.str ((js.drop pos).take (stop - pos)) := by
  change StringBody (· ≠ 0) _
  induction fuel generalizing pos with
  | zero => cases h
  | succ fuel ih =>
      rw [scanString] at h
      split at h
      · cases h
      · next c hpeek =>
        obtain ⟨hpos, hget, hzero⟩ := peek_lt hpeek
        split at h
        · obtain rfl := Except.ok.inj h
          rw [Nat.sub_self, List.take_zero]
          exact .nil
        · next hquote =>
          split at h
          · next hbackslash =>
            obtain ⟨last, hescape, h⟩ := except_bind_eq_ok h
            have hbounds := (scanString_bounds h).1
            have hle := scanEscape_le hescape
            rw [slice_cons hget (by omega), hbackslash.1]
            unfold scanEscape at hescape
            split at hescape
            · cases hescape
            · next e hnext =>
              split at hescape
              · next hsimple =>
                obtain rfl := Except.ok.inj hescape
                rw [slice_cons hnext (by omega)]
                exact .escape (isSimpleEscape_iff.mp hsimple) (ih h)
              · split at hescape
                · next hu =>
                  subst hu
                  obtain ⟨q, hhex, hescape⟩ := except_bind_eq_ok hescape
                  obtain rfl := Except.ok.inj hescape
                  have hq := scanHex_le hhex
                  have hback : q - 1 + 1 = q := by omega
                  rw [hback] at h hbounds
                  rcases scanHex_digits hhex with ⟨rfl, hdigits⟩ | hend
                  · obtain ⟨d₀, hd₀, hhex₀⟩ := hdigits 0 (by omega)
                    obtain ⟨d₁, hd₁, hhex₁⟩ := hdigits 1 (by omega)
                    obtain ⟨d₂, hd₂, hhex₂⟩ := hdigits 2 (by omega)
                    obtain ⟨d₃, hd₃, hhex₃⟩ := hdigits 3 (by omega)
                    rw [slice_cons hnext (by omega), slice_cons hd₀ (by omega),
                      slice_cons hd₁ (by omega), slice_cons hd₂ (by omega),
                      slice_cons hd₃ (by omega)]
                    exact .unicode hhex₀ hhex₁ hhex₂ hhex₃ (ih h)
                  · exact absurd hend (scanString_peek h)
                · cases hescape
          · next hplain =>
            have hbounds := (scanString_bounds h).1
            rw [slice_cons hget (by omega)]
            refine .plain hzero hquote ?_ (ih h)
            rintro rfl
            -- a backslash that ends the text
            have hend : js.length ≤ pos + 1 := by
              by_contra hlt
              exact hplain ⟨rfl, Nat.lt_of_not_le hlt⟩
            have hnone : peek js (pos + 1) = none := by
              rw [peek, List.getElem?_eq_none hend]
              rfl
            exact scanString_peek h hnone

end Scan

/-! ### Steps keep tokens -/

/-- What later states make of a token. -/
structure JsmnTok.Grows (t t' : JsmnTok) : Prop where
  type : t'.type = t.type
  start : t'.start = t.start
  size : t.size ≤ t'.size
  stop : t.isOpen = false → t'.stop = t.stop

theorem JsmnTok.Grows.refl (t : JsmnTok) : t.Grows t := ⟨rfl, rfl, Nat.le_refl _, fun _ => rfl⟩

theorem JsmnTok.Grows.isOpen {t t' : JsmnTok} (h : t.Grows t') (hclosed : t.isOpen = false) :
    t'.isOpen = false := by
  rw [JsmnTok.isOpen, h.start, h.stop hclosed]
  exact hclosed

theorem JsmnTok.Grows.trans {t t' t'' : JsmnTok} (h : t.Grows t') (h' : t'.Grows t'') :
    t.Grows t'' where
  type := h'.type.trans h.type
  start := h'.start.trans h.start
  size := Nat.le_trans h.size h'.size
  stop := fun hclosed => (h'.stop (h.isOpen hclosed)).trans (h.stop hclosed)

def Grown (toks toks' : List JsmnTok) : Prop :=
  ∀ (i : Nat) (t : JsmnTok), toks[i]? = some t → ∃ t', toks'[i]? = some t' ∧ t.Grows t'

theorem Grown.refl (toks : List JsmnTok) : Grown toks toks := fun _ t ht => ⟨t, ht, .refl t⟩

/-- A token that no step can change any more. -/
structure JsmnParser.Settled (p : JsmnParser) (i : Nat) (t : JsmnTok) : Prop where
  tok : p.toks[i]? = some t
  closed : t.isOpen = false
  before : i + 1 < p.toknext
  super : p.toksuper ≠ some i

section Moves

variable {js : Bytes} {numTokens : Nat} {p p' : JsmnParser}

theorem grown_push (t : JsmnTok) : Grown p.toks (p.push t).toks := by
  intro i u hu
  have hi := (List.getElem?_eq_some_iff.mp hu).1
  rw [getElem?_push_of_lt hi, hu]
  split
  · exact ⟨u.bump, rfl, ⟨rfl, rfl, Nat.le_succ _, fun _ => rfl⟩⟩
  · exact ⟨u, rfl, .refl u⟩

theorem JsmnMove.grown (hmove : JsmnMove js numTokens p p') : Grown p.toks p'.toks := by
  cases hmove with
  | skip | colon | comma => exact .refl p.toks
  | leaf | opened => exact grown_push _
  | @closed j toks hpos hfound htoks =>
      subst htoks
      intro i t ht
      obtain ⟨-, ⟨u, hu, hopen⟩, -⟩ := searchDown_eq_some hfound
      by_cases hij : j = i
      · subst hij
        obtain rfl := Option.some.inj (hu.symm.trans ht)
        refine ⟨{ u with stop := p.pos + 1 }, ?_, rfl, rfl, Nat.le_refl _, fun hclosed => ?_⟩
        · simp [ht]
        · rw [hclosed] at hopen
          cases hopen
      · exact ⟨t, by simp [hij, ht], .refl t⟩

theorem settled_push {i : Nat} {t u : JsmnTok} (h : p.Settled i t) :
    (p.push u).toks[i]? = some t ∧ i + 1 < (p.push u).toknext := by
  have hbefore := h.before
  rw [getElem?_push_of_lt (by omega), if_neg h.super, push_toknext]
  exact ⟨h.tok, by omega⟩

theorem JsmnMove.settled {i : Nat} {t : JsmnTok} (hmove : JsmnMove js numTokens p p')
    (h : p.Settled i t) : p'.Settled i t := by
  have hbefore := h.before
  -- the superior token of the other moves is an open one
  have hopen : ∀ {toks : List JsmnTok} {found : JsmnTok → Bool} {n : Nat}, toks[i]? = some t →
      (∀ u, found u = true → u.isOpen = true) → searchDown found toks n ≠ some i := by
    intro toks found n ht hfound hsearch
    obtain ⟨-, ⟨u, hu, hfoundu⟩, -⟩ := searchDown_eq_some hsearch
    obtain rfl := Option.some.inj (ht.symm.trans hu)
    have hclosed := h.closed
    rw [hfound t hfoundu] at hclosed
    cases hclosed
  cases hmove with
  | skip => exact ⟨h.tok, h.closed, h.before, h.super⟩
  | @leaf u pos =>
      obtain ⟨htok, hlt⟩ := settled_push (u := u) h
      exact ⟨htok, h.closed, hlt, h.super⟩
  | @opened type =>
      obtain ⟨htok, hlt⟩ := settled_push (u := ⟨type, p.pos, -1, 0⟩) h
      refine ⟨htok, h.closed, hlt, fun hsuper => ?_⟩
      have := Option.some.inj hsuper
      omega
  | @closed j toks hpos hfound htoks =>
      subst htoks
      have hij : j ≠ i := by
        rintro rfl
        exact hopen h.tok (fun _ hu => hu) hfound
      have htok : (p.toks.modify j fun t => { t with stop := p.pos + 1 })[i]? = some t := by
        simp [hij, h.tok]
      exact ⟨htok, h.closed, by simpa [JsmnParser.toknext] using hbefore,
        hopen htok fun _ hu => hu⟩
  | colon =>
      refine ⟨h.tok, h.closed, hbefore, fun hsuper => ?_⟩
      change p.lastTok = some i at hsuper
      rw [JsmnParser.lastTok, if_neg (by omega)] at hsuper
      have := Option.some.inj hsuper
      omega
  | @comma j hfound =>
      refine ⟨h.tok, h.closed, hbefore, fun hsuper => ?_⟩
      obtain rfl := Option.some.inj hsuper
      exact hopen h.tok (fun _ hu => (Bool.and_eq_true_iff.mp hu).2) hfound

end Moves

/-! ### Runs keep tokens -/

section Runs

variable {js : Bytes} {numTokens : Nat} {p q r : JsmnParser}

/-- A loop that ends has gone through every state that a run from its start comes to. -/
theorem JsmnRun.continues (h : JsmnRun js numTokens p q) (hspine : p.Spine) {fuel : Nat}
    (hfuel : js.length ≤ p.pos + fuel) (hloop : jsmnLoop js numTokens fuel p = .ok r) :
    q.Spine ∧ ∃ fuel, js.length ≤ q.pos + fuel ∧ jsmnLoop js numTokens fuel q = .ok r := by
  induction h generalizing fuel with
  | refl q => exact ⟨hspine, fuel, hfuel, hloop⟩
  | step hpeek hstep _ ih =>
      have hpos := (peek_lt hpeek).1
      obtain ⟨fuel, rfl⟩ : ∃ f, fuel = f + 1 := ⟨fuel - 1, by omega⟩
      have hmove := jsmnStep_move hspine.superIn hpeek hstep
      have hlt := hmove.pos_lt
      rw [jsmnLoop, hpeek] at hloop
      simp only [hstep, bind, Except.bind] at hloop
      exact ih (hmove.spine hspine) (by simp only at hlt ⊢; omega) hloop

theorem jsmnLoop_grown {fuel : Nat} (hspine : p.Spine)
    (hloop : jsmnLoop js numTokens fuel p = .ok r) : Grown p.toks r.toks := by
  have hstep : ∀ q q' : JsmnParser, q.Spine → Grown p.toks q.toks → JsmnMove js numTokens q q' →
      Grown p.toks q'.toks := by
    intro q q' _ hgrown hmove i t ht
    obtain ⟨t', ht', hgrows⟩ := hgrown i t ht
    obtain ⟨t'', ht'', hgrows'⟩ := hmove.grown i t' ht'
    exact ⟨t'', ht'', hgrows.trans hgrows'⟩
  exact (jsmnLoop_invariant hstep hspine (.refl p.toks) hloop).2

theorem jsmnLoop_settled {fuel i : Nat} {t : JsmnTok} (hspine : p.Spine) (h : p.Settled i t)
    (hloop : jsmnLoop js numTokens fuel p = .ok r) : r.toks[i]? = some t := by
  have hstep : ∀ q q' : JsmnParser, q.Spine → q.Settled i t → JsmnMove js numTokens q q' →
      q'.Settled i t := by
    intro q q' _ hq hmove
    exact hmove.settled hq
  exact (jsmnLoop_invariant hstep hspine h hloop).2.tok

end Runs

end AtxSys
