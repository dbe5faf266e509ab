import AtxSys.JsmnCalls
import AtxSys.Proof.Cut

/-!
# A tokenizer that goes on

A call that runs out of text or of tokens leaves the parser as it was before the byte that it could
not take, so the next call goes on as if the whole text had been there from the beginning. What is
wrong with a text stays wrong with more text.
-/

namespace AtxSys

open CText

variable {js rest : Bytes} {n n' fuel fuel' pos stop : Nat} {p q : JsmnParser} {c : UInt8}

/-! ### Runs on a longer text -/

/-- What holds of a parser between two steps. -/
structure Between (js : Bytes) (n : Nat) (p : JsmnParser) : Prop where
  spine : p.Spine
  counted : p.Counted js n

theorem between_init : Between js n jsmnInit :=
  ⟨jsmnInit_spine, rfl, Nat.zero_le _, by simp [jsmnInit]⟩

theorem Between.step (h : Between js n p) (hpeek : peek js p.pos = some c)
    (hstep : jsmnStep js n c p = .ok q) :
    Between js n { q with pos := q.pos + 1 } ∧ p.pos < q.pos + 1 := by
  have hmove := jsmnStep_move h.spine.superIn hpeek hstep
  exact ⟨⟨hmove.spine h.spine, hmove.counted h.counted⟩, hmove.pos_lt⟩

theorem Between.run (h : Between js n p) (hrun : JsmnRun js n p q) : Between js n q := by
  induction hrun with
  | refl => exact h
  | step hpeek hstep _ ih => exact ih (h.step hpeek hstep).1

theorem JsmnRun.longer (hrun : JsmnRun js n p q) (h : Between js n p) (rest : Bytes)
    (hn : n ≤ n') : JsmnRun (js ++ rest) n' p q := by
  induction hrun with
  | refl => exact .refl _
  | step hpeek hstep _ ih =>
      have hnext := (h.step hpeek hstep).1
      have hroom := hnext.counted.room.trans hn
      exact .step (peek_append hpeek) (jsmnStep_append (jsmnStep_resize hstep hroom)) (ih hnext)

/-! ### One call -/

theorem jsmnFinish_snd (p : JsmnParser) : (jsmnFinish p).2 = p := by
  rw [jsmnFinish]
  split <;> rfl

/-- The parser that a call leaves is one of its loop. -/
theorem jsmnFrom_run {r : Except JsmnErr Nat} (h : jsmnFrom js n fuel p = (r, q))
    (hr : r ≠ .error .inval) : JsmnRun js n p q := by
  induction fuel generalizing p with
  | zero =>
      rw [← jsmnFinish_snd p, ← jsmnFrom, h]
      exact .refl _
  | succ fuel ih =>
      rw [jsmnFrom] at h
      split at h
      · rw [← jsmnFinish_snd p, h]
        exact .refl _
      · next c hpeek =>
        split at h
        · next e hstep =>
          obtain ⟨rfl, rfl⟩ := Prod.mk.inj h
          cases e with
          | inval => exact absurd rfl hr
          | nomem | part => exact .refl _
        · next p' hstep => exact .step hpeek hstep (ih h)

/-- Rounds that reach the end of the text are enough. -/
theorem jsmnFrom_fuel (h : Between js n p) (hfuel : js.length ≤ p.pos + fuel)
    (hfuel' : js.length ≤ p.pos + fuel') : jsmnFrom js n fuel p = jsmnFrom js n fuel' p := by
  induction fuel generalizing p fuel' with
  | zero =>
      have hpeek : peek js p.pos = none := by
        rw [peek, List.getElem?_eq_none (by omega)]
        rfl
      cases fuel' with
      | zero => rfl
      | succ fuel' =>
          rw [jsmnFrom, jsmnFrom, hpeek]
  | succ fuel ih =>
      cases hpeek : peek js p.pos with
      | none =>
          cases fuel' with
          | zero => rw [jsmnFrom, jsmnFrom, hpeek]
          | succ fuel' => rw [jsmnFrom, jsmnFrom, hpeek]
      | some c =>
          have hlt := (peek_lt hpeek).1
          obtain ⟨fuel', rfl⟩ : ∃ f, fuel' = f + 1 := ⟨fuel' - 1, by omega⟩
          rw [jsmnFrom, jsmnFrom, hpeek]
          dsimp only
          cases hstep : jsmnStep js n c p with
          | error e => rfl
          | ok q =>
              obtain ⟨hnext, hpos⟩ := h.step hpeek hstep
              exact ih hnext (by dsimp only; omega) (by dsimp only; omega)

/-- A call goes on from every parser of its loop. -/
theorem jsmnFrom_of_run (hrun : JsmnRun js n p q) (h : Between js n p)
    (hfuel : js.length ≤ p.pos + fuel) (hfuel' : js.length ≤ q.pos + fuel') :
    jsmnFrom js n fuel p = jsmnFrom js n fuel' q := by
  induction hrun generalizing fuel with
  | refl => exact jsmnFrom_fuel h hfuel hfuel'
  | step hpeek hstep _ ih =>
      have hlt := (peek_lt hpeek).1
      obtain ⟨fuel, rfl⟩ : ∃ f, fuel = f + 1 := ⟨fuel - 1, by omega⟩
      obtain ⟨hnext, hpos⟩ := h.step hpeek hstep
      rw [jsmnFrom, hpeek]
      dsimp only
      rw [hstep]
      exact ih hnext (by dsimp only; omega) hfuel'

theorem jsmnCall_eq (h : Between js n p) : jsmnCall js n p = jsmnFrom js n js.length p := by
  rw [jsmnCall, ← h.counted.count]

/-- A call from any parser of the loop is one from the beginning. -/
theorem jsmnCall_of_run (hrun : JsmnRun js n jsmnInit p) :
    jsmnCall js n p = jsmnCall js n jsmnInit := by
  rw [jsmnCall_eq (between_init.run hrun), jsmnCall_eq between_init]
  exact (jsmnFrom_of_run hrun between_init (Nat.le_add_left _ _) (Nat.le_add_left _ _)).symm

/-! ### A text that is wrong -/

theorem except_bind_eq_error {ε α β : Type} {x : Except ε α} {f : α → Except ε β} {e : ε}
    (h : (x >>= f) = .error e) : x = .error e ∨ ∃ a, x = .ok a ∧ f a = .error e := by
  cases x with
  | error e' =>
      cases h
      exact .inl rfl
  | ok a => exact .inr ⟨a, rfl, h⟩

theorem except_map_eq_error {ε α β : Type} {x : Except ε α} {f : α → β} {e : ε}
    (h : f <$> x = .error e) : x = .error e := by
  cases x with
  | error e' =>
      cases h
      rfl
  | ok a => cases h

theorem peek_same (rest : Bytes) (h : pos < js.length) : peek (js ++ rest) pos = peek js pos := by
  rw [peek, peek, List.getElem?_append_left h]

theorem peek_none (h : js.length ≤ pos) : peek js pos = none := by
  rw [peek, List.getElem?_eq_none h]
  rfl

theorem scanPrimitive_inval (h : scanPrimitive js fuel pos = .error .inval) (hfuel : fuel ≤ fuel') :
    scanPrimitive (js ++ rest) fuel' pos = .error .inval := by
  induction fuel generalizing pos fuel' with
  | zero => cases h
  | succ fuel ih =>
      obtain ⟨fuel', rfl⟩ : ∃ f, fuel' = f + 1 := ⟨fuel' - 1, by omega⟩
      rw [scanPrimitive] at h ⊢
      split at h
      · cases h
      · next c hpeek =>
        rw [peek_append hpeek]
        dsimp only
        split at h
        · cases h
        · rw [if_neg ‹_›]
          split at h
          · rw [if_pos ‹_›]
          · rw [if_neg ‹_›]
            exact ih h (by omega)

/-- The digits of an escape that ends inside of the text. -/
theorem scanHex_longer {i : Nat} (h : scanHex js i pos = .ok stop) (hlt : stop < js.length) :
    scanHex (js ++ rest) i pos = .ok stop := by
  induction i generalizing pos with
  | zero => exact h
  | succ i ih =>
      rw [scanHex] at h ⊢
      split at h
      · next hpeek =>
        obtain rfl := Except.ok.inj h
        rw [peek_same rest hlt, hpeek]
      · next c hpeek =>
        rw [peek_append hpeek]
        dsimp only
        split at h
        · rw [if_pos ‹_›]
          exact ih h
        · cases h

theorem scanHex_inval {i : Nat} (h : scanHex js i pos = .error .inval) :
    scanHex (js ++ rest) i pos = .error .inval := by
  induction i generalizing pos with
  | zero => cases h
  | succ i ih =>
      rw [scanHex] at h ⊢
      split at h
      · cases h
      · next c hpeek =>
        rw [peek_append hpeek]
        dsimp only
        split at h
        · rw [if_pos ‹_›]
          exact ih h
        · rw [if_neg ‹_›]

theorem scanEscape_longer (h : scanEscape js pos = .ok stop) (hlt : stop + 1 < js.length) :
    scanEscape (js ++ rest) pos = .ok stop := by
  have hpos := scanEscape_le h
  rw [scanEscape] at h ⊢
  rw [List.getElem?_append_left (by omega)]
  split at h
  · cases h
  · next c hget =>
    rw [hget]
    dsimp only
    split at h
    · rw [if_pos ‹_›]
      exact h
    · rw [if_neg ‹_›]
      split at h
      · rw [if_pos ‹_›]
        obtain ⟨p, hp, h⟩ := except_bind_eq_ok h
        obtain rfl := Except.ok.inj h
        rw [scanHex_longer hp (by omega)]
        rfl
      · cases h

theorem scanEscape_inval (h : scanEscape js pos = .error .inval) (hlt : pos < js.length) :
    scanEscape (js ++ rest) pos = .error .inval := by
  rw [scanEscape] at h ⊢
  rw [List.getElem?_append_left hlt]
  rw [List.getElem?_eq_getElem hlt] at h ⊢
  dsimp only at h ⊢
  split at h
  · cases h
  · rw [if_neg ‹_›]
    split at h
    · rw [if_pos ‹_›]
      rcases except_bind_eq_error h with hhex | ⟨p, -, hok⟩
      · rw [scanHex_inval hhex]
        rfl
      · cases hok
    · rw [if_neg ‹_›]

theorem scanString_behind (h : js.length ≤ pos) : scanString js fuel pos = .error .part := by
  cases fuel with
  | zero => rfl
  | succ fuel => rw [scanString, peek_none h]

theorem scanString_inval (h : scanString js fuel pos = .error .inval) (hfuel : fuel ≤ fuel') :
    scanString (js ++ rest) fuel' pos = .error .inval := by
  -- where the text ends it may only be cut
  have hinside : ∀ {fuel pos}, scanString js fuel pos = .error .inval → pos < js.length := by
    intro fuel pos h
    by_contra hge
    rw [scanString_behind (Nat.le_of_not_lt hge)] at h
    cases h
  induction fuel generalizing pos fuel' with
  | zero => cases h
  | succ fuel ih =>
      obtain ⟨fuel', rfl⟩ : ∃ f, fuel' = f + 1 := ⟨fuel' - 1, by omega⟩
      rw [scanString] at h ⊢
      split at h
      · cases h
      · next c hpeek =>
        rw [peek_append hpeek]
        dsimp only
        split at h
        · cases h
        · rw [if_neg ‹_›]
          split at h
          · next hescape =>
            rw [if_pos ⟨hescape.1, by rw [List.length_append]; omega⟩]
            rcases except_bind_eq_error h with hscan | ⟨stop, hscan, hnext⟩
            · rw [scanEscape_inval hscan hescape.2]
              rfl
            · rw [scanEscape_longer hscan (hinside hnext)]
              exact ih hnext (by omega)
          · next hescape =>
            have hlt := hinside h
            rw [if_neg fun hlonger => hescape ⟨hlonger.1, hlt⟩]
            exact ih h (by omega)

theorem allocToken_ne_inval {toks : List JsmnTok} : jsmnAllocToken n toks ≠ .error .inval := by
  rw [jsmnAllocToken]
  split <;> nofun

theorem jsmnParseString_inval (h : jsmnParseString js n p = .error .inval) :
    jsmnParseString (js ++ rest) n' p = .error .inval := by
  rcases except_bind_eq_error h with hscan | ⟨stop, -, h⟩
  · rw [jsmnParseString, scanString_inval hscan (by rw [List.length_append]; omega)]
    rfl
  · rcases except_bind_eq_error h with halloc | ⟨toks, -, hok⟩
    · exact absurd halloc allocToken_ne_inval
    · cases hok

theorem jsmnParsePrimitive_inval (h : jsmnParsePrimitive js n p = .error .inval) :
    jsmnParsePrimitive (js ++ rest) n' p = .error .inval := by
  rcases except_bind_eq_error h with hscan | ⟨stop, -, h⟩
  · rw [jsmnParsePrimitive, scanPrimitive_inval hscan (by rw [List.length_append]; omega)]
    rfl
  · rcases except_bind_eq_error h with halloc | ⟨toks, -, hok⟩
    · exact absurd halloc allocToken_ne_inval
    · cases hok

theorem openContainer_inval {type : JsmnType} (h : openContainer n type p = .error .inval)
    (hn : n ≤ n') : openContainer n' type p = .error .inval := by
  rcases except_bind_eq_error h with halloc | ⟨toks, halloc, h⟩
  · exact absurd halloc allocToken_ne_inval
  · have hroom : jsmnAllocToken n' p.toks = .ok toks := by
      rw [jsmnAllocToken] at halloc ⊢
      split at halloc
      · cases halloc
      · rwa [if_neg (by omega)]
    rw [openContainer, hroom]
    split at h
    · exact if_pos ‹_›
    · cases h

/-- A byte that is wrong is wrong with more text and more tokens too. -/
theorem jsmnStep_inval (h : jsmnStep js n c p = .error .inval) (hn : n ≤ n') :
    jsmnStep (js ++ rest) n' c p = .error .inval := by
  obtain ⟨type, -, hstep⟩ | ⟨type, hstep⟩ | hstep | ⟨-, hstep⟩ | ⟨q, -, hstep⟩ | hstep :=
    jsmnStep_cases c p <;> rw [hstep] at h ⊢
  · exact openContainer_inval h hn
  · exact h
  · rw [jsmnParseString_inval (except_map_eq_error h)]
    rfl
  · rw [jsmnParsePrimitive_inval (except_map_eq_error h)]
    rfl
  · cases h

/-- The byte at which a call stops with `JSMN_ERROR_INVAL`. -/
theorem jsmnFrom_inval (h : (jsmnFrom js n fuel p).1 = .error .inval) :
    ∃ q c, JsmnRun js n p q ∧ peek js q.pos = some c ∧ jsmnStep js n c q = .error .inval := by
  have hfinish : ∀ p : JsmnParser, (jsmnFinish p).1 ≠ .error .inval := by
    intro p
    rw [jsmnFinish]
    split <;> nofun
  induction fuel generalizing p with
  | zero => exact absurd h (hfinish p)
  | succ fuel ih =>
      rw [jsmnFrom] at h
      split at h
      · exact absurd h (hfinish p)
      · next c hpeek =>
        split at h
        · next e hstep =>
          obtain rfl : e = .inval := Except.error.inj h
          exact ⟨p, c, .refl p, hpeek, hstep⟩
        · next q hstep =>
          obtain ⟨r, c', hrun, hpeek', hinval⟩ := ih h
          exact ⟨r, c', .step hpeek hstep hrun, hpeek', hinval⟩

theorem jsmnCall_inval (h : (jsmnCall js n jsmnInit).1 = .error .inval) (rest : Bytes)
    (hn : n ≤ n') :
    (jsmnCall (js ++ rest) n' jsmnInit).1 = .error .inval := by
  rw [jsmnCall_eq between_init] at h
  obtain ⟨q, c, hrun, hpeek, hinval⟩ := jsmnFrom_inval h
  have hlonger := hrun.longer between_init rest hn
  rw [← jsmnCall_of_run hlonger, jsmnCall_eq (between_init.run hlonger)]
  have hlt : 0 < (js ++ rest).length := by
    rw [List.length_append]
    have hq := (peek_lt hpeek).1
    omega
  obtain ⟨fuel, hfuel⟩ : ∃ f, (js ++ rest).length = f + 1 := ⟨_, (Nat.succ_pred_eq_of_pos hlt).symm⟩
  rw [hfuel, jsmnFrom, peek_append hpeek]
  dsimp only
  rw [jsmnStep_inval hinval hn]

/-! ### Calls on a text that grows -/

/-- The text and the array of each call. -/
def callTexts (js : Bytes) : List (Bytes × Nat) → List (Bytes × Nat)
  | [] => []
  | (more, numTokens) :: calls => (js ++ more, numTokens) :: callTexts (js ++ more) calls

/-- What a caller reads after a call: an error, or the count and the tokens. -/
def jsmnRead (result : Except JsmnErr Nat × JsmnParser) : Except JsmnErr (Nat × List JsmnTok) :=
  result.1.map fun count => (count, result.2.toks)

def jsmnParseRead (js : Bytes) (numTokens : Nat) : Except JsmnErr (Nat × List JsmnTok) :=
  (jsmnParse js numTokens).map fun p => (p.count, p.toks)

theorem callTexts_longer {calls : List (Bytes × Nat)} {i : Nat} {call : Bytes × Nat}
    (h : (callTexts js calls)[i]? = some call) :
    ∃ rest, call.1 = js ++ rest ∧ call.2 ∈ calls.map Prod.snd := by
  induction calls generalizing js i with
  | nil => cases h
  | cons next calls ih =>
      cases i with
      | zero =>
          obtain rfl := Option.some.inj h
          exact ⟨next.1, rfl, List.mem_cons_self⟩
      | succ i =>
          obtain ⟨rest, hrest, hmem⟩ := ih h
          exact ⟨next.1 ++ rest, by rw [hrest, List.append_assoc], List.mem_cons_of_mem _ hmem⟩

theorem jsmnFrom_read (js : Bytes) (n fuel : Nat) (p : JsmnParser) :
    jsmnRead (jsmnFrom js n fuel p) =
      (jsmnLoop js n fuel p >>= fun q =>
        if q.toks.any JsmnTok.isOpen then .error .part else .ok q).map
          fun q => (q.count, q.toks) := by
  have hfinish : ∀ p : JsmnParser, jsmnRead (jsmnFinish p) =
      Except.map (fun q : JsmnParser => (q.count, q.toks))
        (if p.toks.any JsmnTok.isOpen then .error .part else .ok p) := by
    intro p
    rw [jsmnFinish]
    split <;> rfl
  induction fuel generalizing p with
  | zero => exact hfinish p
  | succ fuel ih =>
      rw [jsmnFrom, jsmnLoop]
      cases peek js p.pos with
      | none => exact hfinish p
      | some c =>
          dsimp only
          cases jsmnStep js n c p with
          | error e => rfl
          | ok q => exact ih _

/-- A call on a new parser is the parse of the text. -/
theorem jsmnCall_init (js : Bytes) (n : Nat) :
    jsmnRead (jsmnCall js n jsmnInit) = jsmnParseRead js n := by
  rw [jsmnCall_eq between_init, jsmnFrom_read]
  rfl

theorem jsmnRead_inval {result : Except JsmnErr Nat × JsmnParser} :
    jsmnRead result = .error .inval ↔ result.1 = .error .inval := by
  obtain ⟨_ | _, q⟩ := result
  · exact ⟨fun h => by cases h; rfl, fun h => by cases h; rfl⟩
  · exact ⟨nofun, nofun⟩

/-- Calls that go on from a parser that an earlier call left. -/
theorem jsmnCalls_from {calls : List (Bytes × Nat)} (hrun : JsmnRun js n jsmnInit p)
    (hsizes : (calls.map Prod.snd).Pairwise (· ≤ ·)) (hroom : ∀ m ∈ calls.map Prod.snd, n ≤ m)
    {i : Nat} {call : Bytes × Nat} (hcall : (callTexts js calls)[i]? = some call) :
    ((∀ result ∈ (jsmnCalls p js calls).take i, result.1 ≠ .error .inval) →
      (jsmnCalls p js calls)[i]?.map jsmnRead = some (jsmnParseRead call.1 call.2)) ∧
    ((∃ result ∈ (jsmnCalls p js calls).take i, result.1 = .error .inval) →
      jsmnParseRead call.1 call.2 = .error .inval) := by
  induction calls generalizing js n p i with
  | nil => cases hcall
  | cons next calls ih =>
      obtain ⟨more, m⟩ := next
      obtain ⟨hleast, hsizes⟩ := List.pairwise_cons.mp hsizes
      have hlonger := hrun.longer between_init more (hroom m List.mem_cons_self)
      have hresult := jsmnCall_of_run hlonger
      rw [jsmnCalls]
      cases i with
      | zero =>
          obtain rfl := Option.some.inj hcall
          have hread : jsmnRead (jsmnCall (js ++ more) m p) = jsmnParseRead (js ++ more) m := by
            rw [hresult, jsmnCall_init]
          exact ⟨fun _ => congrArg some hread, fun ⟨_, hmem, _⟩ => absurd hmem List.not_mem_nil⟩
      | succ i =>
          have hlater : (callTexts (js ++ more) calls)[i]? = some call := hcall
          rw [List.take_succ_cons, List.getElem?_cons_succ, List.forall_mem_cons]
          by_cases hinval : (jsmnCall (js ++ more) m p).1 = .error .inval
          · -- no longer text and no larger array could help
            obtain ⟨rest, hrest, hmem⟩ := callTexts_longer hlater
            refine ⟨fun h => absurd hinval h.1, fun _ => ?_⟩
            rw [hresult] at hinval
            have hstays := jsmnCall_inval hinval rest (hleast _ hmem)
            rw [hrest, ← jsmnCall_init]
            exact jsmnRead_inval.mpr hstays
          · have hleft : JsmnRun (js ++ more) m jsmnInit (jsmnCall (js ++ more) m p).2 := by
              rw [jsmnCall_eq (between_init.run hlonger)] at hinval ⊢
              exact hlonger.trans (jsmnFrom_run rfl hinval)
            obtain ⟨hread, hfailed⟩ := ih hleft hsizes (fun k hk => hleast k hk) hlater
            refine ⟨fun h => hread h.2, ?_⟩
            rintro ⟨result, hmem, herror⟩
            obtain rfl | hmem := List.mem_cons.mp hmem
            · exact absurd herror hinval
            · exact hfailed ⟨result, hmem, herror⟩

/-- **Calls that go on.** A text that arrives piece by piece is read by call after call on one
parser, each with all bytes so far and an array no smaller than before. As long as no call has
returned `JSMN_ERROR_INVAL`, each call returns what one parse of all bytes so far returns, with the
same tokens; and once one has, a new parse of all bytes so far does so too. -/
theorem jsmnCalls_resume (calls : List (Bytes × Nat))
    (hsizes : (calls.map Prod.snd).Pairwise (· ≤ ·)) {i : Nat} {js : Bytes} {numTokens : Nat}
    (hcall : (callTexts [] calls)[i]? = some (js, numTokens)) :
    ((∀ result ∈ (jsmnCalls jsmnInit [] calls).take i, result.1 ≠ .error .inval) →
      (jsmnCalls jsmnInit [] calls)[i]?.map jsmnRead = some (jsmnParseRead js numTokens)) ∧
    ((∃ result ∈ (jsmnCalls jsmnInit [] calls).take i, result.1 = .error .inval) →
      jsmnParseRead js numTokens = .error .inval) :=
  jsmnCalls_from (n := 0) (.refl _) hsizes (fun _ _ => Nat.zero_le _) hcall

/-- `{"a":1}` in three pieces: the first call runs out of tokens, the second out of text. -/
def growingText : List (Bytes × Nat) :=
  [(bytes "\x7b\"a\"", 1), (bytes ":1", 2), (bytes "\x7d", 4)]

/-- `{{` is no key, however the text goes on. -/
def brokenText : List (Bytes × Nat) := [(bytes "\x7b\x7b", 2), (bytes "\x7d\x7d", 3)]

theorem jsmnCalls_resume_growing :
    (jsmnCalls jsmnInit [] growingText)[2]?.map jsmnRead =
        some (jsmnParseRead (bytes "\x7b\"a\":1\x7d") 4) ∧
      jsmnParseRead (bytes "\x7b\x7b\x7d\x7d") 3 = .error .inval := by
  constructor
  · exact (jsmnCalls_resume growingText (by decide) (i := 2) rfl).1 (by decide)
  · exact (jsmnCalls_resume brokenText (by decide) (i := 1) rfl).2 (by decide)

example : (jsmnCalls jsmnInit [] growingText).map Prod.fst =
    [.error .nomem, .error .part, .ok 3] := rfl

/-- The parser itself keeps the token of the second `{`. -/
example : (jsmnCalls jsmnInit [] [(bytes "\x7b\x7b", 2), ([], 2)]).map Prod.fst =
    [.error .inval, .error .nomem] := rfl

/-! ### Counting

The two modes of a step go together up to the first token that has no room; in the counting mode
that token is one more.
-/

theorem jsmnStep_count_cases (js : Bytes) (n : Nat) (c : UInt8) (p : JsmnParser) :
    (∃ type, jsmnStep js n c p = openContainer n type p ∧
        jsmnCountStep js c p.pos p.count = .ok (p.pos, p.count + 1)) ∨
      (∃ type, jsmnStep js n c p = closeContainer type p ∧
        jsmnCountStep js c p.pos p.count = .ok (p.pos, p.count)) ∨
      (jsmnStep js n c p = countToken <$> jsmnParseString js n p ∧
        jsmnCountStep js c p.pos p.count =
          (scanString js (js.length + 1) (p.pos + 1)).bind fun stop => .ok (stop, p.count + 1)) ∨
      (jsmnStep js n c p = countToken <$> jsmnParsePrimitive js n p ∧
        jsmnCountStep js c p.pos p.count =
          (scanPrimitive js (js.length + 1) p.pos).bind fun stop => .ok (stop - 1, p.count + 1)) ∨
      (∃ q, q.pos = p.pos ∧ q.count = p.count ∧ jsmnStep js n c p = .ok q ∧
        jsmnCountStep js c p.pos p.count = .ok (p.pos, p.count)) ∨
      jsmnStep js n c p = .error .inval := by
  by_cases hlbrace : c = lbrace
  · subst hlbrace
    exact .inl ⟨.object, rfl, rfl⟩
  by_cases hlbracket : c = lbracket
  · subst hlbracket
    exact .inl ⟨.array, rfl, rfl⟩
  by_cases hrbrace : c = rbrace
  · subst hrbrace
    exact .inr (.inl ⟨.object, rfl, rfl⟩)
  by_cases hrbracket : c = rbracket
  · subst hrbracket
    exact .inr (.inl ⟨.array, rfl, rfl⟩)
  by_cases hquote : c = quote
  · subst hquote
    exact .inr (.inr (.inl ⟨rfl, rfl⟩))
  rw [jsmnStep, if_neg hlbrace, if_neg hlbracket, if_neg hrbrace, if_neg hrbracket, if_neg hquote,
    jsmnCountStep, if_neg (not_or_intro hlbrace hlbracket),
    if_neg (not_or_intro hrbrace hrbracket), if_neg hquote]
  refine .inr (.inr (.inr ?_))
  by_cases hblank : isWhitespace c
  · exact .inr (.inl ⟨p, rfl, rfl, if_pos hblank, if_pos (.inl hblank)⟩)
  rw [if_neg hblank]
  by_cases hcolon : c = colon
  · exact .inr (.inl ⟨{ p with toksuper := p.lastTok }, rfl, rfl, if_pos hcolon,
      if_pos (.inr (.inl hcolon))⟩)
  rw [if_neg hcolon]
  by_cases hcomma : c = comma
  · refine .inr (.inl ⟨afterComma p, ?_, ?_, if_pos hcomma, if_pos (.inr (.inr hcomma))⟩)
    all_goals
      rw [afterComma]
      split
      · split <;> rfl
      · rfl
  have hother : ¬(isWhitespace c ∨ c = colon ∨ c = comma) := by
    rintro (hc | hc | hc)
    exacts [hblank hc, hcolon hc, hcomma hc]
  rw [if_neg hcomma, if_neg hother]
  by_cases hstarts : startsPrimitive c
  · rw [if_pos hstarts, if_pos hstarts]
    by_cases hrejects : (p.toksuper.bind (p.toks[·]?)).any rejectsPrimitive
    · exact .inr (.inr (if_pos hrejects))
    · exact .inl ⟨if_neg hrejects, rfl⟩
  · exact .inr (.inr (if_neg hstarts))

/-- A step that goes on, without the tokens. -/
theorem jsmnStep_counts (hsuper : p.SuperIn) (h : jsmnStep js n c p = .ok q) :
    jsmnCountStep js c p.pos p.count = .ok (q.pos, q.count) := by
  obtain ⟨type, hstep, hcount⟩ | ⟨type, hstep, hcount⟩ | ⟨hstep, hcount⟩ | ⟨hstep, hcount⟩ |
    ⟨r, hpos, hsame, hstep, hcount⟩ | hstep := jsmnStep_count_cases js n c p <;>
    rw [hstep] at h
  · rw [openContainer_eq hsuper] at h
    split at h
    · cases h
    · split at h
      · cases h
      · obtain rfl := Except.ok.inj h
        exact hcount
  · rw [closeContainer] at h
    split at h
    · cases h
    · split at h
      · cases h
      · obtain rfl := Except.ok.inj h
        exact hcount
  · rw [jsmnParseString_eq hsuper] at h
    obtain ⟨stop, hscan, h⟩ := except_bind_eq_ok h
    split at h
    · cases h
    · obtain rfl := Except.ok.inj h
      rw [hcount, hscan]
      rfl
  · rw [jsmnParsePrimitive_eq hsuper] at h
    obtain ⟨stop, hscan, h⟩ := except_bind_eq_ok h
    split at h
    · cases h
    · obtain rfl := Except.ok.inj h
      rw [hcount, hscan]
      rfl
  · obtain rfl := Except.ok.inj h
    rw [hcount, hpos, hsame]
  · cases h

theorem scanPrimitive_ne_nomem : scanPrimitive js fuel pos ≠ .error .nomem := by
  intro h
  induction fuel generalizing pos with
  | zero => cases h
  | succ fuel ih =>
      rw [scanPrimitive] at h
      split at h
      · cases h
      · split at h
        · cases h
        · split at h
          · cases h
          · exact ih h

theorem scanHex_ne_nomem {i : Nat} : scanHex js i pos ≠ .error .nomem := by
  intro h
  induction i generalizing pos with
  | zero => cases h
  | succ i ih =>
      rw [scanHex] at h
      split at h
      · cases h
      · split at h
        · exact ih h
        · cases h

theorem scanEscape_ne_nomem : scanEscape js pos ≠ .error .nomem := by
  intro h
  rw [scanEscape] at h
  split at h
  · cases h
  · split at h
    · cases h
    · split at h
      · rcases except_bind_eq_error h with h | ⟨_, -, h⟩
        · exact scanHex_ne_nomem h
        · cases h
      · cases h

theorem scanString_ne_nomem : scanString js fuel pos ≠ .error .nomem := by
  intro h
  induction fuel generalizing pos with
  | zero => cases h
  | succ fuel ih =>
      rw [scanString] at h
      split at h
      · cases h
      · split at h
        · cases h
        · split at h
          · rcases except_bind_eq_error h with h | ⟨_, -, h⟩
            · exact scanEscape_ne_nomem h
            · exact ih h
          · exact ih h

/-- The token that has no room is counted. -/
theorem jsmnStep_nomem (h : Between js n p) (hstep : jsmnStep js n c p = .error .nomem) :
    n ≤ p.count ∧ ∃ pos, jsmnCountStep js c p.pos p.count = .ok (pos, p.count + 1) := by
  have hsuper := h.spine.superIn
  have hfull : n ≤ p.toknext → n ≤ p.count := fun hle => hle.trans h.counted.count.ge
  obtain ⟨type, hcase, hcount⟩ | ⟨type, hcase, hcount⟩ | ⟨hcase, hcount⟩ | ⟨hcase, hcount⟩ |
    ⟨r, hpos, hsame, hcase, hcount⟩ | hcase := jsmnStep_count_cases js n c p <;>
    rw [hcase] at hstep
  · rw [openContainer_eq hsuper] at hstep
    split at hstep
    · exact ⟨hfull ‹_›, _, hcount⟩
    · split at hstep <;> cases hstep
  · rw [closeContainer] at hstep
    split at hstep
    · cases hstep
    · split at hstep <;> cases hstep
  · rw [jsmnParseString_eq hsuper] at hstep
    rcases except_bind_eq_error hstep with hscan | ⟨stop, hscan, hstep⟩
    · exact absurd hscan scanString_ne_nomem
    · split at hstep
      · exact ⟨hfull ‹_›, stop, by rw [hcount, hscan]; rfl⟩
      · cases hstep
  · rw [jsmnParsePrimitive_eq hsuper] at hstep
    rcases except_bind_eq_error hstep with hscan | ⟨stop, hscan, hstep⟩
    · exact absurd hscan scanPrimitive_ne_nomem
    · split at hstep
      · exact ⟨hfull ‹_›, stop - 1, by rw [hcount, hscan]; rfl⟩
      · cases hstep
  · cases hstep
  · cases hstep

theorem jsmnCountStep_le {count pos' count' : Nat}
    (h : jsmnCountStep js c pos count = .ok (pos', count')) : count ≤ count' := by
  rw [jsmnCountStep] at h
  split at h
  · obtain rfl := (Prod.mk.inj (Except.ok.inj h)).2
    exact Nat.le_succ count
  · split at h
    · exact (Prod.mk.inj (Except.ok.inj h)).2.le
    · split at h
      · obtain ⟨stop, -, h⟩ := except_bind_eq_ok h
        obtain rfl := (Prod.mk.inj (Except.ok.inj h)).2
        exact Nat.le_succ count
      · split at h
        · exact (Prod.mk.inj (Except.ok.inj h)).2.le
        · split at h
          · obtain ⟨stop, -, h⟩ := except_bind_eq_ok h
            obtain rfl := (Prod.mk.inj (Except.ok.inj h)).2
            exact Nat.le_succ count
          · cases h

theorem jsmnCountLoop_le {count k : Nat} (h : jsmnCountLoop js fuel pos count = .ok k) :
    count ≤ k := by
  induction fuel generalizing pos count with
  | zero => exact (Except.ok.inj h).le
  | succ fuel ih =>
      rw [jsmnCountLoop] at h
      split at h
      · exact (Except.ok.inj h).le
      · obtain ⟨⟨pos', count'⟩, hstep, h⟩ := except_bind_eq_ok h
        exact (jsmnCountStep_le hstep).trans (ih h)

theorem jsmnLoop_counts (h : Between js n p) (hloop : jsmnLoop js n fuel p = .ok q) :
    jsmnCountLoop js fuel p.pos p.count = .ok q.count := by
  induction fuel generalizing p with
  | zero => rw [← Except.ok.inj hloop, jsmnCountLoop]
  | succ fuel ih =>
      rw [jsmnLoop] at hloop
      rw [jsmnCountLoop]
      cases hpeek : peek js p.pos with
      | none =>
          rw [hpeek] at hloop
          rw [← Except.ok.inj hloop]
      | some c =>
          rw [hpeek] at hloop
          obtain ⟨r, hstep, hloop⟩ := except_bind_eq_ok hloop
          dsimp only
          rw [jsmnStep_counts h.spine.superIn hstep]
          exact ih (h.step hpeek hstep).1 hloop

/-- A text with a token too many is counted to more tokens than the array has. -/
theorem jsmnLoop_nomem (h : Between js n p) (hloop : jsmnLoop js n fuel p = .error .nomem)
    {k : Nat} (hcount : jsmnCountLoop js fuel p.pos p.count = .ok k) : n < k := by
  induction fuel generalizing p with
  | zero => cases hloop
  | succ fuel ih =>
      rw [jsmnLoop] at hloop
      rw [jsmnCountLoop] at hcount
      cases hpeek : peek js p.pos with
      | none =>
          rw [hpeek] at hloop
          cases hloop
      | some c =>
          rw [hpeek] at hloop hcount
          dsimp only at hcount
          rcases except_bind_eq_error hloop with hstep | ⟨q, hstep, hloop⟩
          · obtain ⟨hfull, stop, hcounted⟩ := jsmnStep_nomem h hstep
            rw [hcounted] at hcount
            exact Nat.lt_of_lt_of_le (Nat.lt_succ_of_le hfull) (jsmnCountLoop_le hcount)
          · rw [jsmnStep_counts h.spine.superIn hstep] at hcount
            exact ih (h.step hpeek hstep).1 hloop hcount

/-! ### Room to spare -/

theorem jsmnStep_room (hsuper : p.SuperIn) (h : jsmnStep js n c p ≠ .error .nomem) (hn : n ≤ n') :
    jsmnStep js n' c p = jsmnStep js n c p := by
  obtain ⟨type, -, hstep⟩ | ⟨type, hstep⟩ | hstep | ⟨-, hstep⟩ | ⟨q, -, hstep⟩ | hstep :=
    jsmnStep_cases c p <;> rw [hstep] at h ⊢ <;> rw [hstep]
  · rw [openContainer_eq hsuper] at h ⊢
    rw [openContainer_eq hsuper]
    split at h
    · exact absurd rfl h
    · next hroom => rw [if_neg hroom, if_neg fun hfull => hroom (hn.trans hfull)]
  · rw [jsmnParseString_eq hsuper] at h ⊢
    rw [jsmnParseString_eq hsuper]
    cases hscan : scanString js (js.length + 1) (p.pos + 1) with
    | error e => rfl
    | ok stop =>
        rw [hscan] at h
        have hroom : ¬n ≤ p.toknext := fun hfull => h (if_pos hfull)
        exact (if_neg fun hfull => hroom (hn.trans hfull)).trans (if_neg hroom).symm
  · rw [jsmnParsePrimitive_eq hsuper] at h ⊢
    rw [jsmnParsePrimitive_eq hsuper]
    cases hscan : scanPrimitive js (js.length + 1) p.pos with
    | error e => rfl
    | ok stop =>
        rw [hscan] at h
        have hroom : ¬n ≤ p.toknext := fun hfull => h (if_pos hfull)
        exact (if_neg fun hfull => hroom (hn.trans hfull)).trans (if_neg hroom).symm

theorem jsmnLoop_room (h : Between js n p) (hloop : jsmnLoop js n fuel p ≠ .error .nomem)
    (hn : n ≤ n') : jsmnLoop js n' fuel p = jsmnLoop js n fuel p := by
  induction fuel generalizing p with
  | zero => rfl
  | succ fuel ih =>
      rw [jsmnLoop] at hloop
      rw [jsmnLoop, jsmnLoop]
      cases hpeek : peek js p.pos with
      | none => rfl
      | some c =>
          rw [hpeek] at hloop
          dsimp only at hloop ⊢
          have hstep : jsmnStep js n c p ≠ .error .nomem := by
            intro hnomem
            rw [hnomem] at hloop
            exact hloop rfl
          rw [jsmnStep_room h.spine.superIn hstep hn]
          cases hnext : jsmnStep js n c p with
          | error e => rfl
          | ok q =>
              rw [hnext] at hloop
              exact ih (h.step hpeek hnext).1 hloop

/-- **The counting mode.** It returns the number of tokens of every text that is accepted with an
array. An array with room for as many tokens as were counted never runs out, and what is made of the
text doesn't depend on how much more room it has. -/
theorem jsmnCount_capacity (js : Bytes) :
    (∀ numTokens p, jsmnParse js numTokens = .ok p → jsmnCount js = .ok p.toks.length) ∧
      ∀ k, jsmnCount js = .ok k → ∀ numTokens, k ≤ numTokens →
        jsmnParse js numTokens ≠ .error .nomem ∧ jsmnParse js numTokens = jsmnParse js k := by
  constructor
  · intro n p hparse
    obtain ⟨q, hloop, hclosed⟩ := except_bind_eq_ok hparse
    obtain rfl : q = p := by
      split at hclosed
      · cases hclosed
      · exact Except.ok.inj hclosed
    rw [← (jsmnParse_tokens hparse).2.1]
    exact jsmnLoop_counts between_init hloop
  · intro k hcount n hn
    have hloop : ∀ n, k ≤ n → jsmnLoop js n js.length jsmnInit ≠ .error .nomem := by
      intro n hn hnomem
      exact absurd (jsmnLoop_nomem between_init hnomem hcount) (Nat.not_lt.mpr hn)
    constructor
    · intro hnomem
      rcases except_bind_eq_error hnomem with hnomem | ⟨q, -, hclosed⟩
      · exact hloop n hn hnomem
      · split at hclosed <;> cases hclosed
    · rw [jsmnParse, jsmnParse, jsmnLoop_room between_init (hloop k le_rfl) hn]

end AtxSys
