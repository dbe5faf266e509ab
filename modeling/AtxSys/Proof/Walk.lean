import AtxSys.Json
import AtxSys.Proof.Tokenizer

/-!
# Walking a token forest

`json_next` goes to the slot after a subtree. `json_get_member` takes the tokens after an object
token in pairs, a key token and the subtree after it, without asking whether the key has a value:
where one has none, the walk takes the next member, or what follows the object, for the value, and
an object near the end of the array sends it to slots that jsmn did not fill. `GuideFits` is the
exact condition under which that does not happen.
-/

namespace AtxSys

open CText FlatForest

/-! ### Reading more memory changes nothing -/

section Memory

variable {mem mem' : TokMem} (hmem : ∀ i t, mem i = some t → mem' i = some t)

include hmem

theorem readTok_mono {i : Nat} {t : JsmnTok} (h : readTok mem i = .ok t) :
    readTok mem' i = .ok t := by
  unfold readTok at h ⊢
  cases htok : mem i with
  | none => simp [htok] at h
  | some u =>
      rw [hmem i u htok]
      simpa [htok] using h

omit hmem in
theorem iterate_mono {α : Type} {f g : α → Run α} (hfg : ∀ a b, f a = .ok b → g a = .ok b)
    {n : Nat} {a b : α} (h : iterate f n a = .ok b) : iterate g n a = .ok b := by
  induction n generalizing a with
  | zero => exact h
  | succ n ih =>
      obtain ⟨c, hc, hrest⟩ := run_bind_eq_ok h
      rw [iterate, hfg a c hc]
      exact ih hrest

theorem jsonNext_mono {depth tok j : Nat} (h : jsonNext mem depth tok = .ok j) :
    jsonNext mem' depth tok = .ok j := by
  induction depth generalizing tok j with
  | zero => cases h
  | succ depth ih =>
      obtain ⟨t, ht, hrest⟩ := run_bind_eq_ok h
      rw [jsonNext, readTok_mono hmem ht]
      exact iterate_mono (fun a b => ih) hrest

theorem memberLoop_mono {buffer label : Bytes} {depth n t : Nat} {r : Option Nat}
    (h : memberLoop mem buffer label depth n t = .ok r) :
    memberLoop mem' buffer label depth n t = .ok r := by
  induction n generalizing t with
  | zero => exact h
  | succ n ih =>
      obtain ⟨key, hkey, h⟩ := run_bind_eq_ok h
      obtain ⟨found, hfound, h⟩ := run_bind_eq_ok h
      rw [memberLoop, readTok_mono hmem hkey, run_bind_ok, hfound, run_bind_ok]
      cases found with
      | true => exact h
      | false =>
          obtain ⟨next, hnext, h⟩ := run_bind_eq_ok h
          simp only [Bool.false_eq_true, if_false]
          rw [jsonNext_mono hmem hnext]
          exact ih h

theorem jsonGetMember_mono {buffer label : Bytes} {depth tok : Nat} {r : Option Nat}
    (h : jsonGetMember mem buffer label depth tok = .ok r) :
    jsonGetMember mem' buffer label depth tok = .ok r := by
  obtain ⟨t, ht, h⟩ := run_bind_eq_ok h
  rw [jsonGetMember, readTok_mono hmem ht, run_bind_ok]
  split at h
  · rwa [if_pos ‹_›]
  · rw [if_neg ‹_›]
    exact memberLoop_mono hmem h

theorem delveLoop_mono {buffer guide : Bytes} {depth fuel tok : Nat} {r : Option Nat}
    (h : delveLoop mem buffer depth fuel tok guide = .ok r) :
    delveLoop mem' buffer depth fuel tok guide = .ok r := by
  induction fuel generalizing tok guide with
  | zero => cases guide <;> exact h
  | succ fuel ih =>
      cases guide with
      | nil => exact h
      | cons c guide =>
          rw [delveLoop] at h ⊢
          split at h
          · cases h
          rw [if_neg ‹_›]
          split at h
          · cases h
          rw [if_neg ‹_›]
          obtain ⟨t, ht, h⟩ := run_bind_eq_ok h
          rw [readTok_mono hmem ht, run_bind_ok]
          split at h
          · rwa [if_pos ‹_›]
          rw [if_neg ‹_›]
          obtain ⟨m, hm, h⟩ := run_bind_eq_ok h
          rw [jsonGetMember_mono hmem hm, run_bind_ok]
          cases m with
          | none => exact h
          | some next => exact ih h

theorem jsonDelve_mono {buffer guide : Bytes} {depth tok : Nat} {r : Option Nat}
    (h : jsonDelve mem buffer depth tok guide = .ok r) :
    jsonDelve mem' buffer depth tok guide = .ok r :=
  delveLoop_mono hmem h

end Memory

theorem withJunk_of_filled (toks : List JsmnTok) (junk : Nat → JsmnTok) (i : Nat) (t : JsmnTok)
    (h : filled toks i = some t) : withJunk toks junk i = some t := by
  unfold filled at h
  simp [withJunk, h]

/-! ### `json_next` goes to the end of a subtree -/

section Forest

variable {js : Bytes} {toks : List JsmnTok}

theorem readTok_filled {i : Nat} (hi : i < toks.length) :
    readTok (filled toks) i = .ok toks[i] := by
  simp [readTok, filled, hi]

theorem readTok_unfilled {i : Nat} (hi : toks.length ≤ i) :
    readTok (filled toks) i = .error (.slot i) := by
  simp [readTok, filled, hi]

theorem sizeAt_eq {i : Nat} (hi : i < toks.length) : sizeAt toks i = toks[i].size := by
  simp [sizeAt, hi]

theorem iterate_jsonNext {k i j depth : Nat} (htrees : Trees (sizeAt toks) k i j)
    (hj : j ≤ toks.length) (hdepth : j ≤ i + depth) :
    iterate (jsonNext (filled toks) depth) k i = .ok j := by
  induction htrees generalizing depth with
  | nil i => rfl
  | @cons k i m j children rest hchildren hrest =>
      have hm := children.le
      have hmj := rest.le
      obtain ⟨depth, rfl⟩ : ∃ d, depth = d + 1 := ⟨depth - 1, by omega⟩
      have hi : i < toks.length := by omega
      rw [iterate, jsonNext, readTok_filled hi, run_bind_ok, ← sizeAt_eq hi,
        hchildren (by omega) (by omega), run_bind_ok]
      exact hrest hj (by omega)

theorem jsonNext_subtree {i j depth : Nat} (hsub : Subtree (sizeAt toks) i j)
    (hj : j ≤ toks.length) (hdepth : toks.length ≤ depth) :
    jsonNext (filled toks) depth i = .ok j := by
  have hi := hsub.le
  have hone : iterate (jsonNext (filled toks) depth) 1 i = .ok j :=
    iterate_jsonNext (.cons hsub (.nil j)) hj (by omega)
  obtain ⟨m, hm, hrest⟩ := run_bind_eq_ok hone
  rw [hm]
  exact hrest

theorem Tokens.subtree (h : Tokens js toks) {i : Nat} (hi : i < toks.length) :
    ∃ j, Subtree (sizeAt toks) i j ∧ i < j ∧ j ≤ toks.length := by
  obtain ⟨k, hk⟩ := h.forest
  obtain ⟨j, hj, hle⟩ := hk.subtree (Nat.zero_le i) hi
  have := hj.le
  exact ⟨j, hj, by omega, hle⟩

/-- **`json_next` ends.** From any token of a document that jsmn accepts it comes to a later slot,
the count at most, whatever the slots hold that jsmn did not fill. -/
theorem jsonNext_ends {numTokens i : Nat} {p : JsmnParser} (hparse : jsmnParse js numTokens = .ok p)
    (hi : i < p.count) :
    ∃ j, i < j ∧ j ≤ p.count ∧ ∀ depth, p.count ≤ depth →
      jsonNext (filled p.toks) depth i = .ok j ∧
        ∀ junk, jsonNext (withJunk p.toks junk) depth i = .ok j := by
  obtain ⟨htokens, hcount, -⟩ := jsmnParse_tokens hparse
  rw [hcount] at hi ⊢
  obtain ⟨j, hsub, hij, hj⟩ := htokens.subtree hi
  refine ⟨j, hij, hj, fun depth hdepth => ?_⟩
  have hnext := jsonNext_subtree hsub hj hdepth
  exact ⟨hnext, fun junk => jsonNext_mono (withJunk_of_filled p.toks junk) hnext⟩

/-- `["a":1 :2,,3]` is no JSON, and jsmn accepts it. -/
theorem jsonNext_ends_sample :
    ∃ p, jsmnParse (bytes "[\"a\":1 :2,,3]") 8 = .ok p ∧
      ∃ j, 1 < j ∧ j ≤ p.count ∧ ∀ depth, p.count ≤ depth →
        jsonNext (filled p.toks) depth 1 = .ok j ∧
          ∀ junk, jsonNext (withJunk p.toks junk) depth 1 = .ok j := by
  have hparse : jsmnParse (bytes "[\"a\":1 :2,,3]") 8 = .ok
      { pos := 13, toksuper := none, count := 5,
        toks := [⟨.array, 0, 13, 2⟩, ⟨.string, 2, 3, 1⟩, ⟨.primitive, 5, 6, 1⟩,
          ⟨.primitive, 8, 9, 0⟩, ⟨.primitive, 11, 12, 0⟩] } := by
    rfl
  exact ⟨_, hparse, jsonNext_ends hparse (by decide)⟩

/-! ### The pairs of an object -/

/-- The slot `t` is the `j`-th key when the tokens after the object `o` are taken in pairs of a key
token and the subtree that follows it. -/
inductive KeyAt (toks : List JsmnTok) (o : Nat) : Nat → Nat → Prop where
  | first : KeyAt toks o 0 (o + 1)
  | next {j t e : Nat} (hkey : KeyAt toks o j t) (hvalue : t + 1 < toks.length)
      (hsub : Subtree (sizeAt toks) (t + 1) e) : KeyAt toks o (j + 1) e

theorem KeyAt.unique {o j t t' : Nat} (h : KeyAt toks o j t) (h' : KeyAt toks o j t') :
    t = t' := by
  induction h generalizing t' with
  | first => cases h' with | first => rfl
  | next hkey hvalue hsub ih =>
      cases h' with
      | next hkey' hvalue' hsub' =>
          obtain rfl := ih hkey'
          exact hsub.unique hsub'

def tokText (js : Bytes) (t : JsmnTok) : Bytes :=
  (js.drop t.start.toNat).take (t.stop - t.start).toNat

/-- The token in slot `t` is a string with the text `key`. -/
def Names (js : Bytes) (toks : List JsmnTok) (key : Bytes) (t : Nat) : Prop :=
  ∃ tok, toks[t]? = some tok ∧ tok.type = .string ∧ tokText js tok = key

/-- The key at `t` is the `j`-th of the object `o`, and none before it is `key`. -/
def Reaches (js : Bytes) (toks : List JsmnTok) (o : Nat) (key : Bytes) (j t : Nat) : Prop :=
  KeyAt toks o j t ∧ ∀ i s, i < j → KeyAt toks o i s → ¬ Names js toks key s

/-- The value of the first member of `o` with the key `key`. -/
def Member (js : Bytes) (toks : List JsmnTok) (o : Nat) (key : Bytes) (v : Nat) : Prop :=
  ∃ j t, j < sizeAt toks o ∧ Reaches js toks o key j t ∧ Names js toks key t ∧ v = t + 1

/-- Each key the search for `key` comes to in the object `o` has a filled slot after it. -/
def PairsFit (js : Bytes) (toks : List JsmnTok) (o : Nat) (key : Bytes) : Prop :=
  ∀ j t, j < sizeAt toks o → Reaches js toks o key j t → t + 1 < toks.length

/-- The same for every object that the keys of a guide lead to. -/
def GuideFits (js : Bytes) (toks : List JsmnTok) : Nat → List Bytes → Prop
  | _, [] => True
  | o, key :: keys =>
    (∃ tok, toks[o]? = some tok ∧ tok.type = .object) →
      PairsFit js toks o key ∧ ∀ v, Member js toks o key v → GuideFits js toks v keys

theorem readText_tok (h : Tokens js toks) {t : JsmnTok} (ht : t ∈ toks) :
    readText js t.start t.stop = .ok (tokText js t) := by
  obtain ⟨hstart, hstop, hlen⟩ := h.inText t ht
  unfold readText
  rw [if_pos ⟨hstart, hstop, by exact_mod_cast hlen⟩]
  rfl

theorem tokText_length (h : Tokens js toks) {t : JsmnTok} (ht : t ∈ toks) :
    ((tokText js t).length : Int) = t.stop - t.start := by
  obtain ⟨hstart, hstop, hlen⟩ := h.inText t ht
  simp only [tokText, List.length_take, List.length_drop]
  omega

open Classical in
theorem jsonTokStreq_filled (h : Tokens js toks) {i : Nat} (hi : i < toks.length) (key : Bytes) :
    jsonTokStreq js toks[i] key = .ok (decide (Names js toks key i)) := by
  have hmem : toks[i] ∈ toks := List.getElem_mem hi
  have hnames : Names js toks key i ↔ toks[i].type = .string ∧ tokText js toks[i] = key := by
    simp [Names, List.getElem?_eq_getElem hi]
  unfold jsonTokStreq
  by_cases htype : toks[i].type = .string
  · by_cases hlen : toks[i].stop - toks[i].start = key.length
    · simp [htype, hlen, readText_tok h hmem, hnames, beq_eq_decide]
    · have hne : tokText js toks[i] ≠ key := by
        rintro rfl
        exact hlen (tokText_length h hmem).symm
      simp [htype, hlen, hnames, hne]
  · simp [htype, hnames]

theorem memberLoop_filled (h : Tokens js toks) {n t depth : Nat} (ht : t < toks.length)
    (key : Bytes) :
    (Names js toks key t → memberLoop (filled toks) js key depth (n + 1) t = .ok (some (t + 1))) ∧
      (¬ Names js toks key t → memberLoop (filled toks) js key depth (n + 1) t =
        (jsonNext (filled toks) depth (t + 1) >>= memberLoop (filled toks) js key depth n)) := by
  classical
  constructor
  · intro hnames
    rw [memberLoop, readTok_filled ht, run_bind_ok, jsonTokStreq_filled h ht, run_bind_ok]
    simp [hnames]
  · intro hnames
    rw [memberLoop, readTok_filled ht, run_bind_ok, jsonTokStreq_filled h ht, run_bind_ok]
    simp [hnames]

theorem Reaches.step {o j t e : Nat} {key : Bytes} (hreach : Reaches js toks o key j t)
    (hnames : ¬ Names js toks key t) (hvalue : t + 1 < toks.length)
    (hsub : Subtree (sizeAt toks) (t + 1) e) : Reaches js toks o key (j + 1) e := by
  refine ⟨.next hreach.1 hvalue hsub, fun i s hi hs => ?_⟩
  by_cases hij : i = j
  · subst hij
    obtain rfl := hs.unique hreach.1
    exact hnames
  · exact hreach.2 i s (by omega) hs

theorem Reaches.le_of_names {o j j' t t' : Nat} {key : Bytes} (hreach : Reaches js toks o key j t)
    (hnames : Names js toks key t) (hreach' : Reaches js toks o key j' t') : j' ≤ j := by
  by_contra hlt
  exact hreach'.2 j t (by omega) hreach.1 hnames

/-- The member loop stays among the filled slots exactly when the keys it comes to have a filled
slot after them. -/
theorem memberLoop_stays_iff (h : Tokens js toks) {depth : Nat} (hdepth : toks.length ≤ depth)
    {o n j t : Nat} {key : Bytes} (hreach : Reaches js toks o key j t) :
    (∃ r, memberLoop (filled toks) js key depth n t = .ok r ∧
        ∀ v, r = some v → v < toks.length) ↔
      ∀ j' t', j ≤ j' → j' < j + n → Reaches js toks o key j' t' → t' + 1 < toks.length := by
  induction n generalizing j t with
  | zero =>
      constructor
      · intro _ j' t' hj hj' _
        omega
      · intro _
        exact ⟨none, rfl, by simp⟩
  | succ n ih =>
      by_cases ht : t < toks.length
      swap
      · -- the key itself is not filled
        rw [memberLoop, readTok_unfilled (by omega)]
        constructor
        · rintro ⟨r, hr, _⟩
          cases hr
        · intro hfit
          exact absurd (hfit j t le_rfl (by omega) hreach) (by omega)
      by_cases hnames : Names js toks key t
      · rw [(memberLoop_filled h ht key).1 hnames]
        constructor
        · rintro ⟨r, hr, hlt⟩ j' t' hj hj' hreach'
          obtain rfl := Except.ok.inj hr
          have hle := hreach.le_of_names hnames hreach'
          obtain rfl : j' = j := by omega
          obtain rfl := hreach'.1.unique hreach.1
          exact hlt _ rfl
        · intro hfit
          refine ⟨_, rfl, ?_⟩
          rintro v hv
          obtain rfl := Option.some.inj hv
          exact hfit j t le_rfl (by omega) hreach
      rw [(memberLoop_filled h ht key).2 hnames]
      by_cases hvalue : t + 1 < toks.length
      · obtain ⟨e, hsub, _, he⟩ := h.subtree hvalue
        rw [jsonNext_subtree hsub he hdepth, run_bind_ok,
          ih (hreach.step hnames hvalue hsub)]
        constructor
        · intro hfit j' t' hj hj' hreach'
          by_cases hjj : j' = j
          · subst hjj
            obtain rfl := hreach'.1.unique hreach.1
            exact hvalue
          · exact hfit j' t' (by omega) (by omega) hreach'
        · intro hfit j' t' hj hj' hreach'
          exact hfit j' t' (by omega) (by omega) hreach'
      · -- the key is the last token, and its value would be the slot after it
        obtain ⟨depth, rfl⟩ : ∃ d, depth = d + 1 := ⟨depth - 1, by omega⟩
        rw [jsonNext, readTok_unfilled (by omega)]
        constructor
        · rintro ⟨r, hr, _⟩
          cases hr
        · intro hfit
          exact absurd (hfit j t le_rfl (by omega) hreach) hvalue

theorem memberLoop_result (h : Tokens js toks) {depth : Nat} (hdepth : toks.length ≤ depth)
    {o n j t : Nat} {key : Bytes} {r : Option Nat} (hreach : Reaches js toks o key j t)
    (hloop : memberLoop (filled toks) js key depth n t = .ok r) (v : Nat) :
    r = some v ↔ ∃ j' t', j ≤ j' ∧ j' < j + n ∧ Reaches js toks o key j' t' ∧
      Names js toks key t' ∧ v = t' + 1 := by
  induction n generalizing j t with
  | zero =>
      obtain rfl := Except.ok.inj hloop
      constructor
      · intro hv
        cases hv
      · rintro ⟨j', t', hj, hj', _⟩
        omega
  | succ n ih =>
      by_cases ht : t < toks.length
      swap
      · rw [memberLoop, readTok_unfilled (by omega)] at hloop
        cases hloop
      by_cases hnames : Names js toks key t
      · rw [(memberLoop_filled h ht key).1 hnames] at hloop
        obtain rfl := Except.ok.inj hloop
        constructor
        · intro hv
          exact ⟨j, t, le_rfl, by omega, hreach, hnames, (Option.some.inj hv).symm⟩
        · rintro ⟨j', t', hj, hj', hreach', _, rfl⟩
          have hle := hreach.le_of_names hnames hreach'
          obtain rfl : j' = j := by omega
          obtain rfl := hreach'.1.unique hreach.1
          rfl
      rw [(memberLoop_filled h ht key).2 hnames] at hloop
      obtain ⟨e, hnext, hrest⟩ := run_bind_eq_ok hloop
      have hvalue : t + 1 < toks.length := by
        by_contra hge
        obtain ⟨depth, rfl⟩ : ∃ d, depth = d + 1 := ⟨depth - 1, by omega⟩
        rw [jsonNext, readTok_unfilled (by omega)] at hnext
        cases hnext
      obtain ⟨e', hsub, _, he⟩ := h.subtree hvalue
      rw [jsonNext_subtree hsub he hdepth] at hnext
      obtain rfl := Except.ok.inj hnext
      rw [ih (hreach.step hnames hvalue hsub) hrest]
      constructor
      · rintro ⟨j', t', hj, hj', hrest⟩
        exact ⟨j', t', by omega, by omega, hrest⟩
      · rintro ⟨j', t', hj, hj', hreach', hnames', hv⟩
        refine ⟨j', t', ?_, by omega, hreach', hnames', hv⟩
        by_contra hlt
        obtain rfl : j' = j := by omega
        obtain rfl := hreach'.1.unique hreach.1
        exact hnames hnames'

theorem Reaches.start (o : Nat) (key : Bytes) : Reaches js toks o key 0 (o + 1) :=
  ⟨.first, fun _ _ hi => absurd hi (Nat.not_lt_zero _)⟩

theorem jsonGetMember_filled {o depth : Nat} (ho : o < toks.length)
    (htype : toks[o].type = .object) (key : Bytes) :
    jsonGetMember (filled toks) js key depth o =
      memberLoop (filled toks) js key depth (sizeAt toks o) (o + 1) := by
  rw [jsonGetMember, readTok_filled ho, run_bind_ok, sizeAt_eq ho]
  simp [htype]

theorem jsonGetMember_stays_iff (h : Tokens js toks) {o depth : Nat}
    (hdepth : toks.length ≤ depth) (ho : o < toks.length) (htype : toks[o].type = .object)
    (key : Bytes) :
    (∃ r, jsonGetMember (filled toks) js key depth o = .ok r ∧
        ∀ v, r = some v → v < toks.length) ↔ PairsFit js toks o key := by
  rw [jsonGetMember_filled ho htype, memberLoop_stays_iff h hdepth (Reaches.start o key)]
  constructor
  · intro hfit j t hj hreach
    exact hfit j t (Nat.zero_le j) (by omega) hreach
  · intro hfit j t _ hj hreach
    exact hfit j t (by omega) hreach

theorem jsonGetMember_result (h : Tokens js toks) {o depth : Nat}
    (hdepth : toks.length ≤ depth) (ho : o < toks.length) (htype : toks[o].type = .object)
    {key : Bytes} {r : Option Nat}
    (hget : jsonGetMember (filled toks) js key depth o = .ok r) (v : Nat) :
    r = some v ↔ Member js toks o key v := by
  rw [jsonGetMember_filled ho htype] at hget
  rw [memberLoop_result h hdepth (Reaches.start o key) hget]
  constructor
  · rintro ⟨j, t, _, hj, hrest⟩
    exact ⟨j, t, by omega, hrest⟩
  · rintro ⟨j, t, hj, hrest⟩
    exact ⟨j, t, Nat.zero_le j, by omega, hrest⟩

end Forest

/-! ### Guides -/

theorem takeWhile_guide {key : Bytes} (hkey : dot ∉ key) (keys : List Bytes) :
    (key ++ guideOf keys).takeWhile (· ≠ dot) = key := by
  induction key with
  | nil =>
      cases keys with
      | nil => rfl
      | cons key keys => simp [guideOf]
  | cons c key ih =>
      simp only [List.mem_cons, not_or] at hkey
      rw [List.cons_append, List.takeWhile_cons, if_pos (by simpa using Ne.symm hkey.1), ih hkey.2]

theorem delveLoop_cons (mem : TokMem) (js : Bytes) (depth fuel tok : Nat) {key : Bytes}
    (hkey : IsGuideKey key) (keys : List Bytes) :
    delveLoop mem js depth (fuel + 1) tok (guideOf (key :: keys)) = (do
      let t ← readTok mem tok
      if t.type ≠ .object then .ok none
      else
        match ← jsonGetMember mem js key depth tok with
        | none => .ok none
        | some tok => delveLoop mem js depth fuel tok (guideOf keys)) := by
  obtain ⟨hdot, _, hlen⟩ := hkey
  have hguide : guideOf (key :: keys) = dot :: (key ++ guideOf keys) := rfl
  rw [hguide, delveLoop, takeWhile_guide hdot, if_neg (by omega), if_neg (by simp)]
  generalize hrest : (key ++ guideOf keys).drop key.length = rest
  rw [List.drop_left] at hrest
  subst hrest
  rfl

section Delve

variable {js : Bytes} {toks : List JsmnTok}

/-- `json_delve` inspects filled slots only, and its result is `NULL` or a filled slot. -/
def DelveStays (js : Bytes) (toks : List JsmnTok) (depth : Nat) (guide : Bytes) : Prop :=
  ∃ r, jsonDelve (filled toks) js depth 0 guide = .ok r ∧ ∀ v, r = some v → v < toks.length

theorem delveLoop_stays_iff (h : Tokens js toks) {depth : Nat} (hdepth : toks.length ≤ depth)
    {keys : List Bytes} (hkeys : ∀ key ∈ keys, IsGuideKey key) {fuel o : Nat}
    (hfuel : keys.length ≤ fuel) (ho : o < toks.length) :
    (∃ r, delveLoop (filled toks) js depth fuel o (guideOf keys) = .ok r ∧
        ∀ v, r = some v → v < toks.length) ↔ GuideFits js toks o keys := by
  induction keys generalizing fuel o with
  | nil =>
      constructor
      · intro _
        trivial
      · intro _
        refine ⟨some o, by cases fuel <;> rfl, ?_⟩
        rintro v hv
        obtain rfl := Option.some.inj hv
        exact ho
  | cons key keys ih =>
      obtain ⟨fuel, rfl⟩ : ∃ f, fuel = f + 1 := ⟨fuel - 1, by simp at hfuel; omega⟩
      have hkey := hkeys key (by simp)
      have hrest : ∀ key ∈ keys, IsGuideKey key := fun k hk => hkeys k (by simp [hk])
      have hfuel' : keys.length ≤ fuel := by simpa using hfuel
      rw [delveLoop_cons _ _ _ _ _ hkey, readTok_filled ho, run_bind_ok]
      by_cases htype : toks[o].type = .object
      swap
      · rw [if_pos htype]
        constructor
        · rintro _ ⟨tok, htok, hobj⟩
          rw [List.getElem?_eq_getElem ho] at htok
          obtain rfl := Option.some.inj htok
          exact absurd hobj htype
        · intro _
          exact ⟨none, rfl, by simp⟩
      rw [if_neg (by simp [htype])]
      have hobj : ∃ tok, toks[o]? = some tok ∧ tok.type = .object :=
        ⟨toks[o], List.getElem?_eq_getElem ho, htype⟩
      constructor
      · rintro ⟨r, hr, hlt⟩ _
        obtain ⟨m, hm, hr⟩ := run_bind_eq_ok hr
        have hresult := jsonGetMember_result h hdepth ho htype hm
        have hstays : ∀ v, m = some v → v < toks.length := by
          intro v hv
          subst hv
          cases keys with
          | nil =>
              apply hlt v
              have : delveLoop (filled toks) js depth fuel v [] = .ok (some v) := by
                cases fuel <;> rfl
              exact Except.ok.inj (hr.symm.trans this)
          | cons key' keys =>
              -- the next round reads the token
              obtain ⟨fuel, rfl⟩ : ∃ f, fuel = f + 1 := ⟨fuel - 1, by simp at hfuel'; omega⟩
              by_contra hge
              simp only [delveLoop_cons _ _ _ _ _ (hrest key' (by simp)),
                readTok_unfilled (Nat.le_of_not_lt hge), run_bind_error] at hr
              cases hr
        refine ⟨(jsonGetMember_stays_iff h hdepth ho htype key).mp ⟨m, hm, hstays⟩, ?_⟩
        intro v hv
        obtain rfl := (hresult v).mpr hv
        exact (ih hrest hfuel' (hstays v rfl)).mp ⟨r, hr, hlt⟩
      · intro hfits
        obtain ⟨hpairs, hmembers⟩ := hfits hobj
        obtain ⟨m, hm, hstays⟩ := (jsonGetMember_stays_iff h hdepth ho htype key).mpr hpairs
        rw [hm, run_bind_ok]
        cases m with
        | none => exact ⟨none, rfl, by simp⟩
        | some v =>
            have hmember := (jsonGetMember_result h hdepth ho htype hm v).mp rfl
            exact (ih hrest hfuel' (hstays v rfl)).mpr (hmembers v hmember)

theorem length_le_guideOf (keys : List Bytes) : keys.length ≤ (guideOf keys).length := by
  induction keys with
  | nil => exact le_rfl
  | cons key keys ih =>
      simp only [guideOf, List.flatMap_cons, List.length_append, List.length_cons] at ih ⊢
      omega

/-- **Where the walk stays.** On a document that jsmn accepts, `json_delve` reads and returns slots
below the count exactly when at each object the guide comes to the keys of the search have their
values among the filled slots. -/
theorem jsonDelve_stays_iff {numTokens depth : Nat} {p : JsmnParser}
    (hparse : jsmnParse js numTokens = .ok p) (hcount : 0 < p.count) (hdepth : p.count ≤ depth)
    {keys : List Bytes} (hkeys : ∀ key ∈ keys, IsGuideKey key) :
    DelveStays js p.toks depth (guideOf keys) ↔ GuideFits js p.toks 0 keys := by
  obtain ⟨htokens, hlen, _⟩ := jsmnParse_tokens hparse
  exact delveLoop_stays_iff htokens (by omega) hkeys (length_le_guideOf keys) (by omega)

theorem jsonDelve_stays_iff_sample :
    ∃ p, jsmnParse (bytes "\x7b\"a\":1\x7d") 8 = .ok p ∧
      (DelveStays (bytes "\x7b\"a\":1\x7d") p.toks 8 (guideOf [bytes "a"]) ↔
        GuideFits (bytes "\x7b\"a\":1\x7d") p.toks 0 [bytes "a"]) := by
  have hparse : jsmnParse (bytes "\x7b\"a\":1\x7d") 8 = .ok
      { pos := 7, toksuper := none, count := 3,
        toks := [⟨.object, 0, 7, 1⟩, ⟨.string, 2, 3, 1⟩, ⟨.primitive, 5, 6, 0⟩] } := by
    rfl
  refine ⟨_, hparse, jsonDelve_stays_iff hparse (by decide) (by decide) ?_⟩
  intro key hkey
  obtain rfl := List.mem_singleton.mp hkey
  exact ⟨by decide, by decide, by decide⟩

/-- `{"ipv4"}` is accepted with two tokens, and the search for `.ipv4.ip` reads a third. -/
theorem jsonDelve_leaves_tokens :
    ∃ p, jsmnParse (bytes "\x7b\"ipv4\"\x7d") 128 = .ok p ∧ 0 < p.count ∧
      ¬ DelveStays (bytes "\x7b\"ipv4\"\x7d") p.toks 128 (guideOf [bytes "ipv4", bytes "ip"]) := by
  have hparse : jsmnParse (bytes "\x7b\"ipv4\"\x7d") 128 = .ok
      { pos := 8, toksuper := none, count := 2,
        toks := [⟨.object, 0, 8, 1⟩, ⟨.string, 2, 6, 0⟩] } := by
    rfl
  refine ⟨_, hparse, by decide, ?_⟩
  rintro ⟨r, hr, _⟩
  have hfault : jsonDelve (filled [⟨.object, 0, 8, 1⟩, ⟨.string, 2, 6, 0⟩])
      (bytes "\x7b\"ipv4\"\x7d") 128 0 (guideOf [bytes "ipv4", bytes "ip"]) = .error (.slot 2) := by
    rfl
  rw [hfault] at hr
  cases hr

end Delve

end AtxSys
