import AtxSys.Proof.RoundTrip

/-!
# Walks on any stack

Behind the slots that jsmn filled a token array holds what the stack held. A walk that inspects
filled slots only ends in the same way on every stack. Over `trapStack` no other walk ends well, so
what holds on every stack holds of the filled slots.
-/

namespace AtxSys

open CText JsonSyntax

/-! ### What a guide leads to -/

section Leads

variable {js : Bytes} {toks : List JsmnTok}

/-- The keys lead from the token `o` to the token `v`. -/
def Leads (js : Bytes) (toks : List JsmnTok) : Nat → List Bytes → Nat → Prop
  | o, [], v => v = o
  | o, key :: keys, v =>
    (∃ tok, toks[o]? = some tok ∧ tok.type = .object) ∧
      ∃ m, Member js toks o key m ∧ Leads js toks m keys v

theorem delveLoop_leads (h : Tokens js toks) {depth : Nat} (hdepth : toks.length ≤ depth)
    {keys : List Bytes} (hkeys : ∀ key ∈ keys, IsGuideKey key) {fuel o : Nat} {r : Option Nat}
    (hfuel : keys.length ≤ fuel)
    (hrun : delveLoop (filled toks) js depth fuel o (guideOf keys) = .ok r) (v : Nat) :
    r = some v ↔ Leads js toks o keys v := by
  induction keys generalizing fuel o with
  | nil =>
      have hend : delveLoop (filled toks) js depth fuel o (guideOf []) = .ok (some o) := by
        cases fuel <;> rfl
      rw [Except.ok.inj (hrun.symm.trans hend), Option.some.injEq]
      exact eq_comm
  | cons key keys ih =>
      obtain ⟨fuel, rfl⟩ : ∃ f, fuel = f + 1 := ⟨fuel - 1, by simp at hfuel; omega⟩
      rw [delveLoop_cons _ _ _ _ _ (hkeys key List.mem_cons_self)] at hrun
      obtain ⟨t, ht, hrun⟩ := run_bind_eq_ok hrun
      have ho : o < toks.length := by
        by_contra hge
        rw [readTok_unfilled (Nat.le_of_not_lt hge)] at ht
        cases ht
      rw [readTok_filled ho] at ht
      obtain rfl := Except.ok.inj ht
      split at hrun
      · next htype =>
        rw [← Except.ok.inj hrun]
        refine iff_of_false (by simp) ?_
        rintro ⟨⟨tok, htok, hobj⟩, -⟩
        rw [List.getElem?_eq_getElem ho] at htok
        exact htype (Option.some.inj htok ▸ hobj)
      · next htype =>
        have hobj : toks[o].type = .object := not_not.mp htype
        obtain ⟨m, hm, hrun⟩ := run_bind_eq_ok hrun
        have hmember := jsonGetMember_result h hdepth ho hobj hm
        cases m with
        | none =>
            rw [← Except.ok.inj hrun]
            refine iff_of_false (by simp) ?_
            rintro ⟨-, m, hm, -⟩
            exact absurd ((hmember m).mpr hm) (by simp)
        | some m =>
            rw [ih (fun k hk => hkeys k (List.mem_cons_of_mem _ hk))
              (by simpa using hfuel) hrun]
            constructor
            · intro hleads
              exact ⟨⟨toks[o], List.getElem?_eq_getElem ho, hobj⟩, m, (hmember m).mp rfl, hleads⟩
            · rintro ⟨-, m', hm', hleads⟩
              rwa [Option.some.inj ((hmember m').mpr hm')]

/-- A search that finds nothing has looked at every pair. -/
theorem PairsFit.of_missing {o : Nat} {key key' : Bytes} (hfit : PairsFit js toks o key)
    (hmissing : ∀ v, ¬Member js toks o key v) : PairsFit js toks o key' := by
  have hnone : ∀ i s, i < sizeAt toks o → KeyAt toks o i s → ¬Names js toks key s := by
    intro i
    induction i using Nat.strongRecOn with
    | ind i ih =>
        intro s hi hs hnames
        have hreach : Reaches js toks o key i s :=
          ⟨hs, fun i' s' hi' hs' => ih i' hi' s' (Nat.lt_trans hi' hi) hs'⟩
        exact hmissing (s + 1) ⟨i, s, hi, hreach, hnames, rfl⟩
  intro j t hj hreach
  exact hfit j t hj ⟨hreach.1, fun i s hi hs => hnone i s (Nat.lt_trans hi hj) hs⟩

theorem guideFits_of_missing {first key key' : Bytes}
    (hfits : GuideFits js toks 0 [first, key])
    (hmissing : ∀ v, ¬Leads js toks 0 [first, key] v) :
    GuideFits js toks 0 [first, key'] := by
  intro hroot
  obtain ⟨hpairs, hmembers⟩ := hfits hroot
  refine ⟨hpairs, fun m hm hobj => ⟨?_, fun _ _ => trivial⟩⟩
  apply (hmembers m hm hobj).1.of_missing
  intro v hv
  exact hmissing v ⟨hroot, m, hm, hobj, v, hv, rfl⟩

end Leads

/-! ### What a walk inspects -/

section Reads

variable {js : Bytes} {toks : List JsmnTok}

/-- Each key the search for `key` passes over in the object `o` has a filled slot after it. -/
def PairsRead (js : Bytes) (toks : List JsmnTok) (o : Nat) (key : Bytes) : Prop :=
  ∀ j t, j < sizeAt toks o → Reaches js toks o key j t → Names js toks key t ∨ t + 1 < toks.length

/-- The walk inspects filled slots only; what it returns may be the slot behind them. -/
def GuideReads (js : Bytes) (toks : List JsmnTok) : Nat → List Bytes → Prop
  | _, [] => True
  | o, key :: keys => o < toks.length ∧
    ((∃ tok, toks[o]? = some tok ∧ tok.type = .object) →
      PairsRead js toks o key ∧ ∀ v, Member js toks o key v → GuideReads js toks v keys)

theorem jsonNext_unfilled {depth t : Nat} {r : Nat} (ht : toks.length ≤ t) :
    jsonNext (filled toks) depth t ≠ .ok r := by
  cases depth with
  | zero => simp [jsonNext]
  | succ depth => simp [jsonNext, readTok_unfilled ht]

/-- The search ends on the filled slots exactly when the keys it passes over have their values. -/
theorem memberLoop_ends_iff (h : Tokens js toks) {depth : Nat} (hdepth : toks.length ≤ depth)
    {o n j t : Nat} {key : Bytes} (hreach : Reaches js toks o key j t) :
    (∃ r, memberLoop (filled toks) js key depth n t = .ok r) ↔
      ∀ j' t', j ≤ j' → j' < j + n → Reaches js toks o key j' t' →
        Names js toks key t' ∨ t' + 1 < toks.length := by
  induction n generalizing j t with
  | zero =>
      refine iff_of_true ⟨none, rfl⟩ fun j' t' hj hj' => ?_
      omega
  | succ n ih =>
      by_cases hnames : Names js toks key t
      · rw [(memberLoop_filled h hnames.lt key).1 hnames]
        refine iff_of_true ⟨_, rfl⟩ fun j' t' hj hj' hreach' => .inl ?_
        have hle := hreach.le_of_names hnames hreach'
        obtain rfl : j' = j := by omega
        obtain rfl := hreach'.1.unique hreach.1
        exact hnames
      by_cases hvalue : t + 1 < toks.length
      swap
      · -- the key or its value is not filled
        refine iff_of_false ?_ fun hreads => ?_
        · rintro ⟨r, hr⟩
          by_cases ht : t < toks.length
          · rw [(memberLoop_filled h ht key).2 hnames] at hr
            obtain ⟨e, he, -⟩ := run_bind_eq_ok hr
            exact jsonNext_unfilled (Nat.le_of_not_lt hvalue) he
          · rw [memberLoop, readTok_unfilled (Nat.le_of_not_lt ht)] at hr
            cases hr
        · exact (hreads j t le_rfl (by omega) hreach).elim hnames hvalue
      obtain ⟨e, hsub, -, he⟩ := h.subtree hvalue
      rw [(memberLoop_filled h (by omega) key).2 hnames, jsonNext_subtree hsub he hdepth,
        run_bind_ok, ih (hreach.step hnames hvalue hsub)]
      constructor
      · intro hreads j' t' hj hj' hreach'
        by_cases hjj : j' = j
        · subst hjj
          obtain rfl := hreach'.1.unique hreach.1
          exact .inr hvalue
        · exact hreads j' t' (by omega) (by omega) hreach'
      · intro hreads j' t' hj hj' hreach'
        exact hreads j' t' (by omega) (by omega) hreach'

theorem jsonGetMember_ends_iff (h : Tokens js toks) {o depth : Nat}
    (hdepth : toks.length ≤ depth) (ho : o < toks.length) (htype : toks[o].type = .object)
    (key : Bytes) :
    (∃ r, jsonGetMember (filled toks) js key depth o = .ok r) ↔ PairsRead js toks o key := by
  rw [jsonGetMember_filled ho htype, memberLoop_ends_iff h hdepth (Reaches.start o key)]
  constructor
  · intro hreads j t hj hreach
    exact hreads j t (Nat.zero_le j) (by omega) hreach
  · intro hreads j t _ hj hreach
    exact hreads j t (by omega) hreach

/-- The walk ends on the filled slots exactly when it inspects no other. -/
theorem delveLoop_ends_iff (h : Tokens js toks) {depth : Nat} (hdepth : toks.length ≤ depth)
    {keys : List Bytes} (hkeys : ∀ key ∈ keys, IsGuideKey key) {fuel o : Nat}
    (hfuel : keys.length ≤ fuel) :
    (∃ r, delveLoop (filled toks) js depth fuel o (guideOf keys) = .ok r) ↔
      GuideReads js toks o keys := by
  induction keys generalizing fuel o with
  | nil =>
      refine iff_of_true ⟨some o, ?_⟩ trivial
      cases fuel <;> rfl
  | cons key keys ih =>
      obtain ⟨fuel, rfl⟩ : ∃ f, fuel = f + 1 := ⟨fuel - 1, by simp at hfuel; omega⟩
      have hrest : ∀ key ∈ keys, IsGuideKey key := fun k hk => hkeys k (List.mem_cons_of_mem _ hk)
      have hfuel' : keys.length ≤ fuel := by simpa using hfuel
      rw [delveLoop_cons _ _ _ _ _ (hkeys key List.mem_cons_self)]
      by_cases ho : o < toks.length
      swap
      · rw [readTok_unfilled (Nat.le_of_not_lt ho)]
        refine iff_of_false ?_ fun hreads => ho hreads.1
        rintro ⟨r, hr⟩
        cases hr
      rw [readTok_filled ho, run_bind_ok]
      by_cases htype : toks[o].type = .object
      swap
      · rw [if_pos htype]
        refine iff_of_true ⟨none, rfl⟩ ⟨ho, ?_⟩
        rintro ⟨tok, htok, hobj⟩
        rw [List.getElem?_eq_getElem ho] at htok
        exact absurd (Option.some.inj htok ▸ hobj) htype
      rw [if_neg (not_not.mpr htype)]
      have hobj : ∃ tok, toks[o]? = some tok ∧ tok.type = .object :=
        ⟨toks[o], List.getElem?_eq_getElem ho, htype⟩
      constructor
      · rintro ⟨r, hr⟩
        obtain ⟨m, hm, hr⟩ := run_bind_eq_ok hr
        refine ⟨ho, fun _ => ⟨(jsonGetMember_ends_iff h hdepth ho htype key).mp ⟨m, hm⟩, ?_⟩⟩
        intro v hv
        obtain rfl := (jsonGetMember_result h hdepth ho htype hm v).mpr hv
        exact (ih hrest hfuel').mp ⟨r, hr⟩
      · rintro ⟨-, hreads⟩
        obtain ⟨hpairs, hmembers⟩ := hreads hobj
        obtain ⟨m, hm⟩ := (jsonGetMember_ends_iff h hdepth ho htype key).mpr hpairs
        rw [hm, run_bind_ok]
        cases m with
        | none => exact ⟨none, rfl⟩
        | some v =>
            have hmember := (jsonGetMember_result h hdepth ho htype hm v).mp rfl
            exact (ih hrest hfuel').mpr (hmembers v hmember)

theorem GuideFits.reads {o : Nat} {keys : List Bytes} (ho : o < toks.length)
    (h : GuideFits js toks o keys) : GuideReads js toks o keys := by
  induction keys generalizing o with
  | nil => trivial
  | cons key keys ih =>
      refine ⟨ho, fun hobj => ?_⟩
      obtain ⟨hpairs, hmembers⟩ := h hobj
      refine ⟨fun j t hj hreach => .inr (hpairs j t hj hreach), fun v hv => ?_⟩
      obtain ⟨j, t, hj, hreach, -, rfl⟩ := id hv
      exact ih (hpairs j t hj hreach) (hmembers _ hv)

end Reads

/-! ### A stack on which a walk behind the tokens never ends well -/

/-- An object with one member and no text. -/
def trap : JsmnTok := ⟨.object, -1, -1, 1⟩

def trapStack : Stack := { zeroStack with junk := fun _ => trap }

section Trap

variable {js : Bytes} {toks : List JsmnTok} {n : Nat}

theorem readTok_trap {i : Nat} {t : JsmnTok} (hi : toks.length ≤ i)
    (h : readTok (tokArray n toks trapStack) i = .ok t) : t = trap := by
  have hnone : toks[i]? = none := List.getElem?_eq_none hi
  unfold readTok tokArray withJunk at h
  rw [hnone] at h
  by_cases hn : i < n
  · rw [if_pos hn] at h
    exact (Except.ok.inj h).symm
  · rw [if_neg hn] at h
    cases h

theorem readTok_tokens (hroom : toks.length ≤ n) {i : Nat} (hi : i < toks.length) :
    readTok (tokArray n toks trapStack) i = .ok toks[i] :=
  readTok_mono (tokArray_of_filled hroom) (readTok_filled hi)

theorem jsonNext_trap {depth i j : Nat} (hi : toks.length ≤ i) :
    jsonNext (tokArray n toks trapStack) depth i ≠ .ok j := by
  induction depth generalizing i j with
  | zero => simp [jsonNext]
  | succ depth ih =>
      intro h
      obtain ⟨t, ht, h⟩ := run_bind_eq_ok h
      rw [readTok_trap hi ht] at h
      obtain ⟨k, hk, -⟩ := run_bind_eq_ok h
      have hi' : toks.length ≤ i + 1 := Nat.le_succ_of_le hi
      exact ih hi' hk

theorem jsonTokStreq_trap (label : Bytes) : jsonTokStreq js trap label = .ok false := rfl

theorem memberLoop_junk {depth : Nat} {label : Bytes} {k t : Nat} {r : Option Nat}
    (ht : toks.length ≤ t) :
    memberLoop (tokArray n toks trapStack) js label depth (k + 1) t ≠ .ok r := by
  intro h
  obtain ⟨key, hkey, h⟩ := run_bind_eq_ok h
  rw [readTok_trap ht hkey, jsonTokStreq_trap, run_bind_ok] at h
  simp only [Bool.false_eq_true, if_false] at h
  obtain ⟨next, hnext, -⟩ := run_bind_eq_ok h
  exact jsonNext_trap (Nat.le_succ_of_le ht) hnext

/-- The search ends among the tokens, or it does not end well. -/
theorem memberLoop_trap (htokens : Tokens js toks) (hroom : toks.length ≤ n) {depth : Nat}
    (hdepth : toks.length ≤ depth) {label : Bytes} {k t : Nat} {r : Option Nat}
    (h : memberLoop (tokArray n toks trapStack) js label depth k t = .ok r) :
    memberLoop (filled toks) js label depth k t = .ok r := by
  induction k generalizing t with
  | zero => exact h
  | succ k ih =>
      have hrun := h
      obtain ⟨key, hkey, h⟩ := run_bind_eq_ok h
      by_cases ht : t < toks.length
      · rw [readTok_tokens hroom ht] at hkey
        obtain rfl := Except.ok.inj hkey
        obtain ⟨found, hfound, h⟩ := run_bind_eq_ok h
        rw [memberLoop, readTok_filled ht, run_bind_ok, hfound, run_bind_ok]
        cases found with
        | true => exact h
        | false =>
            obtain ⟨next, hnext, h⟩ := run_bind_eq_ok h
            have hvalue : t + 1 < toks.length := by
              by_contra hge
              exact jsonNext_trap (Nat.le_of_not_lt hge) hnext
            obtain ⟨e, hsub, -, he⟩ := htokens.subtree hvalue
            have hfilled := jsonNext_subtree hsub he hdepth
            have hsame := (jsonNext_mono (tokArray_of_filled hroom) hfilled).symm.trans hnext
            simp only [Bool.false_eq_true, if_false]
            rw [hfilled, Except.ok.inj hsame]
            exact ih h
      · exact absurd hrun (memberLoop_junk (Nat.le_of_not_lt ht))

theorem jsonGetMember_trap (htokens : Tokens js toks) (hroom : toks.length ≤ n) {depth : Nat}
    (hdepth : toks.length ≤ depth) {label : Bytes} {o : Nat} {r : Option Nat}
    (h : jsonGetMember (tokArray n toks trapStack) js label depth o = .ok r) :
    jsonGetMember (filled toks) js label depth o = .ok r := by
  obtain ⟨t, ht, h⟩ := run_bind_eq_ok h
  by_cases ho : o < toks.length
  · rw [readTok_tokens hroom ho] at ht
    obtain rfl := Except.ok.inj ht
    rw [jsonGetMember, readTok_filled ho, run_bind_ok]
    split at h
    · rwa [if_pos ‹_›]
    · rw [if_neg ‹_›]
      exact memberLoop_trap htokens hroom hdepth h
  · rw [readTok_trap (Nat.le_of_not_lt ho) ht] at h
    exact absurd h (memberLoop_junk (by omega))

theorem delveLoop_trap (htokens : Tokens js toks) (hroom : toks.length ≤ n) {depth : Nat}
    (hdepth : toks.length ≤ depth) {fuel o : Nat} {guide : Bytes} {r : Option Nat}
    (h : delveLoop (tokArray n toks trapStack) js depth fuel o guide = .ok r) :
    delveLoop (filled toks) js depth fuel o guide = .ok r := by
  induction fuel generalizing o guide with
  | zero => cases guide <;> exact h
  | succ fuel ih =>
      cases guide with
      | nil => exact h
      | cons c guide =>
          rw [delveLoop] at h ⊢
          split at h
          · cases h
          rw [if_neg ‹_›]
          split at h
          · cases h
          rw [if_neg ‹_›]
          obtain ⟨t, ht, h⟩ := run_bind_eq_ok h
          by_cases ho : o < toks.length
          · rw [readTok_tokens hroom ho] at ht
            obtain rfl := Except.ok.inj ht
            rw [readTok_filled ho, run_bind_ok]
            split at h
            · rwa [if_pos ‹_›]
            rw [if_neg ‹_›]
            obtain ⟨m, hm, h⟩ := run_bind_eq_ok h
            rw [jsonGetMember_trap htokens hroom hdepth hm, run_bind_ok]
            cases m with
            | none => exact h
            | some next => exact ih h
          · rw [readTok_trap (Nat.le_of_not_lt ho) ht, if_neg (by decide)] at h
            obtain ⟨m, hm, -⟩ := run_bind_eq_ok h
            obtain ⟨t', ht', -⟩ := run_bind_eq_ok (jsonGetMember_trap htokens hroom hdepth hm)
            rw [readTok_unfilled (Nat.le_of_not_lt ho)] at ht'
            cases ht'

theorem jsonTokValue_trap {i : Nat} (hi : toks.length ≤ i) {s : Bytes} :
    jsonTokValue js (tokArray n toks trapStack) i ≠ .ok s := by
  intro h
  obtain ⟨t, ht, h⟩ := run_bind_eq_ok h
  rw [readTok_trap hi ht] at h
  cases h

end Trap

/-! ### Where a walk fits, it does not look behind the tokens -/

section Fits

variable {js : Bytes} {toks : List JsmnTok} {n : Nat} {stack : Stack} {keys : List Bytes}

theorem jsonDelve_fits (htokens : Tokens js toks) (hroom : toks.length ≤ n)
    (hdepth : toks.length ≤ stack.depth) (hpos : 0 < toks.length)
    (hkeys : ∀ key ∈ keys, IsGuideKey key) (hfits : GuideFits js toks 0 keys) :
    ∃ found, jsonDelve (tokArray n toks stack) js stack.depth 0 (guideOf keys) = .ok found ∧
      (∀ v, found = some v ↔ Leads js toks 0 keys v) ∧ ∀ v ∈ found, ∃ t, toks[v]? = some t ∧
        jsonTokValue js (tokArray n toks stack) v = .ok (tokText js t) := by
  have hlen := length_le_guideOf keys
  have hmem : ∀ i t, filled toks i = some t → tokArray n toks stack i = some t :=
    tokArray_of_filled hroom
  obtain ⟨found, hfound, hlt⟩ :=
    (delveLoop_stays_iff htokens hdepth hkeys hlen hpos).mpr hfits
  refine ⟨found, jsonDelve_mono hmem hfound, delveLoop_leads htokens hdepth hkeys hlen hfound, ?_⟩
  intro v hv
  have hlt := hlt v hv
  have ht : toks[v]? = some toks[v] := List.getElem?_eq_getElem hlt
  exact ⟨_, ht, jsonTokValue_tokArray htokens hroom ht⟩

theorem found_iff_leads (htokens : Tokens js toks) (hroom : toks.length ≤ n)
    (hdepth : toks.length ≤ stack.depth) (hpos : 0 < toks.length)
    (hkeys : ∀ key ∈ keys, IsGuideKey key) (hfits : GuideFits js toks 0 keys) (s : Bytes) :
    Found (tokArray n toks stack) js stack.depth (guideOf keys) s ↔
      ∃ v t, Leads js toks 0 keys v ∧ toks[v]? = some t ∧ s = tokText js t := by
  obtain ⟨found, hfound, hleads, hvalue⟩ :=
    jsonDelve_fits htokens hroom hdepth hpos hkeys hfits
  constructor
  · rintro ⟨v, hv, hs⟩
    obtain rfl := Except.ok.inj (hfound.symm.trans hv)
    obtain ⟨t, ht, htext⟩ := hvalue v rfl
    exact ⟨v, t, (hleads v).mp rfl, ht, Except.ok.inj (hs.symm.trans htext)⟩
  · rintro ⟨v, t, hv, ht, rfl⟩
    obtain rfl := (hleads v).mpr hv
    obtain ⟨t', ht', htext⟩ := hvalue v rfl
    obtain rfl := Option.some.inj (ht.symm.trans ht')
    exact ⟨v, hfound, htext⟩

/-- A walk that inspects filled slots only ends in the same way on every stack. -/
theorem jsonDelve_reads (htokens : Tokens js toks) (hroom : toks.length ≤ n)
    (hdepth : toks.length ≤ stack.depth) (hkeys : ∀ key ∈ keys, IsGuideKey key)
    (hreads : GuideReads js toks 0 keys) :
    ∃ found, jsonDelve (tokArray n toks stack) js stack.depth 0 (guideOf keys) = .ok found ∧
      ∀ v, found = some v ↔ Leads js toks 0 keys v := by
  have hlen := length_le_guideOf keys
  obtain ⟨found, hfound⟩ := (delveLoop_ends_iff htokens hdepth hkeys hlen).mpr hreads
  exact ⟨found, jsonDelve_mono (tokArray_of_filled hroom) hfound,
    delveLoop_leads htokens hdepth hkeys hlen hfound⟩

/-- A walk that ends over `trapStack` inspected filled slots only, -/
theorem guideReads_of_trap (htokens : Tokens js toks) (hroom : toks.length ≤ n)
    (hdepth : toks.length ≤ trapStack.depth) (hkeys : ∀ key ∈ keys, IsGuideKey key)
    {r : Option Nat}
    (h : jsonDelve (tokArray n toks trapStack) js trapStack.depth 0 (guideOf keys) = .ok r) :
    GuideReads js toks 0 keys ∧ ∀ v, r = some v ↔ Leads js toks 0 keys v := by
  have hlen := length_le_guideOf keys
  have hfilled := delveLoop_trap htokens hroom hdepth h
  exact ⟨(delveLoop_ends_iff htokens hdepth hkeys hlen).mp ⟨r, hfilled⟩,
    delveLoop_leads htokens hdepth hkeys hlen hfilled⟩

/-- and stayed among the tokens if it returned one of them or nothing. -/
theorem guideFits_of_trap (htokens : Tokens js toks) (hroom : toks.length ≤ n)
    (hdepth : toks.length ≤ trapStack.depth) (hpos : 0 < toks.length)
    (hkeys : ∀ key ∈ keys, IsGuideKey key) {r : Option Nat}
    (h : jsonDelve (tokArray n toks trapStack) js trapStack.depth 0 (guideOf keys) = .ok r)
    (hlt : ∀ v, r = some v → v < toks.length) : GuideFits js toks 0 keys :=
  (delveLoop_stays_iff htokens hdepth hkeys (length_le_guideOf keys) hpos).mp
    ⟨r, delveLoop_trap htokens hroom hdepth h, hlt⟩

end Fits

/-! ### The configuration -/

/-- The keys of the five values, as `put` looks for them. -/
def valueKeys : List Bytes := [bytes "meth", bytes "ip", bytes "sn", bytes "gw", bytes "hn"]

/-- No walk to a value inspects a slot behind the tokens. -/
def ConfigReads (js : Bytes) (toks : List JsmnTok) : Prop :=
  ∀ key ∈ valueKeys, GuideReads js toks 0 [bytes "ipv4", key]

/-- No walk to a value leaves the tokens. -/
def ConfigFits (js : Bytes) (toks : List JsmnTok) : Prop :=
  ∀ key ∈ valueKeys, GuideFits js toks 0 [bytes "ipv4", key]

/-- The document has each value. -/
def ConfigLeads (js : Bytes) (toks : List JsmnTok) : Prop :=
  ∀ key ∈ valueKeys, ∃ v, Leads js toks 0 [bytes "ipv4", key] v

/-- The keys of the five guides. -/
theorem networkKeys (key : Bytes) (hkey : key ∈ valueKeys) :
    ∀ k ∈ [bytes "ipv4", key], IsGuideKey k := by
  have hfirst : IsGuideKey (bytes "ipv4") := ⟨by decide, by decide, by decide⟩
  have hsecond : IsGuideKey key := by
    simp only [valueKeys, List.mem_cons, List.not_mem_nil, or_false] at hkey
    rcases hkey with rfl | rfl | rfl | rfl | rfl <;> exact ⟨by decide, by decide, by decide⟩
  intro k hk
  rcases List.mem_pair.mp hk with rfl | rfl
  · exact hfirst
  · exact hsecond

/-- A walk to a value that finds nothing over `trapStack` shows that every walk stays among the
tokens. -/
theorem configFits_of_missing {js : Bytes} {toks : List JsmnTok} {n : Nat} {key : Bytes}
    (htokens : Tokens js toks) (hroom : toks.length ≤ n) (hdepth : toks.length ≤ trapStack.depth)
    (hpos : 0 < toks.length) (hkey : key ∈ valueKeys)
    (hnone : jsonDelve (tokArray n toks trapStack) js trapStack.depth 0
      (guideOf [bytes "ipv4", key]) = .ok none) :
    ConfigFits js toks ∧ ¬ConfigLeads js toks := by
  have hkeys := networkKeys key hkey
  obtain ⟨-, hleads⟩ := guideReads_of_trap htokens hroom hdepth hkeys hnone
  have hmissing : ∀ v, ¬Leads js toks 0 [bytes "ipv4", key] v := by
    intro v hv
    cases (hleads v).mpr hv
  have hfits := guideFits_of_trap htokens hroom hdepth hpos hkeys hnone (by rintro _ ⟨⟩)
  refine ⟨fun key' _ => guideFits_of_missing hfits hmissing, fun hall => ?_⟩
  obtain ⟨v, hv⟩ := hall key hkey
  exact hmissing v hv

/-- On the tokens of a document no walk leaves them. -/
theorem configFits_lexical {d : Document} {n : Nat} {p : JsmnParser}
    (hlex : d.Lexical jsmnLexicon) (hparse : jsmnParse d.text n = .ok p) :
    ConfigFits d.text p.toks := by
  intro key hkey
  have htokens := (jsmnParse_tokens hparse).1
  have hroot := root_placed hlex hparse
  have hlen := length_le_guideOf [bytes "ipv4", key]
  refine (delveLoop_stays_iff htokens (Nat.le_refl _) (networkKeys key hkey) hlen
    hroot.index_lt).mp ⟨_, delveLoop_place htokens (Nat.le_refl _) (networkKeys key hkey) hlen hroot,
      fun v hv => ?_⟩
  obtain ⟨place, hplace, rfl⟩ := Option.map_eq_some_iff.mp hv
  exact (hroot.follow hplace).index_lt

section Tags

variable {α : Type} {value : Nat → Run α} {mem : TokMem} {b : Bytes} {depth : Nat}

/-- The walk to each value ends, and something can be made of what it finds. -/
def WalksEnd (value : Nat → Run α) (mem : TokMem) (b : Bytes) (depth : Nat) : Prop :=
  ∀ key ∈ valueKeys, ∃ found, jsonDelve mem b depth 0 (guideOf [bytes "ipv4", key]) = .ok found ∧
    ∀ tok ∈ found, ∃ s, value tok = .ok s

theorem networkTags_key {tag : Tag α} (htag : tag ∈ networkTags) :
    ∃ key ∈ valueKeys, tag.key = guideOf [bytes "ipv4", key] := by
  simp only [networkTags, List.mem_cons, List.not_mem_nil, or_false] at htag
  rcases htag with rfl | rfl | rfl | rfl | rfl
  · exact ⟨bytes "ip", by simp [valueKeys], rfl⟩
  · exact ⟨bytes "sn", by simp [valueKeys], rfl⟩
  · exact ⟨bytes "gw", by simp [valueKeys], rfl⟩
  · exact ⟨bytes "meth", by simp [valueKeys], rfl⟩
  · exact ⟨bytes "hn", by simp [valueKeys], rfl⟩

theorem networkTags_end {v : NetFields α} (h : WalksEnd value mem b depth) :
    ∃ r, tagLoop mem b depth value networkTags v = .ok r := by
  apply tagLoop_ends
  intro tag htag
  obtain ⟨key, hkey, hguide⟩ := networkTags_key htag
  rw [hguide]
  exact h key hkey

theorem networkTags_failed {v v' : NetFields α} {ret : Int} (hret : ret ≠ 0)
    (h : tagLoop mem b depth value networkTags v = .ok (ret, v')) :
    ∃ key ∈ valueKeys, jsonDelve mem b depth 0 (guideOf [bytes "ipv4", key]) = .ok none := by
  obtain ⟨tag, htag, hnone⟩ := tagLoop_failed hret h
  obtain ⟨key, hkey, hguide⟩ := networkTags_key htag
  exact ⟨key, hkey, hguide ▸ hnone⟩

/-- Where no walk leaves the tokens, all of them end. -/
theorem walksEnd_of_fits {toks : List JsmnTok} {n : Nat} {stack : Stack} (htokens : Tokens b toks)
    (hroom : toks.length ≤ n) (hdepth : toks.length ≤ stack.depth) (hpos : 0 < toks.length)
    (hfits : ConfigFits b toks) (hvalue : ∀ i t, toks[i]? = some t → ∃ s, value i = .ok s) :
    WalksEnd value (tokArray n toks stack) b stack.depth := by
  intro key hkey
  obtain ⟨found, hfound, -, hfilled⟩ :=
    jsonDelve_fits htokens hroom hdepth hpos (networkKeys key hkey) (hfits key hkey)
  refine ⟨found, hfound, fun tok htok => ?_⟩
  obtain ⟨t, ht, -⟩ := hfilled tok htok
  exact hvalue tok t ht

theorem parseNetworkFields_ends {value : TokMem → Nat → Run α} {stack : Stack} {v : NetFields α}
    (h : ∀ p, jsmnParse b configToks = .ok p → p.count ≠ 0 →
      WalksEnd (value (tokArray configToks p.toks stack)) (tokArray configToks p.toks stack) b
        stack.depth) :
    ∃ found, parseNetworkFields value stack b v = .ok found := by
  cases hparse : jsmnParse b configToks with
  | error e => exact ⟨(-1, v), by rw [parseNetworkFields, hparse]⟩
  | ok p =>
      by_cases hcount : p.count = 0
      · exact ⟨(-1, v), by simp only [parseNetworkFields, hparse, if_pos hcount]⟩
      rw [parseNetworkFields_tokens hparse hcount]
      exact networkTags_end (h p hparse hcount)

end Tags

end AtxSys
