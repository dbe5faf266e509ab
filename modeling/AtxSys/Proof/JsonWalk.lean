import AtxSys.Proof.Document

/-!
# Reading a document

A client of `json.h` goes through the tokens of a document call by call and loop by loop. What it
comes to and what it reads there is what the tree has at the same path.
-/

namespace AtxSys

open CText FlatForest JsonSyntax Slices

variable {js : Bytes} {toks : List JsmnTok} {depth : Nat}

/-! ### At a place -/

section Reading

variable {place : Place}

theorem readTok_at {i : Nat} {t : JsmnTok} {more : List JsmnTok} (h : At toks i (t :: more)) :
    readTok (filled toks) i = .ok t := by
  rw [readTok, filled, (at_cons_iff.mp h).1]

theorem jsonTokValue_holds (htokens : Tokens js toks) {i : Nat} {v : Value}
    (h : Holds js toks i v) : jsonTokValue js (filled toks) i = .ok v.content := by
  obtain ⟨t, ht, hholds⟩ := h
  have hread : readTok (filled toks) i = .ok t := by rw [readTok, filled, ht]
  rw [jsonTokValue, hread, run_bind_ok, readText_tok htokens (List.mem_of_getElem? ht)]
  cases v with
  | str | prim | arr | obj => exact congrArg Except.ok hholds.2

theorem readText_at {off n : Nat} {s : Bytes} (h : At js off s) (hs : s ≠ [])
    (hn : n ≤ s.length) : readText js off (off + n : Nat) = .ok (s.take n) := by
  have hle := h.length_le hs
  have hlen : ((off + n : Nat) - off : Int).toNat = n := by omega
  obtain ⟨rest, hrest⟩ := h
  have htake : (js.drop off).take n = s.take n := by
    rw [← hrest, List.take_append_of_le_length hn]
  rw [readText, if_pos ⟨by omega, by omega, by omega⟩, hlen]
  exact congrArg Except.ok htake

/-- Only a primitive is looked at, and of it the first byte. -/
theorem Placed.isNull (h : Placed js toks place) (hlex : place.value.Lexical json) :
    ∃ null, jsonTokIsNull js (filled toks) place.index = .ok null ∧
      (null = true ↔ place.value = .prim (bytes "null")) := by
  obtain ⟨index, off, value⟩ := place
  obtain ⟨htoks, htext⟩ := h
  cases value with
  | str | arr | obj =>
      refine ⟨false, ?_, by simp⟩
      rw [jsonTokIsNull, readTok_at htoks]
      rfl
  | prim text =>
      obtain ⟨⟨c, rest, htext', -⟩, -⟩ := json_within_jsmnLexicon.prim text hlex
      have hne : text ≠ [] := by simp [htext']
      have hread : readText js off (off + 1 : Nat) = .ok (text.take 1) :=
        readText_at htext hne (by simp [htext'])
      refine ⟨text.take 1 == bytes "n", ?_, ?_⟩
      · rw [jsonTokIsNull, readTok_at htoks, run_bind_ok, if_neg (by simp)]
        change (readText js off (off + 1 : Nat) >>= _) = _
        rw [hread]
        rfl
      · rw [beq_iff_eq, null_of_head hlex, Value.prim.injEq]

end Reading

/-! ### Steps -/

section Steps

variable {place place' : Place}

theorem jsonStep_place (htokens : Tokens js toks) (hdepth : toks.length ≤ depth)
    (h : Placed js toks place) (e : Step) :
    jsonStep (filled toks) js depth e place.index = .ok ((place.step e).map Place.index) := by
  cases e with
  | member key => exact jsonGetMember_place htokens hdepth key h
  | element i => exact jsonGetArr_place hdepth h i

theorem Placed.walk {path : List Step} (h : Placed js toks place)
    (hwalk : place.walk path = some place') : Placed js toks place' := by
  induction path generalizing place with
  | nil =>
      obtain rfl := Option.some.inj hwalk
      exact h
  | cons e path ih =>
      obtain ⟨next, hnext, hrest⟩ := Option.bind_eq_some_iff.mp hwalk
      exact ih (h.of_mem (Place.step_mem_places hnext)) hrest

theorem jsonWalk_place (htokens : Tokens js toks) (hdepth : toks.length ≤ depth)
    (path : List Step) (h : Placed js toks place) :
    jsonWalk (filled toks) js depth path place.index =
      .ok ((place.walk path).map Place.index) := by
  induction path generalizing place with
  | nil => rfl
  | cons e path ih =>
      rw [jsonWalk, jsonStep_place htokens hdepth h, run_bind_ok, Place.walk]
      cases hnext : place.step e with
      | none => rfl
      | some next => exact ih (h.of_mem (Place.step_mem_places hnext))

end Steps

/-! ### Loops -/

section Loops

variable {α : Type} {body : Nat → Run α}

theorem run_mapM_cons {α β : Type} (f : α → Run β) (a : α) (l : List α) :
    (a :: l).mapM f = f a >>= fun b => l.mapM f >>= fun bs => .ok (b :: bs) :=
  List.mapM_cons

/-- The loop runs its body at each element. -/
theorem forEachLoop_items (hdepth : toks.length ≤ depth) :
    ∀ (items : Items) {first : Bool} {index off : Nat},
      At toks index (itemsToks items first off) →
      forEachLoop (filled toks) depth 0 body items.length index = (items.slots index).mapM body
  | .nil, _, _, _, _ => rfl
  | .cons before value after rest, first, index, off, h => by
      obtain ⟨hvalue, hrest⟩ := at_append_iff.mp h
      rw [valueToks_length] at hrest
      rw [Items.length, forEachLoop, Items.slots, run_mapM_cons]
      apply congrArg (body index >>= ·)
      funext a
      rw [Nat.add_zero, jsonNext_value hvalue hdepth, run_bind_ok,
        forEachLoop_items hdepth rest hrest]

/-- The loop runs its body at each key. -/
theorem forEachLoop_members (hdepth : toks.length ≤ depth) :
    ∀ (members : Members) {first : Bool} {index off : Nat},
      MembersAt js toks members first index off →
      forEachLoop (filled toks) depth 1 body members.length index =
        (members.slots index).mapM body
  | .nil, _, _, _, _ => rfl
  | .cons before key beforeColon afterColon value after rest, first, index, off, h => by
      obtain ⟨-, ⟨hvalue, -⟩, hrest⟩ := h.cons
      rw [Members.length, forEachLoop, Members.slots, run_mapM_cons]
      apply congrArg (body index >>= ·)
      funext a
      rw [jsonNext_value hvalue hdepth, run_bind_ok, forEachLoop_members hdepth rest hrest]

theorem mapM_items (htokens : Tokens js toks) :
    ∀ (items : Items) {first : Bool} {index off : Nat},
      At toks index (itemsToks items first off) → At js off (items.text first) →
      (items.slots index).mapM (jsonTokValue js (filled toks)) =
        .ok (items.values.map Value.content)
  | .nil, _, _, _, _, _ => rfl
  | .cons before value after rest, first, index, off, htoks, htext => by
      obtain ⟨hvalue, hrest⟩ := at_append_iff.mp htoks
      rw [valueToks_length] at hrest
      rw [Items.text, at_append_iff] at htext
      have hplaced : Placed js toks ⟨index, _, value⟩ :=
        ⟨hvalue, (at_append_iff.mp (at_append_iff.mp htext.1).1).2⟩
      rw [Items.slots, run_mapM_cons, jsonTokValue_holds htokens hplaced.holds, run_bind_ok,
        mapM_items htokens rest hrest htext.2]
      rfl

theorem mapM_members (htokens : Tokens js toks) :
    ∀ (members : Members) {first : Bool} {index off : Nat},
      MembersAt js toks members first index off →
      (members.slots index).mapM (readMember js (filled toks)) =
        .ok (members.pairs.map fun m => (m.1, m.2.content))
  | .nil, _, _, _, _ => rfl
  | .cons before key beforeColon afterColon value after rest, first, index, off, h => by
      obtain ⟨⟨hkey, hkeyText⟩, ⟨hvalue, hvalueText⟩, hrest⟩ := h.cons
      have hkeyHolds : Holds js toks index (.str key) :=
        ⟨_, hkey, rfl, tokText_at (at_of_quoted hkeyText) rfl⟩
      have hplaced : Placed js toks ⟨index + 1, _, value⟩ := ⟨hvalue, hvalueText⟩
      rw [Members.slots, run_mapM_cons, readMember, jsonTokValue_holds htokens hkeyHolds,
        run_bind_ok, jsonTokValue_holds htokens hplaced.holds, run_bind_ok, run_bind_ok,
        mapM_members htokens rest hrest]
      rfl

theorem Placed.elements {pad : Bytes} {items : Items} {index off : Nat} (htokens : Tokens js toks)
    (hdepth : toks.length ≤ depth) (h : Placed js toks ⟨index, off, .arr pad items⟩) :
    (∀ (α : Type) (body : Nat → Run α),
      jsonForEachArr (filled toks) depth body index = (items.slots (index + 1)).mapM body) ∧
    (∀ k, jsonGetArr (filled toks) depth index k = .ok (items.slots (index + 1))[k]?) ∧
    (items.slots (index + 1)).mapM (jsonTokValue js (filled toks)) =
      .ok (items.values.map Value.content) := by
  obtain ⟨-, htoks⟩ := at_cons_iff.mp h.toks
  have htext := h.text
  rw [Value.text, at_cons_iff, at_append_iff, at_append_iff] at htext
  refine ⟨fun α body => ?_, fun k => ?_, mapM_items htokens items htoks htext.2.1.2⟩
  · rw [jsonForEachArr, forEach, readTok_at h.toks, run_bind_ok]
    exact forEachLoop_items hdepth items htoks
  · rw [jsonGetArr_place hdepth h k,
      items.slots_getElem? true (index + 1) (off + 1 + pad.length) k]
    rfl

theorem Placed.members {pad : Bytes} {members : Members} {index off : Nat}
    (htokens : Tokens js toks) (hdepth : toks.length ≤ depth)
    (h : Placed js toks ⟨index, off, .obj pad members⟩) :
    (∀ (α : Type) (body : Nat → Run α),
      jsonForEachObj (filled toks) depth body index = (members.slots (index + 1)).mapM body) ∧
    (∀ label, jsonGetMember (filled toks) js label depth index =
      .ok ((((members.pairs.map Prod.fst).zip (members.slots (index + 1))).lookup label).map
        (· + 1))) ∧
    (members.slots (index + 1)).mapM (readMember js (filled toks)) =
      .ok (members.pairs.map fun m => (m.1, m.2.content)) := by
  obtain ⟨-, htoks⟩ := at_cons_iff.mp h.toks
  have htext := h.text
  rw [Value.text, at_cons_iff, at_append_iff, at_append_iff] at htext
  have hat : MembersAt js toks members true (index + 1) (off + 1 + pad.length) :=
    ⟨htoks, htext.2.1.2⟩
  refine ⟨fun α body => ?_, fun label => ?_, mapM_members htokens members hat⟩
  · rw [jsonForEachObj, forEach, readTok_at h.toks, run_bind_ok]
    exact forEachLoop_members hdepth members hat
  · rw [jsonGetMember_place htokens hdepth label h,
      members.slots_lookup label true (index + 1) (off + 1 + pad.length)]
    rfl

end Loops

/-! ### Documents -/

section Documents

variable {d : Document} {numTokens : Nat} {p : JsmnParser}

/-- Calls come to the place that the path leads to. -/
theorem walk_document (hd : d.WellFormed) (hparse : jsmnParse d.text numTokens = .ok p)
    (hdepth : p.count ≤ depth) (path : List Step) (v : Value) (hv : d.value.walk path = some v) :
    ∃ place : Place, Placed d.text p.toks place ∧ place.value = v ∧
      jsonWalk (filled p.toks) d.text depth path 0 = .ok (some place.index) := by
  obtain ⟨htokens, hlen, -⟩ := jsmnParse_tokens hparse
  have hroot := root_placed (hd.mono json_within_jsmnLexicon) hparse
  have hwalk : jsonWalk (filled p.toks) d.text depth path 0 =
      .ok ((d.root.walk path).map Place.index) :=
    jsonWalk_place htokens (by omega) path hroot
  have hvalue : (d.root.walk path).map Place.value = d.value.walk path := d.root.walk_value path
  rw [← hvalue] at hv
  obtain ⟨place, hplace, rfl⟩ := Option.map_eq_some_iff.mp hv
  exact ⟨place, hroot.walk hplace, rfl, by rw [hwalk, hplace]; rfl⟩

theorem walk_document_null (hd : d.WellFormed) (hparse : jsmnParse d.text numTokens = .ok p)
    (hdepth : p.count ≤ depth) (path : List Step) (hnone : d.value.walk path = none) :
    jsonWalk (filled p.toks) d.text depth path 0 = .ok none := by
  obtain ⟨htokens, hlen, -⟩ := jsmnParse_tokens hparse
  have hroot := root_placed (hd.mono json_within_jsmnLexicon) hparse
  have hwalk : jsonWalk (filled p.toks) d.text depth path 0 =
      .ok ((d.root.walk path).map Place.index) :=
    jsonWalk_place htokens (by omega) path hroot
  rw [← show (d.root.walk path).map Place.value = d.value.walk path from d.root.walk_value path,
    Option.map_eq_none_iff] at hnone
  rw [hwalk, hnone]
  rfl

/-- A guide of keys comes to the value at once. -/
theorem jsonDelveValue_document (hd : d.WellFormed) (hparse : jsmnParse d.text numTokens = .ok p)
    (hdepth : p.count ≤ depth) {keys : List Bytes} (hkeys : ∀ key ∈ keys, IsGuideKey key) :
    jsonDelveValue (filled p.toks) d.text depth 0 (guideOf keys) =
      .ok ((d.value.walk (keys.map Step.member)).map Value.content) := by
  obtain ⟨htokens, hlen, -⟩ := jsmnParse_tokens hparse
  have hroot := root_placed (hd.mono json_within_jsmnLexicon) hparse
  have hdelve : jsonDelve (filled p.toks) d.text depth 0 (guideOf keys) =
      .ok ((d.root.follow keys).map Place.index) :=
    delveLoop_place htokens (by omega) hkeys (length_le_guideOf keys) hroot
  have hvalue : (d.root.follow keys).map Place.value = d.value.follow keys :=
    d.root.follow_value keys
  rw [Value.walk_member, ← hvalue, jsonDelveValue, hdelve, run_bind_ok]
  cases hplace : d.root.follow keys with
  | none => rfl
  | some place =>
      change (jsonTokValue d.text (filled p.toks) place.index >>= _) = _
      rw [jsonTokValue_holds htokens (hroot.follow hplace).holds]
      rfl

/-- **Calls on a document.** Calls of `json_get_member` and `json_get_arr`, each on what the one
before returned, come to the value that the tree has at their path, and to `NULL` exactly where it
has none. There `json_tok_value` gives the text of the value and `json_tok_is_null` tells whether it
is `null`. A guide of keys gives the same value at once. -/
theorem jsonWalk_document (hd : d.WellFormed) (hparse : jsmnParse d.text numTokens = .ok p)
    (hdepth : p.count ≤ depth) :
    (∀ path : List Step,
      (d.value.walk path = none →
        jsonWalk (filled p.toks) d.text depth path 0 = .ok none) ∧
      ∀ v, d.value.walk path = some v → ∃ i null,
        jsonWalk (filled p.toks) d.text depth path 0 = .ok (some i) ∧
        jsonTokValue d.text (filled p.toks) i = .ok v.content ∧
        jsonTokIsNull d.text (filled p.toks) i = .ok null ∧
        (null = true ↔ v = .prim (bytes "null"))) ∧
    ∀ keys : List Bytes, (∀ key ∈ keys, IsGuideKey key) →
      jsonDelveValue (filled p.toks) d.text depth 0 (guideOf keys) =
        .ok ((d.value.walk (keys.map Step.member)).map Value.content) := by
  obtain ⟨htokens, -⟩ := jsmnParse_tokens hparse
  refine ⟨fun path => ⟨walk_document_null hd hparse hdepth path, fun v hv => ?_⟩,
    fun keys hkeys => jsonDelveValue_document hd hparse hdepth hkeys⟩
  have hlexical : v.Lexical json := hd.2.1.walk hv
  obtain ⟨place, hplaced, rfl, hwalk⟩ := walk_document hd hparse hdepth path v hv
  obtain ⟨null, hnull, hiff⟩ := hplaced.isNull hlexical
  exact ⟨place.index, null, hwalk, jsonTokValue_holds htokens hplaced.holds, hnull, hiff⟩

def nestedTokens : List JsmnTok :=
  [⟨.object, 0, 9, 1⟩, ⟨.string, 2, 3, 1⟩, ⟨.array, 5, 8, 1⟩, ⟨.primitive, 6, 7, 0⟩]

theorem nestedDocument_parse : jsmnParse nestedDocument.text 4 =
    .ok { pos := 9, toksuper := none, count := 4, toks := nestedTokens } := by
  rfl

theorem jsonWalk_document_nested :
    ∃ i, jsonTokValue nestedDocument.text (filled nestedTokens) i = .ok (bytes "1") := by
  obtain ⟨hwalk, -⟩ := jsonWalk_document nestedDocument_wellFormed nestedDocument_parse
    (Nat.le_refl 4)
  obtain ⟨i, null, -, hvalue, -⟩ := (hwalk [.member (bytes "a"), .element 0]).2 _ rfl
  exact ⟨i, hvalue⟩

/-- **Loops over a document.** At every array that calls come to, `json_for_each_arr` runs its body,
whatever it is, at the tokens that `json_get_arr` returns for 0, 1 and so on, and these are the
elements in order. At every object `json_for_each_obj` runs it at the keys in order, and
`json_get_member` returns what is behind the first key with the label. -/
theorem jsonForEach_document (hd : d.WellFormed) (hparse : jsmnParse d.text numTokens = .ok p)
    (hdepth : p.count ≤ depth) (path : List Step) :
    (∀ pad items, d.value.walk path = some (.arr pad items) → ∃ (i : Nat) (slots : List Nat),
      jsonWalk (filled p.toks) d.text depth path 0 = .ok (some i) ∧
      (∀ (α : Type) (body : Nat → Run α),
        jsonForEachArr (filled p.toks) depth body i = slots.mapM body) ∧
      (∀ k, jsonGetArr (filled p.toks) depth i k = .ok slots[k]?) ∧
      slots.mapM (jsonTokValue d.text (filled p.toks)) = .ok (items.values.map Value.content)) ∧
    ∀ pad members, d.value.walk path = some (.obj pad members) → ∃ (i : Nat) (slots : List Nat),
      jsonWalk (filled p.toks) d.text depth path 0 = .ok (some i) ∧
      (∀ (α : Type) (body : Nat → Run α),
        jsonForEachObj (filled p.toks) depth body i = slots.mapM body) ∧
      (∀ label, jsonGetMember (filled p.toks) d.text label depth i =
        .ok ((((members.pairs.map Prod.fst).zip slots).lookup label).map (· + 1))) ∧
      slots.mapM (readMember d.text (filled p.toks)) =
        .ok (members.pairs.map fun m => (m.1, m.2.content)) := by
  obtain ⟨htokens, hlen, -⟩ := jsmnParse_tokens hparse
  have hdepth' : p.toks.length ≤ depth := by omega
  have hwalks := walk_document hd hparse hdepth path
  constructor
  · intro pad items hitems
    obtain ⟨⟨index, off, value⟩, hplaced, rfl, hwalk⟩ := hwalks _ hitems
    exact ⟨index, _, hwalk, hplaced.elements htokens hdepth'⟩
  · intro pad members hmembers
    obtain ⟨⟨index, off, value⟩, hplaced, rfl, hwalk⟩ := hwalks _ hmembers
    exact ⟨index, _, hwalk, hplaced.members htokens hdepth'⟩

/-- `{"a":[1]}` -/
theorem jsonForEach_document_nested :
    ∃ i, jsonForEachArr (filled nestedTokens) 4 (jsonTokValue nestedDocument.text
      (filled nestedTokens)) i = .ok [bytes "1"] := by
  obtain ⟨harr, -⟩ := jsonForEach_document nestedDocument_wellFormed nestedDocument_parse
    (Nat.le_refl 4) [.member (bytes "a")]
  obtain ⟨i, slots, -, hloop, -, hvalues⟩ := harr [] _ rfl
  exact ⟨i, (hloop _ _).trans hvalues⟩

end Documents

end AtxSys
