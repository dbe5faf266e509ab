import AtxSys.Proof.TreeTokens
import AtxSys.Proof.Walk

/-!
# Walking a document

On the tokens of a document tree the walks of `json.c` find the places of the tree: `json_delve`
the one that the keys of its guide lead to, and `json_get_arr` the elements of an array.
-/

namespace AtxSys

open CText FlatForest JsonSyntax Slices

theorem sizeAt_of_getElem? {toks : List JsmnTok} {i : Nat} {t : JsmnTok} (h : toks[i]? = some t) :
    sizeAt toks i = t.size := by
  rw [sizeAt, h]

/-! ### The trees among the tokens -/

section Forest

variable {toks : List JsmnTok}

mutual

theorem value_subtree : ∀ (v : Value) {off i : Nat}, At toks i (valueToks v off) →
    Subtree (sizeAt toks) i (i + v.count)
  | .str _, off, i, h | .prim _, off, i, h => by
      rw [Subtree, sizeAt_of_getElem? (at_cons_iff.mp h).1]
      exact .nil _
  | .arr pad items, off, i, h => by
      obtain ⟨htok, hitems⟩ := at_cons_iff.mp h
      have htrees := items_trees items hitems
      rwa [Subtree, sizeAt_of_getElem? htok, Value.count, Nat.add_comm items.count, ← Nat.add_assoc]
  | .obj pad members, off, i, h => by
      obtain ⟨htok, hmembers⟩ := at_cons_iff.mp h
      have htrees := members_trees members hmembers
      rwa [Subtree, sizeAt_of_getElem? htok, Value.count, Nat.add_comm members.count,
        ← Nat.add_assoc]

theorem items_trees : ∀ (items : Items) {first : Bool} {off i : Nat},
    At toks i (itemsToks items first off) → Trees (sizeAt toks) items.length i (i + items.count)
  | .nil, _, _, i, _ => .nil i
  | .cons before value after rest, first, off, i, h => by
      obtain ⟨hvalue, hrest⟩ := at_append_iff.mp h
      rw [valueToks_length] at hrest
      rw [Items.length, Items.count, ← Nat.add_assoc]
      exact .cons (value_subtree value hvalue) (items_trees rest hrest)

theorem members_trees : ∀ (members : Members) {first : Bool} {off i : Nat},
    At toks i (membersToks members first off) →
    Trees (sizeAt toks) members.length i (i + members.count)
  | .nil, _, _, i, _ => .nil i
  | .cons before key beforeColon afterColon value after rest, first, off, i, h => by
      obtain ⟨hmember, hrest⟩ := at_append_iff.mp h
      obtain ⟨hkey, hvalue⟩ := at_cons_iff.mp hmember
      rw [List.length_cons, valueToks_length] at hrest
      have hsub : Subtree (sizeAt toks) i (i + (value.count + 1)) := by
        rw [Subtree, sizeAt_of_getElem? hkey, Nat.add_comm value.count, ← Nat.add_assoc]
        exact .cons (value_subtree value hvalue) (.nil _)
      rw [Members.length, Members.count, ← Nat.add_assoc]
      exact .cons hsub (members_trees rest hrest)

end

theorem valueToks_ne_nil (v : Value) (off : Nat) : valueToks v off ≠ [] := by
  cases v <;> simp [valueToks]

theorem jsonNext_value {v : Value} {off i depth : Nat} (h : At toks i (valueToks v off))
    (hdepth : toks.length ≤ depth) : jsonNext (filled toks) depth i = .ok (i + v.count) := by
  have hle := h.length_le (valueToks_ne_nil v off)
  rw [valueToks_length] at hle
  exact jsonNext_subtree (value_subtree v h) hle hdepth

end Forest

/-! ### Places -/

/-- A place of the tree with its tokens and its text where it says they are. -/
structure Placed (js : Bytes) (toks : List JsmnTok) (place : Place) : Prop where
  toks : At toks place.index (valueToks place.value place.off)
  text : At js place.off place.value.text

section Places

variable {js : Bytes} {toks : List JsmnTok}

/-- The members of an object with their tokens and their text where they should be. -/
structure MembersAt (js : Bytes) (toks : List JsmnTok) (members : Members) (first : Bool)
    (index off : Nat) : Prop where
  toks : At toks index (membersToks members first off)
  text : At js off (members.text first)

theorem MembersAt.cons {before key beforeColon afterColon after : Bytes} {value : Value}
    {rest : Members} {first : Bool} {index off : Nat}
    (h : MembersAt js toks (.cons before key beforeColon afterColon value after rest) first
      index off) :
    let keyOff := off + (separator first ++ before).length
    let valueOff := off + valueOff first before key beforeColon afterColon
    (toks[index]? = some ⟨.string, (keyOff + 1 : Nat), (keyOff + 1 + key.length : Nat), 1⟩ ∧
        At js keyOff (quoted key)) ∧
      (At toks (index + 1) (valueToks value valueOff) ∧ At js valueOff value.text) ∧
      MembersAt js toks rest false (index + 1 + value.count)
        (valueOff + (value.text ++ after).length) := by
  intro keyOff valueOff
  obtain ⟨hmember, hrest⟩ := at_append_iff.mp h.toks
  obtain ⟨hkey, hvalue⟩ := at_cons_iff.mp hmember
  rw [List.length_cons, valueToks_length] at hrest
  have hindex : index + 1 + value.count = index + (value.count + 1) := by omega
  have hsplit : Members.text first (.cons before key beforeColon afterColon value after rest) =
      (separator first ++ before ++ quoted key ++ beforeColon ++ colon :: afterColon) ++
        ((value.text ++ after) ++ rest.text false) := by
    simp [Members.text]
  have htext := h.text
  rw [hsplit] at htext
  obtain ⟨hfront, hback⟩ := at_append_iff.mp htext
  obtain ⟨hvalueText, hrestText⟩ := at_append_iff.mp hback
  have hkeyText := (at_append_iff.mp (at_append_iff.mp (at_append_iff.mp hfront).1).1).2
  exact ⟨⟨hkey, hkeyText⟩, ⟨hvalue, (at_append_iff.mp hvalueText).1⟩,
    ⟨hindex ▸ hrest, hrestText⟩⟩

mutual

theorem value_placed : ∀ (v : Value) {index off : Nat}, At toks index (valueToks v off) →
    At js off v.text → ∀ place ∈ v.places index off, Placed js toks place
  | .str body, index, off, htoks, htext, place, hmem
  | .prim text, index, off, htoks, htext, place, hmem => by
      obtain rfl := List.mem_singleton.mp hmem
      exact ⟨htoks, htext⟩
  | .arr pad items, index, off, htoks, htext, place, hmem => by
      rcases List.mem_cons.mp hmem with rfl | hmem
      · exact ⟨htoks, htext⟩
      · rw [Value.text, at_cons_iff, at_append_iff, at_append_iff] at htext
        exact items_placed items (at_cons_iff.mp htoks).2 htext.2.1.2 place hmem
  | .obj pad members, index, off, htoks, htext, place, hmem => by
      rcases List.mem_cons.mp hmem with rfl | hmem
      · exact ⟨htoks, htext⟩
      · rw [Value.text, at_cons_iff, at_append_iff, at_append_iff] at htext
        exact members_placed members ⟨(at_cons_iff.mp htoks).2, htext.2.1.2⟩ place hmem

theorem items_placed : ∀ (items : Items) {first : Bool} {index off : Nat},
    At toks index (itemsToks items first off) → At js off (items.text first) →
    ∀ place ∈ items.places first index off, Placed js toks place
  | .nil, _, _, _, _, _, _, hmem => by cases hmem
  | .cons before value after rest, first, index, off, htoks, htext, place, hmem => by
      obtain ⟨hvalue, hrest⟩ := at_append_iff.mp htoks
      rw [valueToks_length] at hrest
      rw [Items.text, at_append_iff] at htext
      rcases List.mem_append.mp hmem with hmem | hmem
      · have hvalueText := (at_append_iff.mp (at_append_iff.mp htext.1).1).2
        exact value_placed value hvalue hvalueText place hmem
      · exact items_placed rest hrest htext.2 place hmem

theorem members_placed : ∀ (members : Members) {first : Bool} {index off : Nat},
    MembersAt js toks members first index off →
    ∀ place ∈ members.places first index off, Placed js toks place
  | .nil, _, _, _, _, _, hmem => by cases hmem
  | .cons before key beforeColon afterColon value after rest, first, index, off, h, place,
      hmem => by
      obtain ⟨-, ⟨hvalue, hvalueText⟩, hrest⟩ := h.cons
      rcases List.mem_append.mp hmem with hmem | hmem
      · exact value_placed value hvalue hvalueText place hmem
      · exact members_placed rest hrest place hmem

end

theorem Placed.of_mem {place place' : Place} (h : Placed js toks place)
    (hmem : place' ∈ place.places) : Placed js toks place' :=
  value_placed place.value h.toks h.text place' hmem

theorem Placed.follow {keys : List Bytes} {place place' : Place} (h : Placed js toks place)
    (hfollow : place.follow keys = some place') : Placed js toks place' := by
  induction keys generalizing place with
  | nil =>
      obtain rfl := Option.some.inj hfollow
      exact h
  | cons key keys ih =>
      obtain ⟨next, hnext, hrest⟩ := Option.bind_eq_some_iff.mp hfollow
      exact ih (h.of_mem (Place.member_mem_places hnext)) hrest

/-- The token in the slot `i` is that of the value `v`: it has its type and delimits its text, that
of a string without the quotes. -/
def Holds (js : Bytes) (toks : List JsmnTok) (i : Nat) (v : Value) : Prop :=
  ∃ t, toks[i]? = some t ∧
    match v with
    | .str body => t.type = .string ∧ tokText js t = body
    | .prim text => t.type = .primitive ∧ tokText js t = text
    | .arr pad items => t.type = .array ∧ tokText js t = (Value.arr pad items).text
    | .obj pad members => t.type = .object ∧ tokText js t = (Value.obj pad members).text

theorem tokText_at {type : JsmnType} {off stop size : Nat} {s : Bytes} (h : At js off s)
    (hstop : stop = off + s.length) : tokText js ⟨type, off, stop, size⟩ = s := by
  subst hstop
  have hlen : ((off + s.length : Nat) - off : Int).toNat = s.length := by omega
  rw [tokText, hlen]
  exact h.take

theorem at_of_quoted {off : Nat} {s : Bytes} (h : At js off (quoted s)) : At js (off + 1) s :=
  (at_append_iff.mp (at_cons_iff.mp h).2).1

theorem Placed.holds {place : Place} (h : Placed js toks place) :
    Holds js toks place.index place.value := by
  obtain ⟨index, off, value⟩ := place
  obtain ⟨htoks, htext⟩ := h
  cases value with
  | str body =>
      exact ⟨_, (at_cons_iff.mp htoks).1, rfl, tokText_at (at_of_quoted htext) rfl⟩
  | prim | arr | obj => exact ⟨_, (at_cons_iff.mp htoks).1, rfl, tokText_at htext rfl⟩

end Places

/-! ### The walks -/

section Walks

variable {js : Bytes} {toks : List JsmnTok} {depth : Nat}

theorem names_key {index off size : Nat} {k key : Bytes}
    (htok : toks[index]? = some ⟨.string, (off + 1 : Nat), (off + 1 + k.length : Nat), size⟩)
    (htext : At js off (quoted k)) : Names js toks key index ↔ k = key := by
  have hk : tokText js ⟨.string, (off + 1 : Nat), (off + 1 + k.length : Nat), size⟩ = k :=
    tokText_at (at_of_quoted htext) rfl
  constructor
  · rintro ⟨tok, hget, -, htokText⟩
    obtain rfl := Option.some.inj (htok.symm.trans hget)
    exact hk.symm.trans htokText
  · rintro rfl
    exact ⟨_, htok, rfl, hk⟩

theorem memberLoop_members (htokens : Tokens js toks) (hdepth : toks.length ≤ depth) (key : Bytes)
    {members : Members} {first : Bool} {index off : Nat}
    (h : MembersAt js toks members first index off) :
    memberLoop (filled toks) js key depth members.length index =
      .ok ((members.member key first index off).map Place.index) := by
  induction members using Members.find.induct key generalizing first index off with
  | case1 => rfl
  | case2 before beforeColon afterColon value after rest =>
      obtain ⟨⟨hkey, hkeyText⟩, -⟩ := h.cons
      have hlt := (List.getElem?_eq_some_iff.mp hkey).1
      have hnames := (names_key hkey hkeyText).mpr rfl
      rw [Members.length, (memberLoop_filled htokens hlt key).1 hnames, Members.member, if_pos rfl]
      rfl
  | case3 before k beforeColon afterColon value after rest hne ih =>
      obtain ⟨⟨hkey, hkeyText⟩, ⟨hvalue, -⟩, hrest⟩ := h.cons
      have hlt := (List.getElem?_eq_some_iff.mp hkey).1
      have hnames : ¬ Names js toks key index := fun hnames =>
        hne ((names_key hkey hkeyText).mp hnames)
      rw [Members.length, (memberLoop_filled htokens hlt key).2 hnames, Members.member, if_neg hne,
        jsonNext_value hvalue hdepth, run_bind_ok]
      exact ih hrest

theorem Placed.index_lt {place : Place} (h : Placed js toks place) :
    place.index < toks.length := by
  have hle := h.toks.length_le (valueToks_ne_nil _ _)
  have hpos := List.length_pos_iff.mpr (valueToks_ne_nil place.value place.off)
  omega

theorem jsonGetMember_place (htokens : Tokens js toks) (hdepth : toks.length ≤ depth)
    (key : Bytes) {place : Place} (h : Placed js toks place) :
    jsonGetMember (filled toks) js key depth place.index =
      .ok ((place.member key).map Place.index) := by
  rw [jsonGetMember, readTok_filled h.index_lt, run_bind_ok]
  obtain ⟨index, off, value⟩ := place
  have hget := (List.getElem?_eq_getElem h.index_lt).symm
  obtain ⟨htoks, htext⟩ := h
  cases value with
  | str | prim | arr =>
      obtain ⟨htok, -⟩ := at_cons_iff.mp htoks
      rw [Option.some.inj (hget.trans htok)]
      rfl
  | obj pad members =>
      obtain ⟨htok, hmembers⟩ := at_cons_iff.mp htoks
      rw [Value.text, at_cons_iff, at_append_iff, at_append_iff] at htext
      rw [Option.some.inj (hget.trans htok), if_neg (by simp)]
      exact memberLoop_members htokens hdepth key ⟨hmembers, htext.2.1.2⟩

theorem delveLoop_place (htokens : Tokens js toks) (hdepth : toks.length ≤ depth)
    {keys : List Bytes} (hkeys : ∀ key ∈ keys, IsGuideKey key) {fuel : Nat}
    (hfuel : keys.length ≤ fuel) {place : Place} (h : Placed js toks place) :
    delveLoop (filled toks) js depth fuel place.index (guideOf keys) =
      .ok ((place.follow keys).map Place.index) := by
  induction keys generalizing fuel place with
  | nil => cases fuel <;> rfl
  | cons key keys ih =>
      obtain ⟨fuel, rfl⟩ : ∃ f, fuel = f + 1 := ⟨fuel - 1, by simp at hfuel; omega⟩
      have hrest : ∀ key ∈ keys, IsGuideKey key := fun k hk => hkeys k (by simp [hk])
      have hlt := h.index_lt
      have hmember := jsonGetMember_place htokens hdepth key h
      rw [delveLoop_cons _ _ _ _ _ (hkeys key (by simp)), Place.follow]
      by_cases htype : toks[place.index].type = .object
      · rw [readTok_filled hlt, run_bind_ok, if_neg (by simp [htype]), hmember, run_bind_ok]
        cases hnext : place.member key with
        | none => rfl
        | some next =>
            exact ih hrest (by simpa using hfuel) (h.of_mem (Place.member_mem_places hnext))
      · have hnone : place.member key = none := by
          rw [jsonGetMember, readTok_filled hlt, run_bind_ok, if_pos htype] at hmember
          exact Option.map_eq_none_iff.mp (Except.ok.inj hmember).symm
        rw [readTok_filled hlt, run_bind_ok, if_pos htype, hnone]
        rfl

theorem elementLoop_items (hdepth : toks.length ≤ depth) {items : Items} {first : Bool}
    {index off : Nat} (h : At toks index (itemsToks items first off)) (i : Nat) :
    elementLoop (filled toks) depth items.length i index =
      .ok ((items.element first index off i).map Place.index) := by
  induction items, i using Items.get.induct generalizing first index off with
  | case1 => rfl
  | case2 before value after rest => rfl
  | case3 before value after rest i ih =>
      obtain ⟨hvalue, hrest⟩ := at_append_iff.mp h
      rw [valueToks_length] at hrest
      rw [Items.length, elementLoop, if_neg (Nat.succ_ne_zero i), jsonNext_value hvalue hdepth,
        run_bind_ok]
      exact ih hrest

theorem jsonGetArr_place (hdepth : toks.length ≤ depth) {place : Place}
    (h : Placed js toks place) (i : Nat) :
    jsonGetArr (filled toks) depth place.index i =
      .ok ((place.element i).map Place.index) := by
  rw [jsonGetArr, readTok_filled h.index_lt, run_bind_ok]
  obtain ⟨index, off, value⟩ := place
  have hget := (List.getElem?_eq_getElem h.index_lt).symm
  obtain ⟨htoks, _⟩ := h
  cases value with
  | str | prim | obj =>
      obtain ⟨htok, -⟩ := at_cons_iff.mp htoks
      rw [Option.some.inj (hget.trans htok)]
      rfl
  | arr pad items =>
      obtain ⟨htok, hitems⟩ := at_cons_iff.mp htoks
      rw [Option.some.inj (hget.trans htok), if_neg (by simp)]
      exact elementLoop_items hdepth hitems i

/-! Every array token is that of a place. -/

mutual

theorem value_arrays : ∀ (v : Value) (index : Nat) {off j : Nat} {t : JsmnTok},
    (valueToks v off)[j]? = some t → t.type = .array →
    ∃ place ∈ v.places index off, place.index = index + j ∧
      ∃ pad items, place.value = .arr pad items
  | .str _, index, off, j, t, hget, htype | .prim _, index, off, j, t, hget, htype => by
      obtain rfl := List.mem_singleton.mp (List.mem_of_getElem? hget)
      cases htype
  | .arr pad items, index, off, 0, t, _, _ =>
      ⟨_, Value.self_mem_places _ index off, rfl, pad, items, rfl⟩
  | .arr pad items, index, off, j + 1, t, hget, htype => by
      obtain ⟨place, hmem, hindex, harr⟩ := items_arrays items (index + 1) hget htype
      exact ⟨place, List.mem_cons_of_mem _ hmem, by omega, harr⟩
  | .obj pad members, index, off, 0, t, hget, htype => by
      obtain rfl := Option.some.inj hget
      cases htype
  | .obj pad members, index, off, j + 1, t, hget, htype => by
      obtain ⟨place, hmem, hindex, harr⟩ := members_arrays members (index + 1) hget htype
      exact ⟨place, List.mem_cons_of_mem _ hmem, by omega, harr⟩

theorem items_arrays : ∀ (items : Items) (index : Nat) {first : Bool} {off j : Nat} {t : JsmnTok},
    (itemsToks items first off)[j]? = some t → t.type = .array →
    ∃ place ∈ items.places first index off,
      place.index = index + j ∧ ∃ pad items, place.value = .arr pad items
  | .nil, _, _, _, _, _, hget, _ => by simp [itemsToks] at hget
  | .cons before value after rest, index, first, off, j, t, hget, htype => by
      rw [itemsToks, List.getElem?_append, valueToks_length] at hget
      split at hget
      · obtain ⟨place, hmem, hplace⟩ := value_arrays value index hget htype
        exact ⟨place, List.mem_append_left _ hmem, hplace⟩
      · obtain ⟨place, hmem, hindex, harr⟩ :=
          items_arrays rest (index + value.count) hget htype
        exact ⟨place, List.mem_append_right _ hmem, by omega, harr⟩

theorem members_arrays : ∀ (members : Members) (index : Nat) {first : Bool} {off j : Nat}
    {t : JsmnTok},
    (membersToks members first off)[j]? = some t → t.type = .array →
    ∃ place ∈ members.places first index off,
      place.index = index + j ∧ ∃ pad items, place.value = .arr pad items
  | .nil, _, _, _, _, _, hget, _ => by simp [membersToks] at hget
  | .cons before key beforeColon afterColon value after rest, index, first, off, 0, t, hget,
      htype => by
      obtain rfl := Option.some.inj hget
      cases htype
  | .cons before key beforeColon afterColon value after rest, index, first, off, j + 1, t, hget,
      htype => by
      rw [membersToks, List.cons_append, List.getElem?_cons_succ, List.getElem?_append,
        valueToks_length] at hget
      split at hget
      · obtain ⟨place, hmem, hindex, harr⟩ := value_arrays value (index + 1) hget htype
        exact ⟨place, List.mem_append_left _ hmem, by omega, harr⟩
      · obtain ⟨place, hmem, hindex, harr⟩ :=
          members_arrays rest (index + 1 + value.count) hget htype
        exact ⟨place, List.mem_append_right _ hmem, by omega, harr⟩

end

end Walks

/-! ### Documents -/

theorem root_placed {d : Document} (hlex : d.Lexical jsmnLexicon) {numTokens : Nat}
    {p : JsmnParser} (hparse : jsmnParse d.text numTokens = .ok p) :
    Placed d.text p.toks d.root where
  toks := by
    rw [(jsmnParse_document hlex hparse).1]
    exact List.prefix_refl _
  text := ⟨d.trail, by simp [Document.root, Document.text]⟩

/-- **Walks on a document.** On a well-formed document that fits the token array, `json_delve` with
the guide `.k1...km` returns the token of the value that the keys lead to, and `NULL` exactly when
they lead nowhere; `json_get_arr` on an array token returns the token of the element, and `NULL`
exactly past the last one. -/
theorem jsonDelve_document {d : Document} (hd : d.WellFormed) {numTokens depth : Nat}
    {p : JsmnParser} (hparse : jsmnParse d.text numTokens = .ok p) (hdepth : p.count ≤ depth) :
    (∀ keys : List Bytes, (∀ key ∈ keys, IsGuideKey key) →
      (jsonDelve (filled p.toks) d.text depth 0 (guideOf keys) = .ok none ↔
        d.value.follow keys = none) ∧
      ∀ v, d.value.follow keys = some v → ∃ place, d.root.follow keys = some place ∧
        place.value = v ∧ Holds d.text p.toks place.index v ∧
        jsonDelve (filled p.toks) d.text depth 0 (guideOf keys) = .ok (some place.index)) ∧
    ∀ a t, p.toks[a]? = some t → t.type = .array → ∃ place ∈ d.places, ∃ pad items,
      place.index = a ∧ place.value = .arr pad items ∧ Holds d.text p.toks a place.value ∧
      ∀ i, (jsonGetArr (filled p.toks) depth a i = .ok none ↔ items.length ≤ i) ∧
        ∀ v, items.get i = some v → ∃ element, place.element i = some element ∧
          element.value = v ∧ Holds d.text p.toks element.index v ∧
          jsonGetArr (filled p.toks) depth a i = .ok (some element.index) := by
  have hlex := hd.mono json_within_jsmnLexicon
  obtain ⟨htoks, hcount⟩ := jsmnParse_document hlex hparse
  obtain ⟨htokens, hlen, -⟩ := jsmnParse_tokens hparse
  have hdepth' : p.toks.length ≤ depth := by omega
  have hroot := root_placed hlex hparse
  constructor
  · intro keys hkeys
    have hdelve : jsonDelve (filled p.toks) d.text depth 0 (guideOf keys) =
        .ok ((d.root.follow keys).map Place.index) :=
      delveLoop_place htokens hdepth' hkeys (length_le_guideOf keys) hroot
    have hvalue : (d.root.follow keys).map Place.value = d.value.follow keys :=
      d.root.follow_value keys
    rw [hdelve, ← hvalue]
    refine ⟨by simp, fun v hv => ?_⟩
    obtain ⟨place, hplace, rfl⟩ := Option.map_eq_some_iff.mp hv
    exact ⟨place, hplace, rfl, (hroot.follow hplace).holds, by rw [hplace]; rfl⟩
  · intro a t ht htype
    rw [htoks] at ht
    obtain ⟨place, hmem, hindex, pad, items, harr⟩ := value_arrays d.value 0 ht htype
    obtain rfl : place.index = a := hindex.trans (Nat.zero_add a)
    have hplaced : Placed d.text p.toks place := hroot.of_mem hmem
    refine ⟨place, hmem, pad, items, rfl, harr, hplaced.holds, fun i => ?_⟩
    have hvalue : (place.element i).map Place.value = items.get i := by
      rw [Place.element, harr]
      exact items.element_value true _ _ i
    rw [jsonGetArr_place hdepth' hplaced i, ← Items.get_eq_none_iff, ← hvalue]
    refine ⟨by simp, fun v hv => ?_⟩
    obtain ⟨element, helement, rfl⟩ := Option.map_eq_some_iff.mp hv
    exact ⟨element, helement, rfl, (hplaced.of_mem (Place.element_mem_places helement)).holds,
      by rw [helement]; rfl⟩

/-- `{"a":[1]}` -/
def nestedDocument : Document where
  lead := []
  pad := []
  members := .cons [] (bytes "a") [] [] (.arr [] (.cons [] (.prim (bytes "1")) [] .nil)) [] .nil
  trail := []

theorem nestedDocument_wellFormed : nestedDocument.WellFormed := by
  have hblank : Blank [] := by simp [Blank]
  have hdigits : Digits (bytes "1") := ⟨by decide, List.forall_mem_singleton.mpr (by decide)⟩
  have hnumber : Number ([] ++ bytes "1" ++ [] ++ []) :=
    .mk (.inl rfl) hdigits (.inr (by decide)) (.inl rfl) (.inl rfl)
  have hkey : StringBody (0x20 ≤ ·) (bytes "a") :=
    .plain (by decide) (by decide) (by decide) .nil
  exact ⟨hblank, ⟨hblank, hblank, hkey, hblank, hblank,
    ⟨hblank, hblank, .inr (.inr (.inr hnumber)), hblank, trivial⟩, hblank, trivial⟩, hblank⟩

theorem jsonDelve_document_nested :
    ∃ p, jsmnParse nestedDocument.text 4 = .ok p ∧
      (∃ i, jsonDelve (filled p.toks) nestedDocument.text 4 0 (guideOf [bytes "a"]) =
        .ok (some i)) ∧
      ∃ place ∈ nestedDocument.places, place.index = 2 := by
  have hparse : jsmnParse nestedDocument.text 4 = .ok
      { pos := 9, toksuper := none, count := 4,
        toks := [⟨.object, 0, 9, 1⟩, ⟨.string, 2, 3, 1⟩, ⟨.array, 5, 8, 1⟩,
          ⟨.primitive, 6, 7, 0⟩] } := by
    rfl
  obtain ⟨hdelve, harr⟩ := jsonDelve_document nestedDocument_wellFormed hparse (Nat.le_refl 4)
  refine ⟨_, hparse, ?_, ?_⟩
  · have hkeys : ∀ key ∈ [bytes "a"], IsGuideKey key := by
      intro key hkey
      obtain rfl := List.mem_singleton.mp hkey
      exact ⟨by decide, by decide, by decide⟩
    obtain ⟨place, -, -, -, hplace⟩ := (hdelve [bytes "a"] hkeys).2 _ rfl
    exact ⟨place.index, hplace⟩
  · obtain ⟨place, hmem, _, _, hindex, _⟩ := harr 2 _ rfl rfl
    exact ⟨place, hmem, hindex⟩

end AtxSys
