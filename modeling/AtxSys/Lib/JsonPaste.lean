import AtxSys.Lib.JsonDecode

/-!
# Pasting texts into an object

A program that prints an object from a template pastes names and values between the quotes of it.
What it prints says what was meant exactly if nothing that was pasted has to be escaped: anything
else makes the text too short for its fields. If values have no quotes in them, each field may be
looked at by itself.
-/

namespace JsonSyntax

open CText

/-! ### The text -/

/-- A value as it is pasted. -/
def Scalar.text : Scalar → Bytes
  | .str s => quoted s
  | .prim text => text

def fieldsText : Bool → List (Bytes × Scalar) → Bytes
  | _, [] => []
  | first, (name, value) :: fields =>
    separator first ++ (quoted name ++ colon :: (value.text ++ fieldsText false fields))

def objectText (fields : List (Bytes × Scalar)) : Bytes :=
  lbrace :: (fieldsText true fields ++ [rbrace])

/-! ### What a text says is no heavier than the text -/

section Weigh

variable {w : UInt8 → Nat} {fields : List (Bytes × Scalar)}

theorem weigh_quoted (body : Bytes) : weigh w (quoted body) = 2 * w quote + weigh w body := by
  rw [quoted, weigh_cons, weigh_append, weigh_cons, weigh_nil]
  omega

theorem weigh_scalar_le (hw : Absorbs w) {v : Value} (hv : v.Lexical json) {x : Scalar}
    (h : v.scalar = some x) : weigh w x.text ≤ weigh w v.text := by
  cases v with
  | str body =>
      obtain rfl := Option.some.inj h
      have hbody := weigh_unescape_le hw hv
      rw [Scalar.text, Value.text, weigh_quoted, weigh_quoted]
      omega
  | prim text =>
      obtain rfl := Option.some.inj h
      exact Nat.le_refl _
  | arr | obj => cases h

theorem weigh_fields_le (hw : Absorbs w) {members : Members} (hmembers : members.Lexical json)
    (h : members.scalars = some fields) (first : Bool) :
    weigh w (fieldsText first fields) ≤ weigh w (members.text first) := by
  induction fields generalizing members first with
  | nil => exact Nat.zero_le _
  | cons field fields ih =>
      obtain ⟨before, key, beforeColon, afterColon, value, after, rest, rfl, hname, hvalue, hrest⟩ :=
        Members.scalars_eq_cons h
      obtain ⟨-, hkey, -, -, hlex, -, hlexRest⟩ := hmembers
      have hkey := weigh_unescape_le hw hkey
      have hvalue := weigh_scalar_le hw hlex hvalue
      have hrest := ih hlexRest hrest false
      simp only [fieldsText, Members.text, weigh_append, weigh_cons, weigh_quoted, ← hname]
      omega

theorem Decodes.weigh_le (hw : Absorbs w) {text : Bytes} (h : Decodes text fields) :
    weigh w (objectText fields) ≤ weigh w text := by
  obtain ⟨d, ⟨-, ⟨-, hlex⟩, -⟩, rfl, hfields⟩ := h
  have hmembers := weigh_fields_le hw hlex hfields true
  simp only [objectText, Document.text, Document.value, Value.text, weigh_append, weigh_cons,
    weigh_nil]
  omega

theorem Decodes.length_le {text : Bytes} (h : Decodes text fields) :
    (objectText fields).length ≤ text.length := by
  rw [← weigh_one, ← weigh_one text]
  exact h.weigh_le absorbs_one

theorem weigh_member_le {field : Bytes × Scalar} (h : field ∈ fields) :
    weigh w (fieldsText false [field]) ≤ weigh w (fieldsText false fields) := by
  induction fields with
  | nil => cases h
  | cons head fields ih =>
      rcases List.mem_cons.mp h with rfl | h
      · simp only [fieldsText, weigh_append, weigh_cons, weigh_nil]
        omega
      · have htail := ih h
        simp only [fieldsText, weigh_append, weigh_cons, weigh_nil] at htail ⊢
        omega

/-- An object is no lighter than two of its fields, in whatever order they stand. -/
theorem weigh_pair_le {a b : Bytes × Scalar} (ha : a ∈ fields) (hb : b ∈ fields) (hne : a ≠ b)
    (first : Bool) : weigh w (fieldsText first [a, b]) ≤ weigh w (fieldsText first fields) := by
  induction fields generalizing first with
  | nil => cases ha
  | cons head fields ih =>
      rcases List.mem_cons.mp ha with rfl | ha'
      · have hmember := weigh_member_le (w := w) ((List.mem_cons.mp hb).resolve_left (Ne.symm hne))
        simp only [fieldsText, weigh_append, weigh_cons, weigh_nil] at hmember ⊢
        omega
      have hmember := weigh_member_le (w := w) ha'
      rcases List.mem_cons.mp hb with rfl | hb'
      · simp only [fieldsText, weigh_append, weigh_cons, weigh_nil] at hmember ⊢
        omega
      · have htail := ih ha' hb' false
        have hfirst : weigh w (separator first) ≤ weigh w (separator false) := by
          cases first with
          | true => exact Nat.zero_le _
          | false => exact Nat.le_refl _
        simp only [fieldsText, weigh_append, weigh_cons, weigh_nil] at htail ⊢
        omega

end Weigh

/-! ### Pasted fields -/

/-- The value is one where it is pasted. -/
def Scalar.Body : Scalar → Prop
  | .str s => StringBody (0x20 ≤ ·) s
  | .prim text => json.prim text

/-- What is pasted stands for itself. -/
def Scalar.Plain : Scalar → Prop
  | .str s => JsonSyntax.Plain s
  | .prim text => json.prim text

/-- What a pasted value says. -/
def Scalar.decoded : Scalar → Scalar
  | .str s => .str (unescape s)
  | .prim text => .prim text

def PlainField (field : Bytes × Scalar) : Prop := Plain field.1 ∧ field.2.Plain

def Scalar.value : Scalar → Value
  | .str s => .str s
  | .prim text => .prim text

/-- The members as they are printed, without blanks. -/
def pastedMembers : List (Bytes × Scalar) → Members
  | [] => .nil
  | (name, value) :: fields => .cons [] name [] [] value.value [] (pastedMembers fields)

section Paste

variable {fields : List (Bytes × Scalar)}

theorem pastedMembers_text (fields : List (Bytes × Scalar)) (first : Bool) :
    (pastedMembers fields).text first = fieldsText first fields := by
  induction fields generalizing first with
  | nil => rfl
  | cons field fields ih =>
      obtain ⟨name, value⟩ := field
      have hvalue : value.value.text = value.text := by cases value <;> rfl
      simp [pastedMembers, Members.text, fieldsText, hvalue, ih false]

theorem decodes_objectText
    (h : ∀ field ∈ fields, StringBody (0x20 ≤ ·) field.1 ∧ field.2.Body) :
    Decodes (objectText fields)
      (fields.map fun field => (unescape field.1, field.2.decoded)) := by
  have hblank : Blank [] := fun c hc => absurd hc List.not_mem_nil
  have hlex : (pastedMembers fields).Lexical json ∧ (pastedMembers fields).scalars =
      some (fields.map fun field => (unescape field.1, field.2.decoded)) := by
    induction fields with
    | nil => exact ⟨trivial, rfl⟩
    | cons field fields ih =>
        obtain ⟨name, value⟩ := field
        obtain ⟨hname, hvalue⟩ := h (name, value) List.mem_cons_self
        obtain ⟨hrest, hscalars⟩ := ih fun field hfield => h field (List.mem_cons_of_mem _ hfield)
        have hbody : value.value.Lexical json := by cases value <;> exact hvalue
        have hscalar : value.value.scalar = some value.decoded := by cases value <;> rfl
        refine ⟨⟨hblank, hname, hblank, hblank, hbody, hblank, hrest⟩, ?_⟩
        simp [pastedMembers, Members.scalars, hscalar, hscalars]
  refine ⟨⟨[], [], pastedMembers fields, []⟩, ⟨hblank, ⟨hblank, hlex.1⟩, hblank⟩, ?_, hlex.2⟩
  simp [Document.text, Document.value, Value.text, objectText, pastedMembers_text]

theorem PlainField.body {field : Bytes × Scalar} (h : PlainField field) :
    (StringBody (0x20 ≤ ·) field.1 ∧ field.2.Body) ∧
      (unescape field.1, field.2.decoded) = field := by
  obtain ⟨name, value⟩ := field
  obtain ⟨hname, hvalue⟩ := h
  cases value with
  | str s =>
      refine ⟨⟨hname.body, Plain.body hvalue⟩, ?_⟩
      rw [Scalar.decoded, hname.unescape_eq, Plain.unescape_eq hvalue]
  | prim text =>
      refine ⟨⟨hname.body, hvalue⟩, ?_⟩
      rw [Scalar.decoded, hname.unescape_eq]

theorem plain_scalar {v : Value} (hv : v.Lexical json) {x : Scalar} (h : v.scalar = some x)
    (hlength : v.text.length ≤ x.text.length) : x.Plain := by
  cases v with
  | str body =>
      obtain rfl := Option.some.inj h
      simp only [Scalar.text, Value.text, quoted, List.length_cons, List.length_append,
        List.length_nil] at hlength
      have hplain := plain_of_length_le hv (by omega)
      rw [Scalar.Plain, hplain.unescape_eq]
      exact hplain
  | prim text =>
      obtain rfl := Option.some.inj h
      exact hv
  | arr | obj => cases h

/-- A text that is no longer than its fields has nothing escaped. -/
theorem plain_fields {members : Members} (hmembers : members.Lexical json)
    (h : members.scalars = some fields) (first : Bool)
    (hlength : (members.text first).length ≤ (fieldsText first fields).length) :
    ∀ field ∈ fields, PlainField field := by
  induction fields generalizing members first with
  | nil => exact fun field hfield => absurd hfield List.not_mem_nil
  | cons field fields ih =>
      obtain ⟨before, key, beforeColon, afterColon, value, after, rest, rfl, hname, hvalue, hrest⟩ :=
        Members.scalars_eq_cons h
      obtain ⟨-, hkey, -, -, hlex, -, hlexRest⟩ := hmembers
      have hkeyLength := length_unescape_le hkey
      have hvalueLength := weigh_scalar_le absorbs_one hlex hvalue
      have hrestLength := weigh_fields_le absorbs_one hlexRest hrest false
      rw [weigh_one, weigh_one] at hvalueLength hrestLength
      simp only [fieldsText, Members.text, quoted, List.length_append, List.length_cons,
        List.length_nil, ← hname] at hlength
      have hkeyPlain := plain_of_length_le hkey (by omega)
      intro f hf
      rcases List.mem_cons.mp hf with rfl | hf
      · refine ⟨?_, plain_scalar hlex hvalue (by omega)⟩
        rw [← hname, hkeyPlain.unescape_eq]
        exact hkeyPlain
      · exact ih hlexRest hrest false (by omega) f hf

theorem Decodes.plain {text : Bytes} (h : Decodes text fields)
    (hlength : text.length ≤ (objectText fields).length) : ∀ field ∈ fields, PlainField field := by
  obtain ⟨d, ⟨-, ⟨-, hlex⟩, -⟩, rfl, hfields⟩ := h
  simp only [objectText, Document.text, Document.value, Value.text, List.length_append,
    List.length_cons, List.length_nil] at hlength
  exact plain_fields hlex hfields true (by omega)

/-- **What was pasted is what is read** exactly if everything that was pasted is plain. -/
theorem decodes_objectText_iff :
    Decodes (objectText fields) fields ↔ ∀ field ∈ fields, PlainField field := by
  constructor
  · intro h
    exact h.plain (Nat.le_refl _)
  · intro h
    have hdecodes := decodes_objectText fun field hfield => (h field hfield).body.1
    have hmap : (fields.map fun field => (unescape field.1, field.2.decoded)) = fields := by
      rw [List.map_congr_left fun field hfield => (h field hfield).body.2, List.map_id']
    rwa [hmap] at hdecodes

end Paste

/-! ### Values without quotes -/

section Ends

variable {plain : UInt8 → Prop} {body name raw rest rest' : Bytes}

/-- A body that stands for a name ends where the name does: a quote that it had jumped over would be
one too many. -/
theorem body_eq_name (hbody : StringBody plain body) (hname : unescape body = name)
    (h : body ++ quote :: rest = name ++ quote :: rest') : body = name ∧ rest = rest' := by
  have hlength := length_unescape_le hbody
  rcases List.append_eq_append_iff.mp h with ⟨more, hmore, htail⟩ | ⟨more, hmore, htail⟩
  · have hnil : more = [] := by
      rw [hname, hmore, List.length_append] at hlength
      exact List.eq_nil_of_length_eq_zero (by omega)
    subst hnil
    rw [List.append_nil] at hmore
    exact ⟨hmore.symm, (List.cons.inj htail).2⟩
  · cases more with
    | nil =>
        rw [List.append_nil] at hmore
        exact ⟨hmore, (List.cons.inj htail).2.symm⟩
    | cons c more =>
        obtain ⟨rfl, -⟩ := List.cons.inj htail
        have hcount := count_quote_le hbody
        rw [hname, hmore, List.count_append, List.count_cons_self] at hcount
        omega

/-- A body that begins where a text without quotes was pasted is this text, or jumps over the quote
behind it. -/
theorem body_eq_raw (hraw : quote ∉ raw) (h : body ++ quote :: rest = raw ++ quote :: rest') :
    body = raw ∧ rest = rest' ∨ ∃ more, body = raw ++ quote :: more ∧
      rest' = more ++ quote :: rest := by
  rcases List.append_eq_append_iff.mp h with ⟨more, hmore, htail⟩ | ⟨more, hmore, htail⟩
  · cases more with
    | nil =>
        rw [List.append_nil] at hmore
        exact .inl ⟨hmore.symm, (List.cons.inj htail).2⟩
    | cons c more =>
        obtain ⟨rfl, -⟩ := List.cons.inj htail
        exact absurd (by simp [hmore]) hraw
  · cases more with
    | nil =>
        rw [List.append_nil] at hmore
        exact .inl ⟨hmore, (List.cons.inj htail).2.symm⟩
    | cons c more =>
        obtain ⟨rfl, hrest⟩ := List.cons.inj htail
        exact .inr ⟨more, hmore, hrest⟩

theorem Blank.eq_nil {blank : Bytes} {c : UInt8} (hblank : Blank blank)
    (h : blank ++ rest = c :: rest') (hc : c ∉ [tab, newline, carriageReturn, space]) :
    blank = [] := by
  cases blank with
  | nil => rfl
  | cons d blank =>
      obtain ⟨rfl, -⟩ := List.cons.inj h
      exact absurd (hblank d List.mem_cons_self) hc

theorem Blank.quote_notMem {blank : Bytes} (hblank : Blank blank) : quote ∉ blank := by
  intro hmem
  exact absurd (hblank quote hmem) (by decide)

/-- A key can't begin behind a value that has jumped over its quote: it would have to stand for a
name with a comma, or with fewer quotes than the key. -/
theorem not_key_behind {before key : Bytes} (hbefore : quote ∉ before) (hcomma : comma ∈ before)
    (hkey : StringBody (0x20 ≤ ·) key) (hname : unescape key = name)
    (h : before ++ quote :: (key ++ quote :: rest) = name ++ quote :: colon :: quote :: rest') :
    False := by
  rcases body_eq_raw hbefore h.symm with ⟨rfl, htail⟩ | ⟨more, rfl, htail⟩
  · -- the key is the colon between the name and its value
    cases key with
    | nil => exact absurd (List.cons.inj htail).1 (by decide)
    | cons c key =>
        obtain ⟨rfl, hcolon⟩ := List.cons.inj htail
        cases key with
        | nil =>
            have hcolon : unescape [colon] = [colon] := by decide
            rw [hcolon] at hname
            subst hname
            exact absurd hcomma (by decide)
        | cons d key =>
            obtain ⟨rfl, -⟩ := List.cons.inj hcolon
            exact absurd (StringBody.before_quote (a := []) hkey) (by decide)
  · have hcount := count_quote_le hkey
    have hlength := length_unescape_le hkey
    have hpos := List.length_pos_of_mem hcomma
    rw [hname, List.count_append, List.count_eq_zero.mpr hbefore, List.count_cons_self] at hcount
    rw [hname, List.length_append, List.length_cons] at hlength
    rcases List.append_eq_append_iff.mp htail with ⟨tail, rfl, -⟩ | ⟨tail, rfl, hends⟩
    · rw [List.length_append] at hlength
      omega
    · rw [List.length_append] at hlength
      rw [List.count_append] at hcount
      match tail, hends with
      | [], _ =>
          rw [List.length_nil] at hlength
          omega
      | [_], _ =>
          rw [List.length_singleton] at hlength
          omega
      | [c, d], hends =>
          obtain ⟨rfl, -⟩ := List.cons.inj hends
          have hplain : Plain (more ++ [quote, d]) := by
            apply plain_of_length_le hkey
            rw [hname]
            simp only [List.length_append, List.length_cons, List.length_nil]
            omega
          exact absurd rfl (hplain quote (by simp)).2.1
      | c :: d :: e :: tail, hends =>
          simp only [List.cons_append, List.cons.injEq] at hends
          obtain ⟨rfl, rfl, rfl, -⟩ := hends
          rw [List.count_cons_self, List.count_cons_of_ne (by decide), List.count_cons_self]
            at hcount
          omega

end Ends

/-- A name, the text that is pasted for its value, and the value that is meant. -/
structure PastedField where
  name : Bytes
  raw : Bytes
  value : Bytes

namespace PastedField

def pasted (f : PastedField) : Bytes × Scalar := (f.name, .str f.raw)

def meant (f : PastedField) : Bytes × Scalar := (f.name, .str f.value)

/-- The name is plain, and the text between the quotes is a body that stands for the value. -/
structure Sound (f : PastedField) : Prop where
  name : Plain f.name
  raw : StringBody (0x20 ≤ ·) f.raw
  value : unescape f.raw = f.value

end PastedField

section Fields

variable {fields : List PastedField} {members : Members} {trail : Bytes}

/-- A body does not jump over the quote behind the text that was pasted for it. -/
theorem not_jumped {raw more after : Bytes} (hbody : StringBody (0x20 ≤ ·) (raw ++ quote :: more))
    (hafter : Blank after) (hmembers : members.Lexical json)
    (hscalars : members.scalars = some (fields.map PastedField.meant))
    (h : fieldsText false (fields.map PastedField.pasted) ++ [rbrace] =
      more ++ quote :: (after ++ (members.text false ++ rbrace :: trail))) : False := by
  cases fields with
  | nil =>
      have hmem : quote ∈ fieldsText false [] ++ [rbrace] := by
        rw [List.map_nil] at h
        rw [h]
        simp
      exact absurd hmem (by decide)
  | cons f fields =>
      obtain ⟨before, key, beforeColon, afterColon, value, after', rest, rfl, hname, -, -⟩ :=
        Members.scalars_eq_cons hscalars
      obtain ⟨hbefore, hkey, -⟩ := hmembers
      simp only [List.map_cons, PastedField.pasted, fieldsText, Scalar.text, separator, quoted,
        Members.text, Bool.false_eq_true, if_false, List.append_assoc, List.cons_append,
        List.nil_append] at h
      -- the comma and the quote of the next name are what the body goes on with
      match more, h with
      | [], h => exact absurd (List.cons.inj h).1 (by decide)
      | [c], h =>
          have hquote : quote ∉ after ++ comma :: before := by
            simp only [List.mem_append, List.mem_cons, hafter.quote_notMem, hbefore.quote_notMem,
              or_false, false_or]
            decide
          have hends := (List.cons.inj (List.cons.inj h).2).2.symm
          exact not_key_behind hquote (by simp) hkey hname ((List.append_assoc ..).trans hends)
      | c :: d :: more, h =>
          simp only [List.cons_append, List.cons.injEq] at h
          obtain ⟨rfl, rfl, -⟩ := h
          have hsplit : raw ++ quote :: comma :: quote :: more =
              (raw ++ [quote]) ++ comma :: quote :: more := by
            simp
          rw [hsplit] at hbody
          exact absurd hbody.before_quote (by decide)

theorem fields_sound (hmembers : members.Lexical json)
    (hscalars : members.scalars = some (fields.map PastedField.meant))
    (hraw : ∀ f ∈ fields, quote ∉ f.raw) (first : Bool)
    (h : members.text first ++ rbrace :: trail =
      fieldsText first (fields.map PastedField.pasted) ++ [rbrace]) :
    ∀ f ∈ fields, f.Sound := by
  induction fields generalizing members first with
  | nil => exact fun f hf => absurd hf List.not_mem_nil
  | cons f fields ih =>
      obtain ⟨before, key, beforeColon, afterColon, value, after, rest, rfl, hname, hvalue, hrest⟩ :=
        Members.scalars_eq_cons hscalars
      obtain ⟨body, rfl, hbodyValue⟩ := Value.scalar_eq_str hvalue
      obtain ⟨hbefore, hkey, hbeforeColon, hafterColon, hbody, hafter, hlexRest⟩ := hmembers
      simp only [List.map_cons, PastedField.pasted, fieldsText, Scalar.text, quoted, Members.text,
        Value.text, List.append_assoc, List.cons_append, List.nil_append] at h
      replace h := List.append_cancel_left h
      have hnil := hbefore.eq_nil h (by decide)
      rw [hnil] at h
      obtain ⟨hkeyName, hcolon⟩ := body_eq_name hkey hname (List.cons.inj h).2
      have hplain : Plain f.name := by
        have hkeyPlain := plain_of_length_le hkey (by rw [hname, hkeyName])
        rwa [hkeyName] at hkeyPlain
      have hnil := hbeforeColon.eq_nil hcolon (by decide)
      rw [hnil] at hcolon
      replace hcolon := (List.cons.inj hcolon).2
      have hnil := hafterColon.eq_nil hcolon (by decide)
      rw [hnil] at hcolon
      have hvalueRaw := hraw f List.mem_cons_self
      have hrestRaw : ∀ f ∈ fields, quote ∉ f.raw := fun g hg => hraw g (List.mem_cons_of_mem _ hg)
      rcases body_eq_raw hvalueRaw (List.cons.inj hcolon).2 with ⟨rfl, hend⟩ | ⟨more, rfl, hend⟩
      · have hnil : after = [] := by
          cases fields with
          | nil => exact hafter.eq_nil hend (by decide)
          | cons g fields => exact hafter.eq_nil hend (by decide)
        rw [hnil] at hend
        have hsound : f.Sound := ⟨hplain, hbody, hbodyValue⟩
        intro g hg
        rcases List.mem_cons.mp hg with rfl | hg
        · exact hsound
        · exact ih hlexRest hrest hrestRaw false hend g hg
      · exact (not_jumped hbody hafter hlexRest hrest hend).elim

/-- **Each field by itself.** If no pasted value has a quote, the text says what was meant exactly if
each name is plain and each pasted value is a body that stands for the value. -/
theorem decodes_pasted_iff (hraw : ∀ f ∈ fields, quote ∉ f.raw) :
    Decodes (objectText (fields.map PastedField.pasted)) (fields.map PastedField.meant) ↔
      ∀ f ∈ fields, f.Sound := by
  constructor
  · rintro ⟨d, ⟨hlead, ⟨hpad, hlex⟩, -⟩, htext, hscalars⟩
    simp only [Document.text, Document.value, Value.text, objectText, List.append_assoc,
      List.cons_append] at htext
    have hnil := hlead.eq_nil htext (by decide)
    rw [hnil] at htext
    replace htext := (List.cons.inj htext).2
    have hnil : fields = [] ∨ d.pad = [] := by
      cases fields with
      | nil => exact .inl rfl
      | cons f fields => exact .inr (hpad.eq_nil htext (by decide))
    rcases hnil with rfl | hnil
    · exact fun f hf => absurd hf List.not_mem_nil
    · rw [hnil] at htext
      exact fields_sound hlex hscalars hraw true htext
  · intro h
    have hbody : ∀ field ∈ fields.map PastedField.pasted,
        StringBody (0x20 ≤ ·) field.1 ∧ field.2.Body := by
      intro field hfield
      obtain ⟨f, hf, rfl⟩ := List.mem_map.mp hfield
      exact ⟨(h f hf).name.body, (h f hf).raw⟩
    have hdecodes := decodes_objectText hbody
    have hmap : (fields.map PastedField.pasted).map
        (fun field => (unescape field.1, field.2.decoded)) = fields.map PastedField.meant := by
      rw [List.map_map]
      apply List.map_congr_left
      intro f hf
      have hname : unescape f.name = f.name := (h f hf).name.unescape_eq
      have hvalue : unescape f.raw = f.value := (h f hf).value
      simp only [Function.comp, PastedField.pasted, PastedField.meant, Scalar.decoded, hname, hvalue]
    rwa [hmap] at hdecodes

end Fields

/-! ### Numbers -/

def digitByte (n : Nat) : UInt8 := .ofNat (48 + n)

/-- The decimal digits of a number, the last one behind the others. -/
theorem bytes_repr (n : Nat) :
    bytes n.repr = if n < 10 then [digitByte n]
      else bytes (n / 10).repr ++ [digitByte (n % 10)] := by
  have hbyte : ∀ {m : Nat}, m < 10 → m.digitChar.toNat.toUInt8 = digitByte m := by
    intro m hm
    rw [Nat.toNat_digitChar_of_lt_ten hm]
    rfl
  simp only [bytes, Nat.toList_repr]
  rw [Nat.toDigits_eq_if (by decide)]
  split
  · next hlt => simp [hbyte hlt]
  · simp [hbyte (Nat.mod_lt n (by decide : 10 > 0))]

theorem digitByte_digit {n : Nat} (h : n < 10) : 48 ≤ digitByte n ∧ digitByte n ≤ 57 := by
  rw [UInt8.le_iff_toNat_le, UInt8.le_iff_toNat_le, digitByte, UInt8.toNat_ofNat']
  change 48 ≤ _ ∧ _ ≤ 57
  omega

theorem digits_repr (n : Nat) :
    Digits (bytes n.repr) ∧ (n ≠ 0 → (bytes n.repr).head? ≠ some 48) := by
  induction n using Nat.strongRecOn with
  | ind n ih =>
      rw [bytes_repr]
      split
      · next hlt =>
        refine ⟨⟨List.cons_ne_nil _ _, ?_⟩, fun hne h => ?_⟩
        · simpa using digitByte_digit hlt
        · have hbyte := congrArg UInt8.toNat (Option.some.inj h)
          rw [digitByte, UInt8.toNat_ofNat'] at hbyte
          change _ = 48 at hbyte
          omega
      · next hge =>
        obtain ⟨⟨hne, hall⟩, hhead⟩ := ih (n / 10) (by omega)
        have hlast := digitByte_digit (Nat.mod_lt n (by decide : 10 > 0))
        refine ⟨⟨by simp, ?_⟩, fun _ => ?_⟩
        · rw [List.forall_mem_append]
          exact ⟨hall, by simpa using hlast⟩
        · rw [List.head?_append_of_ne_nil _ hne]
          exact hhead (by omega)

/-- `%d` prints a number of JSON. -/
theorem number_decimal (n : Int) : Number (decimal n) := by
  have hnat : ∀ (m : Nat) {sign : Bytes}, sign = [] ∨ sign = bytes "-" →
      Number (sign ++ bytes m.repr) := by
    intro m sign hsign
    obtain ⟨hdigits, hhead⟩ := digits_repr m
    have hlead : bytes m.repr = bytes "0" ∨ (bytes m.repr).head? ≠ some 48 := by
      by_cases hm : m = 0
      · subst hm
        exact .inl rfl
      · exact .inr (hhead hm)
    simpa using Number.mk hsign hdigits hlead (.inl rfl) (.inl rfl)
  rw [decimal, Int.toString_eq_repr, Int.repr_eq_if]
  split
  · exact hnat _ (.inl rfl)
  · have hsplit : bytes ("-" ++ (-n).toNat.repr) = bytes "-" ++ bytes (-n).toNat.repr := by
      simp [bytes]
    rw [hsplit]
    exact hnat _ (.inr rfl)

end JsonSyntax
