import AtxSys.Lib.JsonSyntax

/-!
# The outline of a text

What a reader keeps to that matches brackets, strings and primitives and takes blanks, commas and
colons anywhere: less than the grammar of JSON, and the same parts. While brackets are open, the
outlines inside them lie one behind the other.
-/

namespace JsonSyntax

open CText

inductive Group where
  | object
  | array
  deriving DecidableEq

namespace Group

def opening : Group → UInt8
  | .object => lbrace
  | .array => lbracket

def closing : Group → UInt8
  | .object => rbrace
  | .array => rbracket

end Group

/-- A blank, a comma or a colon. -/
def Separates (c : UInt8) : Prop := c ∈ [tab, newline, carriageReturn, space, comma, colon]

instance : DecidablePred Separates := fun c =>
  inferInstanceAs (Decidable (c ∈ [tab, newline, carriageReturn, space, comma, colon]))

inductive Outline where
  | nil
  | sep (c : UInt8) (rest : Outline)
  | str (body : Bytes) (rest : Outline)
  | prim (text : Bytes) (rest : Outline)
  | group (g : Group) (inner rest : Outline)

namespace Outline

def text : Outline → Bytes
  | .nil => []
  | .sep c rest => c :: rest.text
  | .str body rest => quoted body ++ rest.text
  | .prim text rest => text ++ rest.text
  | .group g inner rest => g.opening :: (inner.text ++ g.closing :: rest.text)

def Lexical (L : Lexicon) : Outline → Prop
  | .nil => True
  | .sep c rest => Separates c ∧ rest.Lexical L
  | .str body rest => L.str body ∧ rest.Lexical L
  | .prim text rest => L.prim text ∧ rest.Lexical L
  | .group _ inner rest => inner.Lexical L ∧ rest.Lexical L

def append : Outline → Outline → Outline
  | .nil, o => o
  | .sep c rest, o => .sep c (rest.append o)
  | .str body rest, o => .str body (rest.append o)
  | .prim text rest, o => .prim text (rest.append o)
  | .group g inner rest, o => .group g inner (rest.append o)

section Append

variable {L : Lexicon} {o o' : Outline}

theorem text_append (o o' : Outline) : (o.append o').text = o.text ++ o'.text := by
  induction o with
  | nil => rfl
  | sep c rest ih | str body rest ih | prim s rest ih => simp [append, text, ih]
  | group g inner rest _ ih => simp [append, text, ih]

theorem Lexical.append (h : o.Lexical L) (h' : o'.Lexical L) : (o.append o').Lexical L := by
  induction o with
  | nil => exact h'
  | sep c rest ih | str body rest ih | prim text rest ih => exact ⟨h.1, ih h.2⟩
  | group g inner rest _ ih => exact ⟨h.1, ih h.2⟩

end Append

end Outline

/-! ### Parts -/

/-- What a reader notes of a part: a string without its quotes, and a group as long as it is open
without its end. -/
inductive Part where
  | str (start stop : Nat)
  | prim (start stop : Nat)
  | group (g : Group) (start : Nat) (stop : Option Nat)
  deriving DecidableEq

def Part.IsOpen : Part → Prop
  | .group _ _ none => True
  | _ => False

/-- The parts in the order in which they start, the text standing at `off`. -/
def Outline.parts : Outline → Nat → List Part
  | .nil, _ => []
  | .sep _ rest, off => rest.parts (off + 1)
  | .str body rest, off =>
    .str (off + 1) (off + 1 + body.length) :: rest.parts (off + (body.length + 2))
  | .prim text rest, off => .prim off (off + text.length) :: rest.parts (off + text.length)
  | .group g inner rest, off =>
    .group g off (some (off + (inner.text.length + 2))) ::
      (inner.parts (off + 1) ++ rest.parts (off + (inner.text.length + 2)))

namespace Outline

theorem parts_append (o o' : Outline) (off : Nat) :
    (o.append o').parts off = o.parts off ++ o'.parts (off + o.text.length) := by
  induction o generalizing off with
  | nil => rfl
  | sep c rest ih =>
      have hend : off + (c :: rest.text).length = off + 1 + rest.text.length := by
        simp only [List.length_cons]
        omega
      rw [append, parts, parts, ih, text, hend]
  | str body rest ih =>
      have hend : off + (quoted body ++ rest.text).length =
          off + (body.length + 2) + rest.text.length := by
        simp only [quoted, List.length_append, List.length_cons, List.length_nil]
        omega
      rw [append, parts, parts, ih, text, hend, List.cons_append]
  | prim s rest ih =>
      have hend : off + (s ++ rest.text).length = off + s.length + rest.text.length := by
        rw [List.length_append, Nat.add_assoc]
      rw [append, parts, parts, ih, text, hend, List.cons_append]
  | group g inner rest _ ih =>
      have hend : off + (g.opening :: (inner.text ++ g.closing :: rest.text)).length =
          off + (inner.text.length + 2) + rest.text.length := by
        simp only [List.length_cons, List.length_append]
        omega
      rw [append, parts, parts, ih, text, hend, List.cons_append, List.append_assoc]

theorem parts_closed (o : Outline) (off : Nat) : ∀ part ∈ o.parts off, ¬ part.IsOpen := by
  induction o generalizing off with
  | nil => intro part hpart; cases hpart
  | sep c rest ih => exact ih (off + 1)
  | str body rest ih | prim text rest ih =>
      intro part hpart
      rcases List.mem_cons.mp hpart with rfl | hpart
      · exact not_false
      · exact ih _ part hpart
  | group g inner rest ihInner ih =>
      intro part hpart
      rcases List.mem_cons.mp hpart with rfl | hpart
      · exact not_false
      · rcases List.mem_append.mp hpart with hpart | hpart
        · exact ihInner _ part hpart
        · exact ih _ part hpart

end Outline

/-! ### A text that is read -/

/-- A text read so far with its parts: behind the outline outside of all groups that are open, each
open group with the outline inside of it, the innermost group first in the list. -/
inductive Reads (L : Lexicon) : List Group → Bytes → List Part → Prop where
  | outside {o : Outline} (h : o.Lexical L) : Reads L [] o.text (o.parts 0)
  | inside {gs : List Group} {text : Bytes} {parts : List Part} (outer : Reads L gs text parts)
      (g : Group) {o : Outline} (h : o.Lexical L) :
      Reads L (g :: gs) (text ++ g.opening :: o.text)
        (parts ++ .group g text.length none :: o.parts (text.length + 1))

namespace Reads

variable {L : Lexicon} {gs : List Group} {g : Group} {text : Bytes} {parts : List Part}

theorem append (h : Reads L gs text parts) {o : Outline} (ho : o.Lexical L) :
    Reads L gs (text ++ o.text) (parts ++ o.parts text.length) := by
  cases h with
  | @outside o' h =>
      have hparts := o'.parts_append o 0
      rw [Nat.zero_add] at hparts
      rw [← Outline.text_append, ← hparts]
      exact .outside (h.append ho)
  | @inside gs' text' parts' outer g o' h =>
      have hlen : (text' ++ g.opening :: o'.text).length = text'.length + 1 + o'.text.length := by
        simp only [List.length_append, List.length_cons]
        omega
      rw [hlen, List.append_assoc, List.append_assoc, List.cons_append, List.cons_append,
        ← Outline.text_append, ← Outline.parts_append]
      exact .inside outer g (h.append ho)

theorem opened (h : Reads L gs text parts) (g : Group) :
    Reads L (g :: gs) (text ++ [g.opening]) (parts ++ [.group g text.length none]) :=
  .inside h g (o := .nil) trivial

/-- The innermost group is the last one that is open. -/
theorem innermost (h : Reads L (g :: gs) text parts) :
    ∃ before start inner, parts = before ++ .group g start none :: inner ∧
      (∀ part ∈ inner, ¬ part.IsOpen) ∧
      Reads L gs (text ++ [g.closing])
        (before ++ .group g start (some (text.length + 1)) :: inner) := by
  cases h with
  | @inside _ text' parts' outer _ o h =>
      refine ⟨parts', text'.length, _, rfl, o.parts_closed _, ?_⟩
      have hgroup := outer.append (o := .group g o .nil) ⟨h, trivial⟩
      have hlen : (text' ++ g.opening :: o.text).length + 1 =
          text'.length + (o.text.length + 2) := by
        simp only [List.length_append, List.length_cons]
        omega
      rw [hlen, List.append_assoc, List.cons_append]
      simpa [Outline.text, Outline.parts] using hgroup

theorem outline (h : Reads L [] text parts) :
    ∃ o : Outline, o.Lexical L ∧ o.text = text ∧ o.parts 0 = parts := by
  cases h with
  | @outside o h => exact ⟨o, h, rfl, rfl⟩

theorem closed (h : Reads L [] text parts) : ∀ part ∈ parts, ¬ part.IsOpen := by
  obtain ⟨o, -, -, rfl⟩ := h.outline
  exact o.parts_closed 0

theorem eq_nil (h : Reads L gs text parts) (hclosed : ∀ part ∈ parts, ¬ part.IsOpen) :
    gs = [] := by
  cases h with
  | outside h => rfl
  | inside outer g h =>
      exact absurd trivial (hclosed _ (List.mem_append_right _ List.mem_cons_self))

end Reads

end JsonSyntax
