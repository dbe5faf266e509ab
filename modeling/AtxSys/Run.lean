import AtxSys.Lib.CText

/-!
# Runs

What a C function does besides returning: the result of a call is a value, or the fault at which the
run leaves what the language or the program defines.
-/

namespace AtxSys

open CText

inductive Fault where
  /-- a token slot outside of the readable ones -/
  | slot (i : Nat)
  /-- bytes outside of the text buffer -/
  | text
  /-- a variable that was not assigned -/
  | unset
  /-- a conversion of a format without its argument -/
  | format
  | stackOverflow
  /-- a failing `assert`, or `abort` -/
  | abort
  /-- `exit` -/
  | exit
  /-- a call of libuboot on a context that is not open -/
  | context
  deriving DecidableEq, Repr

abbrev Run := Except Fault

@[simp]
theorem run_bind_ok {α β : Type} (a : α) (f : α → Run β) : ((.ok a : Run α) >>= f) = f a := rfl

@[simp]
theorem run_bind_error {α β : Type} (e : Fault) (f : α → Run β) :
    ((.error e : Run α) >>= f) = .error e := rfl

theorem run_bind_eq_ok {α β : Type} {x : Run α} {f : α → Run β} {b : β} (h : (x >>= f) = .ok b) :
    ∃ a, x = .ok a ∧ f a = .ok b := by
  cases x with
  | error e => cases h
  | ok a => exact ⟨a, rfl, h⟩

theorem run_error_ne_ok {α : Type} {e : Fault} {P : α → Prop} :
    ¬∃ a, (.error e : Run α) = .ok a ∧ P a := by
  rintro ⟨a, ha, -⟩
  cases ha

theorem run_map_ok_iff {α β : Type} {x : Run α} {f : α → β} {P : β → Prop} :
    (∃ b, (x >>= fun a => .ok (f a)) = .ok b ∧ P b) ↔ ∃ a, x = .ok a ∧ P (f a) := by
  constructor
  · rintro ⟨b, hb, hP⟩
    obtain ⟨a, ha, hb⟩ := run_bind_eq_ok hb
    refine ⟨a, ha, ?_⟩
    rw [Except.ok.inj hb]
    exact hP
  · rintro ⟨a, rfl, hP⟩
    exact ⟨f a, rfl, hP⟩

/-- The text that a function of the printf family renders. -/
def formatText (fmt : Bytes) (args : List Arg) : Run Bytes :=
  match vformat fmt args with
  | none => .error .format
  | some text => .ok text

theorem formatText_eq_ok {fmt text : Bytes} {args : List Arg} (h : vformat fmt args = some text) :
    formatText fmt args = .ok text := by
  rw [formatText, h]

theorem formatText_str (s : Bytes) : formatText (bytes "%s") [.str s] = .ok (cstr s) := by
  apply formatText_eq_ok
  rw [← List.append_nil (bytes "%s"), vformat_str]
  simp

theorem formatText_precision (n : Nat) (s : Bytes) :
    formatText (bytes "%.*s") [.int n, .str s] = .ok (cstr (s.take n)) := by
  apply formatText_eq_ok
  rw [← List.append_nil (bytes "%.*s"), vformat_precision]
  simp

end AtxSys
