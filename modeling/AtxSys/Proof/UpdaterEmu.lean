import AtxSys.Proof.Upload
import AtxSys.UpdaterEmu

/-!
# The emulator and the device

Mongoose may cut what a client sends wherever it likes, and a session may take less than it is
given. So what an emulator does with the pieces that a session took is what the device did, and the
device can do all that an emulator does. Nobody outside can tell them apart.
-/

namespace AtxSys

open CText Slices Trace

namespace UploadEvent

/-- The event with its chunk cut to what `write` took of it. -/
def accepted : UploadEvent → UploadEvent
  | .begin p handle => .begin p handle
  | .data p _ preset ret => .data p ret.toNat preset ret
  | .finish p => .finish p

/-- The event without what the calls on the IPC return. -/
def offered : UploadEvent → UploadEvent
  | .begin p _ => .begin p 0
  | .data p size preset _ => .data p size preset 0
  | .finish p => .finish p

end UploadEvent

/-! ### Two updaters -/

/-- `v` counts what `u` counts, and is open when `u` is. -/
structure Updater.Mirrors (u v : Updater) : Prop where
  len : v.len = u.len
  ok : u.status = .ok
  status : v.status = .ok
  active : v.ipc = 0 ↔ u.ipc = 0

namespace Server

/-- An emulator's server `t` that stands where the server `s` stands. -/
structure Mirrors (s t : Server) : Prop where
  updater : s.updater.Mirrors t.updater
  offset : t.offset = s.offset
  phase : t.phase = s.phase
  owner : t.owner = s.owner
  replies : t.replies = s.replies
  silent : t.calls = []

/-! ### Steps of an emulator -/

section Emulator

variable {content name : Nat → Bytes} {t : Server} {p : Nat}

theorem emuStep_begin (handle : Int) : t.emuStep content name (.begin p handle) =
    .ok { t with
      updater := emuUpdaterInit
      phase := Function.update t.phase p .receiving
      owner := some p } := by
  simp only [emuStep, stepWith, emuUpdateHandler, run_bind_ok, List.map_nil, List.append_nil]

theorem emuStep_data_inactive (size preset : Nat) (ret : Int) (hinactive : t.updater.ipc = 0) :
    t.emuStep content name (.data p size preset ret) =
      .ok { t with offset := Function.update t.offset p (t.offset p + preset) } := by
  have hnot : ¬ updaterActive t.updater ∨ t.updater.status ≠ .ok := by
    left
    simp [updaterActive, hinactive]
  simp only [emuStep, stepWith, emuUpdateHandler, if_pos hnot, run_bind_ok, multipart,
    List.map_nil, List.append_nil]

theorem emuUpdaterWrite_eq (u : Updater) {data : Bytes} (hsmall : data.length < 2 ^ 31) :
    emuUpdaterWrite u data =
      ({ u with len := u.len + UInt32.ofNat data.length }, (data.length : Int)) := by
  have hlen : (UInt32.ofNat data.length).toNat = data.length := by
    rw [UInt32.toNat_ofNat', Nat.mod_eq_of_lt (by omega)]
  simp only [emuUpdaterWrite, hlen]
  rw [toInt_eq (by omega) (by omega)]

/-- The whole chunk is taken. -/
theorem emuStep_data_active {size preset : Nat} {ret : Int} (hactive : t.updater.ipc ≠ 0)
    (hstatus : t.updater.status = .ok) (hsmall : (t.chunk content p size).length < 2 ^ 31) :
    t.emuStep content name (.data p size preset ret) = .ok { t with
      updater := { t.updater with
        len := t.updater.len + UInt32.ofNat (t.chunk content p size).length }
      offset := Function.update t.offset p (t.offset p + (t.chunk content p size).length) } := by
  have hnot : ¬ (¬ updaterActive t.updater ∨ t.updater.status ≠ .ok) := by
    simp [updaterActive, hactive, hstatus]
  have hwrite := emuUpdaterWrite_eq t.updater hsmall
  have hsize : (((t.chunk content p size).length : Int) % 2 ^ 64).toNat =
      (t.chunk content p size).length := by omega
  simp only [emuStep, stepWith, emuUpdateHandler, if_neg hnot, multipart, hwrite, run_bind_ok,
    hsize, List.map_nil, List.append_nil]

theorem emuStep_finish {reply : Response}
    (hreply : httpPrintfJson (partEndReply t.updater (name p)).1 partEndFormat
      (partEndReply t.updater (name p)).2 = .ok reply) :
    t.emuStep content name (.finish p) = .ok { t with
      updater := .clear
      phase := Function.update t.phase p .done
      owner := none
      replies := t.replies ++ [reply] } := by
  have hhandler : emuUpdateHandler t.updater (t.multipart name p [] 0) .partEnd = .ok
      { updater := .clear, part := { t.multipart name p [] 0 with userData := false }
        calls := [], replies := [reply] } := by
    change httpPrintfJson (partEndReply t.updater (name p)).1 partEndFormat
      (partEndReply t.updater (name p)).2 >>= _ = _
    rw [hreply]
    rfl
  rw [emuStep, stepWith, hhandler, run_bind_ok]
  simp only [List.map_nil, List.append_nil]

end Emulator

/-! ### Runs of both -/

/-- The `int` that holds the result of `write` is exact. -/
def Exact (content : Nat → Bytes) (s : Server) : UploadEvent → Prop
  | .data p size _ ret =>
    ret < 2 ^ 31 ∧ ¬ (ret = -1 ∧ (s.chunk content p size).length % 2 ^ 32 = 2 ^ 32 - 1)
  | .begin _ _ | .finish _ => True

def ExactStep (content name : Nat → Bytes) (s : Server) (e : UploadEvent) (s' : Server) : Prop :=
  s.Next content name e s' ∧ s.Exact content e

/-- The session takes the whole chunk. -/
def Full (content : Nat → Bytes) (s : Server) : UploadEvent → Prop
  | .data p size _ ret => ret = (s.chunk content p size).length
  | .begin _ _ | .finish _ => True

def FullStep (content name : Nat → Bytes) (s : Server) (e : UploadEvent) (s' : Server) : Prop :=
  ExactStep content name s e s' ∧ s.Full content e

section Simulation

variable {content name : Nat → Bytes} {s s' t t' : Server}

theorem Mirrors.begin {p : Nat} {handle : Int} (h : Mirrors s t) (handle' : Int)
    (hnext : s.Next content name (.begin p handle) s') :
    ∃ t', t.EmuNext content name (.begin p handle') t' ∧ Mirrors s' t' := by
  have hs := next_begin hnext
  obtain ⟨hidle, hpos⟩ := hnext.1
  refine ⟨_, ⟨by rw [EmuLegal, h.phase]; exact hidle, emuStep_begin handle'⟩, ?_⟩
  have hopen : handle ≠ 0 := by omega
  subst hs
  exact
    { updater := ⟨rfl, rfl, rfl, iff_of_false Int.one_ne_zero hopen⟩
      offset := h.offset
      phase := congrArg (Function.update · p Phase.receiving) h.phase
      owner := rfl
      replies := h.replies
      silent := h.silent }

theorem Mirrors.finish {p : Nat} (h : Mirrors s t)
    (hnext : s.Next content name (.finish p) s') :
    ∃ t', t.EmuNext content name (.finish p) t' ∧ Mirrors s' t' := by
  obtain ⟨reply, hreply, hs⟩ := next_finish hnext
  have hsame : partEndReply t.updater (name p) = partEndReply s.updater (name p) := by
    rw [partEndReply, partEndReply, h.updater.len, h.updater.status, h.updater.ok]
  have hlegal : t.EmuLegal content (.finish p) := by
    rw [EmuLegal, h.phase]
    exact hnext.1
  refine ⟨_, ⟨hlegal, emuStep_finish (by rw [hsame]; exact hreply)⟩, ?_⟩
  subst hs
  exact
    { updater := ⟨rfl, rfl, rfl, Iff.rfl⟩
      offset := h.offset
      phase := congrArg (Function.update · p Phase.done) h.phase
      owner := rfl
      replies := congrArg (· ++ [reply]) h.replies
      silent := h.silent }

/-- A chunk `size'` of which the emulator takes as much as the session took. -/
theorem Mirrors.data {p size preset : Nat} {ret : Int} (h : Mirrors s t) (size' : Nat) (ret' : Int)
    (hstep : ExactStep content name s (.data p size preset ret) s')
    (hsame : (t.chunk content p size').length = ret.toNat) :
    ∃ t', t.EmuNext content name (.data p size' preset ret') t' ∧ Mirrors s' t' := by
  obtain ⟨hnext, hsmall, hwrap⟩ := hstep
  have hlegal : t.EmuLegal content (.data p size' preset ret') := by
    rw [EmuLegal, h.phase]
    exact ⟨hnext.1.1, by omega⟩
  by_cases hactive : s.updater.ipc = 0
  · have hs := next_data_inactive hactive hnext
    refine ⟨_, ⟨hlegal, emuStep_data_inactive _ _ _ (h.updater.active.mpr hactive)⟩, ?_⟩
    subst hs
    exact { h with offset := by simp only [h.offset] }
  · have hs := next_data_active hactive h.updater.ok hsmall hwrap hnext
    have hactive' : t.updater.ipc ≠ 0 := fun hzero => hactive (h.updater.active.mp hzero)
    refine ⟨_, ⟨hlegal, emuStep_data_active hactive' h.updater.status hlegal.2⟩, ?_⟩
    subst hs
    exact
      { updater :=
          { len := by simp only [hsame, h.updater.len]
            ok := h.updater.ok
            status := h.updater.status
            active := h.updater.active }
        offset := by simp only [hsame, h.offset]
        phase := h.phase
        owner := h.owner
        replies := h.replies
        silent := h.silent }

/-- The emulator does with the pieces that were taken what the device did. -/
theorem Mirrors.emulated {e : UploadEvent} (h : Mirrors s t)
    (hstep : ExactStep content name s e s') :
    ∃ t', t.EmuNext content name e.accepted t' ∧ Mirrors s' t' := by
  cases e with
  | begin p handle => exact h.begin handle hstep.1
  | data p size preset ret =>
      apply h.data ret.toNat ret hstep
      have hle : ret.toNat ≤ (s.chunk content p size).length := by
        have hret := hstep.1.1.2
        have hmod := Nat.mod_le (s.chunk content p size).length (2 ^ 32)
        omega
      rw [chunk, List.length_take] at hle
      rw [chunk, h.offset, List.length_take]
      omega
  | finish p => exact h.finish hstep.1

theorem step_data_ok (p size preset : Nat) (ret : Int) :
    ∃ s', s.step content name (.data p size preset ret) = .ok s' := by
  rw [step, updateHandler]
  split <;> exact ⟨_, rfl⟩

/-- The device can take whole chunks, as the emulator does. -/
theorem Mirrors.realized {e : UploadEvent} (h : Mirrors s t)
    (hnext : t.EmuNext content name e t') :
    ∃ e' s', FullStep content name s e' s' ∧ e'.offered = e.offered ∧ Mirrors s' t' := by
  obtain ⟨hlegal, hemu⟩ := hnext
  have hdone {e' : UploadEvent} {s' : Server} (hfull : FullStep content name s e' s')
      (hoffered : e'.offered = e.offered)
      (hmirror : ∃ t'', t.EmuNext content name e t'' ∧ Mirrors s' t'') :
      ∃ e' s', FullStep content name s e' s' ∧ e'.offered = e.offered ∧ Mirrors s' t' := by
    obtain ⟨t'', hnext, hmirror⟩ := hmirror
    obtain rfl : t'' = t' := Except.ok.inj (hnext.2.symm.trans hemu)
    exact ⟨_, _, hfull, hoffered, hmirror⟩
  cases e with
  | begin p handle =>
      have hidle : s.phase p = .idle := h.phase ▸ hlegal
      have hstep : s.Next content name (.begin p 1) _ := ⟨⟨hidle, Int.one_pos⟩, rfl⟩
      exact hdone ⟨⟨hstep, trivial⟩, trivial⟩ rfl (h.begin handle hstep)
  | data p size preset ret =>
      obtain ⟨hreceiving, hsmall⟩ := hlegal
      rw [h.phase] at hreceiving
      have hchunk : t.chunk content p size = s.chunk content p size := by
        rw [chunk, chunk, h.offset]
      rw [hchunk] at hsmall
      obtain ⟨s', hs'⟩ : ∃ s', s.step content name
          (.data p size preset (s.chunk content p size).length) = .ok s' := step_data_ok ..
      have hstep : ExactStep content name s (.data p size preset (s.chunk content p size).length)
          s' := ⟨⟨⟨hreceiving, .inr ⟨by omega, by omega⟩⟩, hs'⟩, by omega, by omega⟩
      exact hdone ⟨hstep, rfl⟩ rfl (h.data size ret hstep (by rw [hchunk]; rfl))
  | finish p =>
      have hreceiving : s.phase p = .receiving := by
        rw [← h.phase]
        exact hlegal
      obtain ⟨s', hstep⟩ : ∃ s', s.Next content name (.finish p) s' := finish_next hreceiving
      exact hdone ⟨⟨hstep, trivial⟩, trivial⟩ rfl (h.finish hstep)

end Simulation

/-! ### What is seen of a server -/

/-- What mongoose and the clients see. -/
structure Seen where
  offset : Nat → Nat
  phase : Nat → Phase
  replies : List Response
  active : Bool

def seen (s : Server) : Seen where
  offset := s.offset
  phase := s.phase
  replies := s.replies
  active := updaterActive s.updater

theorem Mirrors.seen {s t : Server} (h : Mirrors s t) : t.seen = s.seen := by
  have hactive : updaterActive t.updater = updaterActive s.updater := by
    rw [updaterActive, updaterActive, Bool.eq_iff_iff, bne_iff_ne, bne_iff_ne]
    exact not_congr h.updater.active
  rw [Server.seen, Server.seen, h.offset, h.phase, h.replies, hactive]

theorem start_mirrors : Mirrors (start .clear) (start .clear) :=
  ⟨⟨rfl, rfl, rfl, Iff.rfl⟩, rfl, rfl, rfl, rfl, rfl⟩

/-- **The emulator and the device.** What any number of uploads show of a device is what they show
of an emulator that gets the pieces which the sessions took; and what they show of an emulator they
show of a device whose sessions take whole chunks. The emulator makes no calls on the IPC. -/
theorem emu_seen (content name : Nat → Bytes) :
    (∀ es s, Steps (ExactStep content name) (start .clear) es s →
      ∃ t, Steps (EmuNext content name) (start .clear) (es.map UploadEvent.accepted) t ∧
        t.seen = s.seen ∧ t.calls = []) ∧
    ∀ es t, Steps (EmuNext content name) (start .clear) es t →
      ∃ es' s, Steps (FullStep content name) (start .clear) es' s ∧
        es'.map UploadEvent.offered = es.map UploadEvent.offered ∧ s.seen = t.seen := by
  constructor
  · intro es s hrun
    have hstep (s : Server) (e : UploadEvent) (s' t : Server) (h : Mirrors s t)
        (hnext : ExactStep content name s e s') :
        ∃ i t', e.accepted = i ∧ t.EmuNext content name i t' ∧ Mirrors s' t' := by
      obtain ⟨t', hemu, h'⟩ := h.emulated hnext
      exact ⟨_, t', rfl, hemu, h'⟩
    obtain ⟨is, t, hevents, hemu, hmirror⟩ := hrun.simulate hstep start_mirrors
    obtain rfl : es.map UploadEvent.accepted = is := by
      rwa [← List.forall₂_eq_eq_eq, List.forall₂_map_left_iff]
    exact ⟨t, hemu, hmirror.seen, hmirror.silent⟩
  · intro es t hrun
    have hstep (t : Server) (e : UploadEvent) (t' s : Server) (h : Mirrors s t)
        (hnext : t.EmuNext content name e t') :
        ∃ i s', i.offered = e.offered ∧ FullStep content name s i s' ∧ Mirrors s' t' := by
      obtain ⟨i, s', hfull, hoffered, h'⟩ := h.realized hnext
      exact ⟨i, s', hoffered, hfull, h'⟩
    obtain ⟨is, s, hevents, hfull, hmirror⟩ := hrun.simulate hstep start_mirrors
    refine ⟨is, s, hfull, ?_, hmirror.seen.symm⟩
    rw [← List.forall₂_eq_eq_eq, List.forall₂_map_left_iff, List.forall₂_map_right_iff]
    exact hevents.flip

/-- The session takes one byte of four, and two of the other three. -/
theorem emu_seen_short :
    ∃ (content name : Nat → Bytes) (s t : Server), s.calls =
        [(0, .start 5 (bytes "a.swu")), (0, .write 5 (bytes "abcd") 1),
          (0, .write 5 (bytes "bcd") 2), (0, .stop 5)] ∧
      Steps (EmuNext content name) (start .clear)
        [.begin 0 5, .data 0 1 0 1, .data 0 2 0 2, .finish 0] t ∧ t.seen = s.seen ∧ t.calls = [] := by
  let content : Nat → Bytes := fun _ => bytes "abcd"
  let name : Nat → Bytes := fun _ => bytes "a.swu"
  let next (s : Server) (e : UploadEvent) : Server := ((s.step content name e).toOption).getD s
  let s₀ := next (start .clear) (.begin 0 5)
  let s₁ := next s₀ (.data 0 4 0 1)
  let s₂ := next s₁ (.data 0 3 0 2)
  have hbegin : ExactStep content name (start .clear) (.begin 0 5) s₀ :=
    ⟨⟨⟨rfl, by decide⟩, rfl⟩, trivial⟩
  have hdata : ExactStep content name s₀ (.data 0 4 0 1) s₁ :=
    ⟨⟨⟨rfl, .inr (by decide)⟩, rfl⟩, by decide, by decide⟩
  have hrest : ExactStep content name s₁ (.data 0 3 0 2) s₂ :=
    ⟨⟨⟨rfl, .inr (by decide)⟩, rfl⟩, by decide, by decide⟩
  obtain ⟨s₃, hfinish⟩ : ∃ s₃, s₂.Next content name (.finish 0) s₃ := finish_next rfl
  obtain ⟨reply, -, hs₃⟩ := next_finish hfinish
  have hrun := (((Steps.single hbegin).snoc hdata).snoc hrest).snoc
    (⟨hfinish, trivial⟩ : ExactStep content name s₂ (.finish 0) s₃)
  obtain ⟨t, hemu, hseen, hsilent⟩ := (emu_seen content name).1 _ _ hrun
  refine ⟨content, name, s₃, t, ?_, hemu, hseen, hsilent⟩
  rw [hs₃]
  rfl

end Server

end AtxSys
