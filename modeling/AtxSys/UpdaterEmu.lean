import AtxSys.Upload

/-!
# The updater of an emulator

`updater_emu.c`, which takes the place of `updater_swupdate.c` in an emulator build. There is no
session behind it: `ipc` only tells whether an upload is open, and a write takes all it is given.
-/

namespace AtxSys

open CText

/-- Neither the updater nor the name of the image is read. -/
def emuUpdaterInit : Updater := { Updater.clear with ipc := 1 }

/-- `len` is returned as an `int`. -/
def emuUpdaterWrite (u : Updater) (data : Bytes) : Updater × Int :=
  let len := UInt32.ofNat data.length
  ({ u with len := u.len + len }, toInt len.toNat)

def emuUpdaterFree : Updater := .clear

/-- `update_handler` of an emulator build; it makes no calls whose results an event could hold. -/
def emuUpdateHandler (u : Updater) (mp : MultipartPart) : UpdateEvent → Run UpdateOutcome
  | .multipartRequest | .multipartRequestEnd =>
    .ok { updater := u, part := mp, calls := [], replies := [] }
  | .partBegin _ =>
    .ok { updater := emuUpdaterInit, part := { mp with userData := true }, calls := []
          replies := [] }
  | .partData _ =>
    if ¬ updaterActive u ∨ u.status ≠ .ok then
      .ok { updater := u, part := mp, calls := [], replies := [] }
    else
      let (u, l) := emuUpdaterWrite u mp.data
      .ok { updater := u, part := { mp with numDataConsumed := (l % 2 ^ 64).toNat }, calls := []
            replies := [] }
  | .partEnd => do
    let (code, args) := partEndReply u mp.fileName
    let reply ← httpPrintfJson code partEndFormat args
    .ok { updater := emuUpdaterFree, part := { mp with userData := false }, calls := []
          replies := [reply] }

namespace Server

section Step

variable (handler : Updater → MultipartPart → UpdateEvent → Run UpdateOutcome)
  (content name : Nat → Bytes) (s : Server)

/-- A server whose parts reach the given handler. -/
def stepWith : UploadEvent → Run Server
  | .begin p handle => do
    let o ← handler s.updater (s.multipart name p [] 0) (.partBegin handle)
    .ok { s with
      updater := o.updater
      calls := s.calls ++ o.calls.map (p, ·)
      phase := Function.update s.phase p .receiving
      owner := some p
      replies := s.replies ++ o.replies }
  | .data p size preset ret => do
    let o ← handler s.updater (s.multipart name p (s.chunk content p size) preset) (.partData ret)
    .ok { s with
      updater := o.updater
      calls := s.calls ++ o.calls.map (p, ·)
      offset := Function.update s.offset p (s.offset p + o.part.numDataConsumed)
      replies := s.replies ++ o.replies }
  | .finish p => do
    let o ← handler s.updater (s.multipart name p [] 0) .partEnd
    .ok { s with
      updater := o.updater
      calls := s.calls ++ o.calls.map (p, ·)
      phase := Function.update s.phase p .done
      owner := none
      replies := s.replies ++ o.replies }

def emuStep (e : UploadEvent) : Run Server := s.stepWith emuUpdateHandler content name e

/-- The events of a part come in order, with chunks shorter than 2^31 bytes. -/
def EmuLegal : UploadEvent → Prop
  | .begin p _ => s.phase p = .idle
  | .data p size _ _ => s.phase p = .receiving ∧ (s.chunk content p size).length < 2 ^ 31
  | .finish p => s.phase p = .receiving

def EmuNext (e : UploadEvent) (s' : Server) : Prop :=
  s.EmuLegal content e ∧ s.emuStep content name e = .ok s'

end Step

end Server

end AtxSys
