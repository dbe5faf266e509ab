import AtxSys.Lib.Trace
import AtxSys.Updater
import Mathlib.Logic.Function.Basic

/-!
# Uploads

The server with the parts that are uploaded to it. A part is a file that a connection sends; the
events of all parts reach one `update_handler`, with the one updater of the server. Mongoose keeps
what a `PART_DATA` did not consume and delivers it again, in front of later data: a chunk is any
piece of the content from the first byte on that was not consumed yet.
-/

namespace AtxSys

open CText

inductive Phase where
  | idle
  | receiving
  | done
  deriving DecidableEq

structure Server where
  updater : Updater
  /-- the calls on the IPC so far, each with the part whose event made it -/
  calls : List (Nat × IpcOp)
  /-- how much of each part was consumed -/
  offset : Nat → Nat
  phase : Nat → Phase
  /-- the part of the last `PART_BEGIN`, if no `PART_END` came after it -/
  owner : Option Nat
  replies : List Response

/-- A server without any upload so far. -/
def Server.start (u : Updater) : Server where
  updater := u
  calls := []
  offset := fun _ => 0
  phase := fun _ => .idle
  owner := none
  replies := []

inductive UploadEvent where
  /-- with what `ipc_inst_start_ext` returns -/
  | begin (p : Nat) (handle : Int)
  /-- with the length of the chunk, what `num_data_consumed` is before the call, and what `write`
  returns -/
  | data (p size preset : Nat) (ret : Int)
  | finish (p : Nat)

namespace Server

section Step

variable (content name : Nat → Bytes) (s : Server)

def chunk (p size : Nat) : Bytes := ((content p).drop (s.offset p)).take size

/-- The part as the handler is given it. -/
def multipart (p : Nat) (data : Bytes) (preset : Nat) : MultipartPart where
  fileName := name p
  data := data
  numDataConsumed := preset
  userData := s.phase p = .receiving

def step : UploadEvent → Run Server
  | .begin p handle => do
    let o ← updateHandler s.updater (s.multipart name p [] 0) (.partBegin handle)
    .ok { s with
      updater := o.updater
      calls := s.calls ++ o.calls.map (p, ·)
      phase := Function.update s.phase p .receiving
      owner := some p
      replies := s.replies ++ o.replies }
  | .data p size preset ret => do
    let o ← updateHandler s.updater (s.multipart name p (s.chunk content p size) preset)
      (.partData ret)
    .ok { s with
      updater := o.updater
      calls := s.calls ++ o.calls.map (p, ·)
      offset := Function.update s.offset p (s.offset p + o.part.numDataConsumed)
      replies := s.replies ++ o.replies }
  | .finish p => do
    let o ← updateHandler s.updater (s.multipart name p [] 0) .partEnd
    .ok { s with
      updater := o.updater
      calls := s.calls ++ o.calls.map (p, ·)
      phase := Function.update s.phase p .done
      owner := none
      replies := s.replies ++ o.replies }

/-- The events of a part come in order, a new session has a positive handle, and `write` returns -1
or the number of leading bytes it took. -/
def Legal : UploadEvent → Prop
  | .begin p handle => s.phase p = .idle ∧ 0 < handle
  | .data p size _ ret =>
    s.phase p = .receiving ∧
      (ret = -1 ∨ 0 ≤ ret ∧ ret ≤ ((s.chunk content p size).length % 2 ^ 32 : Nat))
  | .finish p => s.phase p = .receiving

/-- A step on a legal event. -/
def Next (e : UploadEvent) (s' : Server) : Prop :=
  s.Legal content e ∧ s.step content name e = .ok s'

end Step

/-- A new session has a handle that no earlier one had. -/
def Fresh (s : Server) : UploadEvent → Prop
  | .begin _ handle => ∀ q info, (q, .start handle info) ∉ s.calls
  | .data _ _ _ _ | .finish _ => True

end Server

/-- The bytes that the calls wrote on a session: of each `write` the leading bytes it took. -/
def written (handle : Int) (calls : List (Nat × IpcOp)) : Bytes :=
  calls.flatMap fun call =>
    match call.2 with
    | .write h data ret => if h = handle then data.take ret.toNat else []
    | .start _ _ | .stop _ => []

end AtxSys
