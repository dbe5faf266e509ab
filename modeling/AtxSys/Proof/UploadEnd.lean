import AtxSys.Proof.Upload

/-!
# The reply of `PART_END`

What a client is told at the end of its upload, against what reached the session. The status of the
updater stays what `updater_init` made it, so the reply is 200 whatever `write` returned.
-/

namespace AtxSys

open CText Slices Trace

/-- The server with how much of a part was delivered to it, and the sum of what `write` returned. -/
structure Delivery where
  server : Server
  delivered : Nat
  taken : Nat

namespace Delivery

section Step

variable (content name : Nat → Bytes) (p : Nat)

/-- An event of the part `p`, where the `int` that holds the result of `write` is exact. -/
def Only (s : Server) : UploadEvent → Prop
  | .data q size _ ret =>
    q = p ∧ ret < 2 ^ 31 ∧
      ¬ (ret = -1 ∧ (s.chunk content p size).length % 2 ^ 32 = 2 ^ 32 - 1)
  | .begin q _ | .finish q => q = p

/-- A `PART_DATA` delivers its chunk up to the end of it. -/
def deliver (d : Delivery) : UploadEvent → Nat
  | .data _ size _ _ => max d.delivered (d.server.offset p + (d.server.chunk content p size).length)
  | .begin _ _ | .finish _ => d.delivered

def take (d : Delivery) : UploadEvent → Nat
  | .data _ _ _ ret => d.taken + ret.toNat
  | .begin _ _ | .finish _ => d.taken

def Step (d : Delivery) (e : UploadEvent) (d' : Delivery) : Prop :=
  d.server.Next content name e d'.server ∧ Only content p d.server e ∧
    d'.delivered = d.deliver content p e ∧ d'.taken = d.take e

/-- 200 only when all that was delivered is in the session, and 500 when it is not. -/
def Told (handle : Int) (d : Delivery) (reply : Response) : Prop :=
  (reply.code = 200 → written handle d.server.calls = (content p).take d.delivered) ∧
    (written handle d.server.calls ≠ (content p).take d.delivered → reply.code = 500)

/-- What was taken, what was consumed and what was written are the same. -/
structure Accounts (handle : Int) (d : Delivery) : Prop where
  session : written handle d.server.calls = (content p).take d.taken
  offset : d.server.offset p = d.taken
  within : d.taken ≤ d.delivered
  delivered : d.delivered ≤ (content p).length
  begun : d.server.phase p ≠ .idle
  live : d.server.phase p = .receiving →
    d.server.updater.ipc = handle ∧ d.server.updater.status = .ok

end Step

variable {content name : Nat → Bytes} {p : Nat} {handle : Int} {u : Updater} {d d' : Delivery}

theorem start_accounts {s : Server}
    (h : (Server.start u).Next content name (.begin p handle) s) :
    Accounts content p handle ⟨s, 0, 0⟩ := by
  have hacc := Server.start_accounts h
  have hs := next_begin h
  have hoffset : s.offset p = 0 := by rw [hs]; rfl
  refine ⟨?_, hoffset, Nat.le_refl 0, Nat.zero_le _, hacc.begun, fun hreceiving => ?_⟩
  · rw [hacc.session, hoffset]
  · obtain ⟨hipc, hstatus, -⟩ := hacc.live hreceiving
    exact ⟨hipc, hstatus⟩

theorem Accounts.data {size preset : Nat} {ret : Int} (hacc : Accounts content p handle d)
    (hpos : 0 < handle) (h : Step content name p d (.data p size preset ret) d') :
    Accounts content p handle d' := by
  obtain ⟨hnext, ⟨-, hsmall, hwrap⟩, hdelivered, htaken⟩ := h
  obtain ⟨hreceiving, hret⟩ := hnext.1
  obtain ⟨hipc, hstatus⟩ := hacc.live hreceiving
  have hs := next_data_active (by omega) hstatus hsmall hwrap hnext
  have hk : ret.toNat ≤ (d.server.chunk content p size).length % 2 ^ 32 := by omega
  have hk' := Nat.le_trans hk (Nat.mod_le _ _)
  have hpiece : ((d.server.chunk content p size).take
      ((d.server.chunk content p size).length % 2 ^ 32)).take ret.toNat =
      (d.server.chunk content p size).take ret.toNat := by
    rw [List.take_take, Nat.min_eq_left hk]
  have hlen : (d.server.chunk content p size).length ≤ (content p).length - d.server.offset p := by
    rw [Server.chunk, List.length_take, List.length_drop]
    exact Nat.min_le_right _ _
  have hoffset := hacc.offset
  have hwithin := hacc.within
  have hend := hacc.delivered
  simp only [deliver] at hdelivered
  simp only [take] at htaken
  refine ⟨?_, ?_, by omega, by omega, ?_, fun _ => ?_⟩
  · rw [hs]
    change written handle (d.server.calls ++ _) = _
    rw [written_append, hipc, written_write, hpiece, hacc.session, htaken, ← hoffset]
    exact take_offset_append hk'
  · rw [hs, htaken, ← hoffset]
    exact Function.update_self ..
  · rw [hs]
    exact hacc.begun
  · rw [hs]
    exact ⟨hipc, hstatus⟩

theorem Accounts.next {e : UploadEvent} (hacc : Accounts content p handle d) (hpos : 0 < handle)
    (h : Step content name p d e d') : Accounts content p handle d' := by
  cases e with
  | begin q handle' =>
      obtain rfl : q = p := h.2.1
      exact absurd h.1.1.1 hacc.begun
  | data q size preset ret =>
      obtain rfl : q = p := h.2.1.1
      exact hacc.data hpos h
  | finish q =>
      obtain ⟨hnext, rfl, hdelivered, htaken⟩ := h
      obtain ⟨reply, -, hs⟩ := next_finish hnext
      have hphase : d'.server.phase q = .done := by
        rw [hs]
        exact Function.update_self ..
      simp only [deliver] at hdelivered
      simp only [take] at htaken
      refine ⟨?_, ?_, ?_, ?_, by simp [hphase], by simp [hphase]⟩
      · rw [hs, written_append, written_ipcEnd, List.append_nil, htaken]
        exact hacc.session
      · rw [hs, htaken]
        exact hacc.offset
      · rw [htaken, hdelivered]
        exact hacc.within
      · rw [hdelivered]
        exact hacc.delivered

theorem run_accounts {s₀ : Server} {es : List UploadEvent}
    (hbegin : (Server.start u).Next content name (.begin p handle) s₀)
    (hrun : Steps (Step content name p) ⟨s₀, 0, 0⟩ es d) : Accounts content p handle d :=
  hrun.invariant (fun _ _ _ hacc hstep => hacc.next hbegin.1.2 hstep) (start_accounts hbegin)

theorem Accounts.written_iff (hacc : Accounts content p handle d) :
    written handle d.server.calls = (content p).take d.delivered ↔ d.taken = d.delivered := by
  rw [hacc.session]
  constructor
  · intro heq
    have hlen := congrArg List.length heq
    have hwithin := hacc.within
    have hdelivered := hacc.delivered
    rw [List.length_take, List.length_take] at hlen
    omega
  · intro heq
    rw [heq]

/-- The reply is 200, whatever was written. -/
theorem Accounts.finish (hacc : Accounts content p handle d)
    (hend : Step content name p d (.finish p) d') :
    ∃ reply, d'.server.replies = d.server.replies ++ [reply] ∧ reply.code = 200 := by
  obtain ⟨reply, hreply, hs⟩ := next_finish hend.1
  obtain ⟨-, hstatus⟩ := hacc.live hend.1.1
  have hok : (partEndReply d.server.updater (name p)).1 = 200 := by
    simp [partEndReply, hstatus]
  obtain ⟨text, -, hbody⟩ := run_bind_eq_ok hreply
  refine ⟨reply, by rw [hs], ?_⟩
  rw [← Except.ok.inj hbody]
  exact hok

/-- **The end of an upload.** The reply of `PART_END` is right if and only if the results of `write`
add up to all that was delivered. -/
theorem upload_end_iff {s₀ : Server} {es : List UploadEvent}
    (hbegin : (Server.start u).Next content name (.begin p handle) s₀)
    (hrun : Steps (Step content name p) ⟨s₀, 0, 0⟩ es d)
    (hend : Step content name p d (.finish p) d') :
    ∃ reply, d'.server.replies = d.server.replies ++ [reply] ∧
      (Told content p handle d reply ↔ d.taken = d.delivered) := by
  have hacc := run_accounts hbegin hrun
  obtain ⟨reply, hreplies, hcode⟩ := hacc.finish hend
  refine ⟨reply, hreplies, ?_⟩
  rw [← hacc.written_iff]
  constructor
  · intro htold
    exact htold.1 hcode
  · intro heq
    exact ⟨fun _ => heq, fun hne => absurd heq hne⟩

section Concrete

/-- A part of two bytes, sent in one chunk for which `write` returns `ret`. -/
theorem two_bytes_run (ret : Int) (hret : ret = -1 ∨ 0 ≤ ret ∧ ret ≤ 2) :
    ∃ (s₀ : Server) (d d' : Delivery),
      (Server.start .clear).Next (fun _ => bytes "ab") (fun _ => bytes "image.swu") (.begin 0 5)
        s₀ ∧
      Steps (Step (fun _ => bytes "ab") (fun _ => bytes "image.swu") 0) ⟨s₀, 0, 0⟩
        [.data 0 2 2 ret] d ∧
      Step (fun _ => bytes "ab") (fun _ => bytes "image.swu") 0 d (.finish 0) d' ∧
      d.delivered = 2 ∧ d.taken = ret.toNat := by
  let content : Nat → Bytes := fun _ => bytes "ab"
  let name : Nat → Bytes := fun _ => bytes "image.swu"
  let next (s : Server) (e : UploadEvent) : Server := ((s.step content name e).toOption).getD s
  let s₀ := next (Server.start .clear) (.begin 0 5)
  let s₁ := next s₀ (.data 0 2 2 ret)
  have hbegin : (Server.start .clear).Next content name (.begin 0 5) s₀ := ⟨⟨rfl, by decide⟩, rfl⟩
  have hdata : Step content name 0 ⟨s₀, 0, 0⟩ (.data 0 2 2 ret) ⟨s₁, 2, 0 + ret.toNat⟩ :=
    ⟨⟨⟨rfl, hret⟩, rfl⟩, ⟨rfl, by omega, fun h => absurd h.2 (by decide)⟩, rfl, rfl⟩
  obtain ⟨s₂, hs₂⟩ : ∃ s₂, s₁.Next content name (.finish 0) s₂ := finish_next rfl
  exact ⟨s₀, _, ⟨s₂, 2, 0 + ret.toNat⟩, hbegin, Steps.single hdata, ⟨hs₂, rfl, rfl, rfl⟩, rfl,
    Nat.zero_add _⟩

theorem upload_end_iff_two_bytes :
    ∃ (d : Delivery) (reply : Response), Told (fun _ => bytes "ab") 0 5 d reply := by
  obtain ⟨s₀, d, d', hbegin, hrun, hend, hdelivered, htaken⟩ := two_bytes_run 2 (by omega)
  obtain ⟨reply, -, htold⟩ := upload_end_iff hbegin hrun hend
  exact ⟨d, reply, htold.mpr (by rw [hdelivered, htaken]; rfl)⟩

/-- `write` fails, the connection is closed, and the reply is 200. -/
theorem upload_end_unwritten :
    ∃ (content name : Nat → Bytes) (s₀ : Server) (es : List UploadEvent) (d d' : Delivery)
      (reply : Response),
      (Server.start .clear).Next content name (.begin 0 5) s₀ ∧
        Steps (Step content name 0) ⟨s₀, 0, 0⟩ es d ∧ Step content name 0 d (.finish 0) d' ∧
        d'.server.replies = d.server.replies ++ [reply] ∧ ¬ Told content 0 5 d reply := by
  obtain ⟨s₀, d, d', hbegin, hrun, hend, hdelivered, htaken⟩ := two_bytes_run (-1) (by omega)
  have hacc := run_accounts hbegin hrun
  obtain ⟨reply, hreplies, hcode⟩ := hacc.finish hend
  refine ⟨_, _, s₀, _, d, d', reply, hbegin, hrun, hend, hreplies, fun htold => ?_⟩
  have heq := hacc.written_iff.mp (htold.1 hcode)
  rw [hdelivered, htaken] at heq
  cases heq

end Concrete

end Delivery

end AtxSys
