import AtxSys.Lib.Slices
import AtxSys.Upload
import Mathlib.Data.List.Basic
import Mathlib.Tactic.Common

/-!
# What reaches the sessions

One updater serves all parts, and `PART_DATA` writes to whatever session is open. As long as no
other part began in between, a session takes in a part without loss or duplication, whatever
`write` returns; `Server.upload_mixes` has two parts that meet.
-/

namespace AtxSys

open CText Slices Trace

/-! ### One write -/

theorem toInt_eq {n : Int} (hlow : -2 ^ 31 ≤ n) (hhigh : n < 2 ^ 31) : toInt n = n := by
  exact Int.bmod_eq_of_le (by omega) (by omega)

theorem uint32_ofInt {n : Int} (hlow : 0 ≤ n) (hhigh : n < 2 ^ 31) :
    UInt32.ofInt n = UInt32.ofNat n.toNat := by
  have hmod : n % 2 ^ 32 = n := Int.emod_eq_of_lt hlow (by omega)
  rw [UInt32.ofInt, hmod]

theorem updaterWrite_eq (u : Updater) {data : Bytes} {ret : Int} (hret : ret = -1 ∨ 0 ≤ ret)
    (hsmall : ret < 2 ^ 31) (hwrap : ¬ (ret = -1 ∧ data.length % 2 ^ 32 = 2 ^ 32 - 1)) :
    updaterWrite u data ret =
      ({ u with len := u.len + UInt32.ofNat ret.toNat },
        [IpcOp.write u.ipc (data.take (data.length % 2 ^ 32)) ret], (ret.toNat : Int)) := by
  have hint : toInt ret = ret := toInt_eq (by omega) hsmall
  have hlen : (UInt32.ofNat data.length).toNat = data.length % 2 ^ 32 := UInt32.toNat_ofNat' ..
  rcases hret with rfl | hpos
  · have hne : UInt32.ofInt (-1) ≠ UInt32.ofNat data.length := by
      intro heq
      have htoNat := congrArg UInt32.toNat heq
      rw [hlen] at htoNat
      exact hwrap ⟨rfl, htoNat.symm⟩
    simp only [updaterWrite, hint, hlen]
    rw [if_pos ⟨hne, by decide⟩]
    rfl
  · have hnot : ¬ (UInt32.ofInt ret ≠ UInt32.ofNat data.length ∧ ret < 0) := by
      intro h
      omega
    simp only [updaterWrite, hint, hlen]
    rw [if_neg hnot, uint32_ofInt hpos hsmall, Int.toNat_of_nonneg hpos]

/-! ### Steps of the server -/

section Steps

variable {content name : Nat → Bytes} {s s' : Server} {p : Nat}

theorem next_begin {handle : Int} (h : s.Next content name (.begin p handle) s') :
    s' = { s with
      updater := { Updater.clear with ipc := handle }
      calls := s.calls ++ (ipcEnd s.updater ++ [IpcOp.start handle (cstr (name p))]).map (p, ·)
      phase := Function.update s.phase p .receiving
      owner := some p } := by
  obtain ⟨⟨_, hpos⟩, hstep⟩ := h
  have hexit : ¬ handle < 0 := by omega
  simp only [Server.step, updateHandler, updaterInit, if_neg hexit, run_bind_ok,
    Server.multipart, List.append_nil, Except.ok.injEq] at hstep
  exact hstep.symm

theorem partEndFormat_renders (message fileName : Bytes) (len : Int) (code : Nat) :
    ∃ reply, httpPrintfJson code partEndFormat [.str message, .int len, .str fileName] =
      .ok reply := by
  have hcstr : cstr partEndFormat = partEndFormat := cstr_eq_self (by decide)
  have htext : ∃ text, vformat partEndFormat [.str message, .int len, .str fileName] =
      some text := by
    rw [partEndFormat, vformat_append (by decide), vformat_str, vformat_append (by decide),
      vformat_int, vformat_append (by decide), vformat_str, vformat_text (by decide)]
    exact ⟨_, rfl⟩
  obtain ⟨text, htext⟩ := htext
  rw [httpPrintfJson, hcstr, formatText_eq_ok htext]
  exact ⟨_, rfl⟩

theorem next_finish (h : s.Next content name (.finish p) s') :
    ∃ reply, httpPrintfJson (partEndReply s.updater (name p)).1 partEndFormat
        (partEndReply s.updater (name p)).2 = .ok reply ∧
      s' = { s with
        updater := .clear
        calls := s.calls ++ (ipcEnd s.updater).map (p, ·)
        phase := Function.update s.phase p .done
        owner := none
        replies := s.replies ++ [reply] } := by
  obtain ⟨_, hstep⟩ := h
  obtain ⟨o, ho, hstep⟩ := run_bind_eq_ok hstep
  obtain ⟨reply, hreply, hfree⟩ := run_bind_eq_ok ho
  obtain rfl := Except.ok.inj hfree
  exact ⟨reply, hreply, (Except.ok.inj hstep).symm⟩

/-- The reply of `PART_END` can always be rendered. -/
theorem finish_next (hreceiving : s.phase p = .receiving) :
    ∃ s', s.Next content name (.finish p) s' := by
  obtain ⟨reply, hreply⟩ : ∃ reply, httpPrintfJson (partEndReply s.updater (name p)).1
      partEndFormat (partEndReply s.updater (name p)).2 = .ok reply :=
    partEndFormat_renders _ _ _ _
  have hhandler : updateHandler s.updater (s.multipart name p [] 0) .partEnd = .ok
      { updater := .clear, part := { s.multipart name p [] 0 with userData := false }
        calls := ipcEnd s.updater, replies := [reply] } := by
    change httpPrintfJson (partEndReply s.updater (name p)).1 partEndFormat
      (partEndReply s.updater (name p)).2 >>= _ = _
    rw [hreply]
    rfl
  have hstep : ∃ s', s.step content name (.finish p) = .ok s' := by
    rw [Server.step, hhandler]
    exact ⟨_, rfl⟩
  obtain ⟨s', hs'⟩ := hstep
  exact ⟨s', hreceiving, hs'⟩

/-- Where no session is open, a chunk is left to mongoose. -/
theorem next_data_inactive {size preset : Nat} {ret : Int} (hinactive : s.updater.ipc = 0)
    (h : s.Next content name (.data p size preset ret) s') :
    s' = { s with offset := Function.update s.offset p (s.offset p + preset) } := by
  obtain ⟨_, hstep⟩ := h
  have hnot : ¬ updaterActive s.updater ∨ s.updater.status ≠ .ok := by
    left
    simp [updaterActive, hinactive]
  simp only [Server.step, updateHandler, if_pos hnot, run_bind_ok, Server.multipart, List.map_nil,
    List.append_nil, Except.ok.injEq] at hstep
  exact hstep.symm

/-- A write that takes `k` bytes of the chunk. -/
theorem next_data_active {size preset : Nat} {ret : Int} (hactive : s.updater.ipc ≠ 0)
    (hstatus : s.updater.status = .ok) (hsmall : ret < 2 ^ 31)
    (hwrap : ¬ (ret = -1 ∧ (s.chunk content p size).length % 2 ^ 32 = 2 ^ 32 - 1))
    (h : s.Next content name (.data p size preset ret) s') :
    s' = { s with
      updater := { s.updater with len := s.updater.len + UInt32.ofNat ret.toNat }
      calls := s.calls ++ [(p, .write s.updater.ipc
        ((s.chunk content p size).take ((s.chunk content p size).length % 2 ^ 32)) ret)]
      offset := Function.update s.offset p (s.offset p + ret.toNat) } := by
  obtain ⟨⟨_, hret⟩, hstep⟩ := h
  have hnot : ¬ (¬ updaterActive s.updater ∨ s.updater.status ≠ .ok) := by
    simp [updaterActive, hactive, hstatus]
  have hwrite := updaterWrite_eq s.updater (hret.imp id And.left) hsmall hwrap
  have hsize : ((ret.toNat : Int) % 2 ^ 64).toNat = ret.toNat := by omega
  simp only [Server.step, updateHandler, if_neg hnot, Server.multipart, hwrite, run_bind_ok, hsize,
    List.map_cons, List.map_nil, List.append_nil, Except.ok.injEq] at hstep
  exact hstep.symm

end Steps

/-! ### What was written -/

section Written

variable {content : Nat → Bytes} {s : Server} {p : Nat} {handle : Int}

theorem written_append (calls more : List (Nat × IpcOp)) :
    written handle (calls ++ more) = written handle calls ++ written handle more :=
  List.flatMap_append

@[simp]
theorem written_ipcEnd (u : Updater) (p : Nat) :
    written handle ((ipcEnd u).map (p, ·)) = [] := by
  unfold ipcEnd
  split <;> rfl

theorem written_write (p : Nat) (data : Bytes) (ret : Int) :
    written handle [(p, .write handle data ret)] = data.take ret.toNat := by
  simp [written]

theorem written_eq_nil {calls : List (Nat × IpcOp)}
    (h : ∀ q data ret, (q, .write handle data ret) ∉ calls) : written handle calls = [] := by
  rw [written, List.flatMap_eq_nil_iff]
  rintro ⟨q, op⟩ hmem
  cases op with
  | start | stop => rfl
  | write h' data ret =>
      by_cases heq : h' = handle
      · subst heq
        exact absurd hmem (h q data ret)
      · simp [heq]

end Written

/-! ### A single upload -/

namespace Server

/-- An event of the part `p`, with a chunk shorter than 2^31 bytes. -/
def Single (content : Nat → Bytes) (p : Nat) (s : Server) : UploadEvent → Prop
  | .data q size _ _ => q = p ∧ (s.chunk content p size).length < 2 ^ 31
  | .begin q _ | .finish q => q = p

def SingleStep (content name : Nat → Bytes) (p : Nat) (s : Server) (e : UploadEvent)
    (s' : Server) : Prop :=
  s.Next content name e s' ∧ s.Single content p e

/-- What was consumed, what was counted and what was written are the same. -/
structure Accounts (content : Nat → Bytes) (p : Nat) (handle : Int) (s : Server) : Prop where
  session : written handle s.calls = (content p).take (s.offset p)
  offset : s.offset p ≤ (content p).length
  begun : s.phase p ≠ .idle
  live : s.phase p = .receiving → s.updater.ipc = handle ∧ s.updater.status = .ok ∧
    s.updater.len.toNat = s.offset p % 2 ^ 32

section Single

variable {content name : Nat → Bytes} {s s' : Server} {p : Nat} {handle : Int} {u : Updater}

theorem start_accounts (h : (start u).Next content name (.begin p handle) s) :
    s.Accounts content p handle := by
  have hs := next_begin h
  subst hs
  refine ⟨?_, Nat.zero_le _, by simp, fun _ => ⟨rfl, rfl, rfl⟩⟩
  rw [List.map_append, written_append, written_append, written_ipcEnd]
  rfl

theorem Accounts.next {e : UploadEvent} (hacc : s.Accounts content p handle)
    (hsingle : s.Single content p e) (h : s.Next content name e s') (hpos : 0 < handle) :
    s'.Accounts content p handle := by
  cases e with
  | begin q handle' =>
      obtain rfl : q = p := hsingle
      exact absurd h.1.1 hacc.begun
  | data q size preset ret =>
      obtain ⟨rfl, hsize⟩ := hsingle
      obtain ⟨hreceiving, hret⟩ := h.1
      obtain ⟨hipc, hstatus, hlen⟩ := hacc.live hreceiving
      have hmod : (s.chunk content q size).length % 2 ^ 32 = (s.chunk content q size).length :=
        Nat.mod_eq_of_lt (by omega)
      rw [hmod] at hret
      have htaken : ret.toNat ≤ (s.chunk content q size).length := by omega
      have hs := next_data_active (by omega) hstatus (by omega) (by omega) h
      have hoffset : s'.offset q = s.offset q + ret.toNat := by
        rw [hs]
        exact Function.update_self ..
      have hupdater : s'.updater =
          { s.updater with len := s.updater.len + UInt32.ofNat ret.toNat } := by
        rw [hs]
      have hphase : s'.phase = s.phase := by
        rw [hs]
      refine ⟨?_, ?_, by rw [hphase]; exact hacc.begun, fun _ => ?_⟩
      · have hcalls : s'.calls =
            s.calls ++ [(q, .write handle (s.chunk content q size) ret)] := by
          rw [hs, hipc, hmod, List.take_length]
        rw [hcalls, written_append, written_write, hacc.session, hoffset]
        exact take_offset_append htaken
      · rw [hoffset]
        have hrest : (s.chunk content q size).length ≤ (content q).length - s.offset q := by
          rw [chunk, List.length_take, List.length_drop]
          exact Nat.min_le_right _ _
        have hle := hacc.offset
        omega
      · rw [hupdater, hoffset]
        refine ⟨hipc, hstatus, ?_⟩
        rw [UInt32.toNat_add, UInt32.toNat_ofNat', hlen]
        omega
  | finish q =>
      obtain rfl : q = p := hsingle
      obtain ⟨reply, -, hs⟩ := next_finish h
      have hphase : s'.phase q = .done := by
        rw [hs]
        exact Function.update_self ..
      refine ⟨?_, by rw [hs]; exact hacc.offset, by simp [hphase], by simp [hphase]⟩
      rw [hs, written_append, written_ipcEnd, List.append_nil]
      exact hacc.session

/-- **A single upload.** After each event the session has taken in the part as far as it was
consumed, and until `PART_END` the updater has counted it; the reply of `PART_END` is given that
count. -/
theorem upload_accounts {s₀ : Server} {es : List UploadEvent}
    (hbegin : (start u).Next content name (.begin p handle) s₀)
    (hrun : Steps (SingleStep content name p) s₀ es s) :
    written handle s.calls = (content p).take (s.offset p) ∧
      s.offset p ≤ (content p).length ∧
      (s.phase p = .receiving →
        s.updater.ipc = handle ∧ s.updater.len.toNat = s.offset p % 2 ^ 32 ∧
        ∃ s' reply, s.Next content name (.finish p) s' ∧ s'.replies = s.replies ++ [reply] ∧
          httpPrintfJson 200 partEndFormat
            [.str (bytes "ok"), .int (toInt s.updater.len.toNat), .str (name p)] = .ok reply) := by
  have hpos : 0 < handle := hbegin.1.2
  have hacc : s.Accounts content p handle :=
    hrun.invariant (fun s e s' hacc hstep => hacc.next hstep.2 hstep.1 hpos)
      (start_accounts hbegin)
  refine ⟨hacc.session, hacc.offset, fun hreceiving => ?_⟩
  obtain ⟨hipc, hstatus, hlen⟩ := hacc.live hreceiving
  obtain ⟨s', hs'⟩ := finish_next hreceiving
  obtain ⟨reply, hreply, hs⟩ := next_finish hs'
  have hcode : partEndReply s.updater (name p) =
      (200, [.str (bytes "ok"), .int (toInt s.updater.len.toNat), .str (name p)]) := by
    simp [partEndReply, hstatus, httpErrorMessage, httpErrorCode]
  rw [hcode] at hreply
  exact ⟨hipc, hlen, s', reply, hs', by rw [hs], hreply⟩

theorem upload_accounts_retry :
    ∃ s : Server, s.offset 0 = 3 ∧ written 5 s.calls = (bytes "abc").take (s.offset 0) := by
  let content : Nat → Bytes := fun _ => bytes "abc"
  let name : Nat → Bytes := fun _ => bytes "image.swu"
  let next (s : Server) (e : UploadEvent) : Server := ((s.step content name e).toOption).getD s
  let s₀ := next (start .clear) (.begin 0 5)
  have hbegin : (start .clear).Next content name (.begin 0 5) s₀ := ⟨⟨rfl, by decide⟩, rfl⟩
  -- one byte of two, a failure, and what is left
  let s₁ := next s₀ (.data 0 2 2 1)
  let s₂ := next s₁ (.data 0 2 2 (-1))
  let s₃ := next s₂ (.data 0 2 2 2)
  have hfirst : SingleStep content name 0 s₀ (.data 0 2 2 1) s₁ :=
    ⟨⟨⟨rfl, .inr (by decide)⟩, rfl⟩, ⟨rfl, by decide⟩⟩
  have hsecond : SingleStep content name 0 s₁ (.data 0 2 2 (-1)) s₂ :=
    ⟨⟨⟨rfl, .inl rfl⟩, rfl⟩, ⟨rfl, by decide⟩⟩
  have hthird : SingleStep content name 0 s₂ (.data 0 2 2 2) s₃ :=
    ⟨⟨⟨rfl, .inr (by decide)⟩, rfl⟩, ⟨rfl, by decide⟩⟩
  have hrun := ((Steps.single hfirst).snoc hsecond).snoc hthird
  exact ⟨s₃, rfl, (upload_accounts hbegin hrun).1⟩

end Single

/-! ### Several uploads -/

/-- Bytes reach a session only from the part whose `PART_BEGIN` opened it, in order. -/
structure Clean (content : Nat → Bytes) (s : Server) : Prop where
  opened : ∀ q h data ret, (q, .write h data ret) ∈ s.calls → data ≠ [] →
    ∃ info, (q, .start h info) ∈ s.calls
  ordered : ∀ p h info, (p, .start h info) ∈ s.calls → written h s.calls <+: content p

/-- No bytes of the part arrive after the `PART_BEGIN` of another one, unless a `PART_END` came in
between; and the `int` that holds the result of `write` is exact. -/
def Alone (content : Nat → Bytes) (s : Server) : UploadEvent → Prop
  | .data p size _ ret =>
    (s.chunk content p size ≠ [] → s.owner = none ∨ s.owner = some p) ∧ ret < 2 ^ 31 ∧
      ¬ (ret = -1 ∧ (s.chunk content p size).length % 2 ^ 32 = 2 ^ 32 - 1)
  | .begin _ _ | .finish _ => True

def FreshStep (content name : Nat → Bytes) (s : Server) (e : UploadEvent) (s' : Server) : Prop :=
  s.Next content name e s' ∧ s.Fresh e

def AloneStep (content name : Nat → Bytes) (s : Server) (e : UploadEvent) (s' : Server) : Prop :=
  FreshStep content name s e s' ∧ s.Alone content e

/-- The calls on the sessions: every write is on a session that was opened, by one part only. -/
structure Sessions (content : Nat → Bytes) (calls : List (Nat × IpcOp)) : Prop where
  opened : ∀ q h data ret, (q, .write h data ret) ∈ calls → data ≠ [] →
    ∃ info, (q, .start h info) ∈ calls
  ordered : ∀ p h info, (p, .start h info) ∈ calls → written h calls <+: content p
  known : ∀ q h data ret, (q, .write h data ret) ∈ calls → ∃ p info, (p, .start h info) ∈ calls
  unique : ∀ p q h info info', (p, .start h info) ∈ calls → (q, .start h info') ∈ calls → p = q

section Sessions

variable {content : Nat → Bytes} {calls : List (Nat × IpcOp)} {p q : Nat} {handle : Int}

theorem mem_snoc {call last : Nat × IpcOp} :
    call ∈ calls ++ [last] ↔ call ∈ calls ∨ call = last := by
  simp

theorem Sessions.stop (h : Sessions content calls) :
    Sessions content (calls ++ [(p, .stop handle)]) := by
  have hwritten : ∀ h', written h' (calls ++ [(p, .stop handle)]) = written h' calls := by
    intro h'
    rw [written_append]
    exact List.append_nil _
  refine ⟨?_, ?_, ?_, ?_⟩
  · intro r h' data ret hmem hdata
    simp only [mem_snoc, Prod.mk.injEq, reduceCtorEq, and_false, or_false] at hmem ⊢
    exact h.opened r h' data ret hmem hdata
  · intro r h' info hmem
    simp only [mem_snoc, Prod.mk.injEq, reduceCtorEq, and_false, or_false] at hmem
    rw [hwritten]
    exact h.ordered r h' info hmem
  · intro r h' data ret hmem
    simp only [mem_snoc, Prod.mk.injEq, reduceCtorEq, and_false, or_false] at hmem ⊢
    exact h.known r h' data ret hmem
  · intro r r' h' info info' hr hr'
    simp only [mem_snoc, Prod.mk.injEq, reduceCtorEq, and_false, or_false] at hr hr'
    exact h.unique r r' h' info info' hr hr'

theorem Sessions.endOps (h : Sessions content calls) (u : Updater) :
    Sessions content (calls ++ (ipcEnd u).map (p, ·)) := by
  unfold ipcEnd
  split
  · exact h.stop
  · simpa using h

theorem Sessions.written_fresh (h : Sessions content calls)
    (hfresh : ∀ q info, (q, .start handle info) ∉ calls) : written handle calls = [] := by
  apply written_eq_nil
  intro q data ret hmem
  obtain ⟨r, info, hstart⟩ := h.known q handle data ret hmem
  exact hfresh r info hstart

theorem Sessions.start {info : Bytes} (h : Sessions content calls)
    (hfresh : ∀ q info, (q, .start handle info) ∉ calls) :
    Sessions content (calls ++ [(p, .start handle info)]) := by
  have hwritten : ∀ h', written h' (calls ++ [(p, .start handle info)]) = written h' calls := by
    intro h'
    rw [written_append]
    exact List.append_nil _
  refine ⟨?_, ?_, ?_, ?_⟩
  · intro r h' data ret hmem hdata
    simp only [mem_snoc, Prod.mk.injEq, reduceCtorEq, and_false, or_false] at hmem
    obtain ⟨info', hstart⟩ := h.opened r h' data ret hmem hdata
    exact ⟨info', List.mem_append_left _ hstart⟩
  · intro r h' info' hmem
    rw [hwritten]
    rcases mem_snoc.mp hmem with hmem | heq
    · exact h.ordered r h' info' hmem
    · obtain ⟨rfl, hop⟩ := Prod.mk.inj heq
      rw [(IpcOp.start.inj hop).1, h.written_fresh hfresh]
      exact List.nil_prefix
  · intro r h' data ret hmem
    simp only [mem_snoc, Prod.mk.injEq, reduceCtorEq, and_false, or_false] at hmem
    obtain ⟨r', info', hstart⟩ := h.known r h' data ret hmem
    exact ⟨r', info', List.mem_append_left _ hstart⟩
  · intro r r' h' i i' hr hr'
    simp only [mem_snoc, Prod.mk.injEq, IpcOp.start.injEq] at hr hr'
    rcases hr with hr | ⟨rfl, rfl, -⟩
    · rcases hr' with hr' | ⟨-, rfl, -⟩
      · exact h.unique r r' h' i i' hr hr'
      · exact absurd hr (hfresh r i)
    · rcases hr' with hr' | ⟨rfl, -, -⟩
      · exact absurd hr' (hfresh r' i')
      · rfl

/-- A write on the session of `q`, by `q` itself unless it is empty, that continues its content. -/
theorem Sessions.write {info data : Bytes} {ret : Int} (h : Sessions content calls)
    (hstart : (q, .start handle info) ∈ calls) (hown : data ≠ [] → p = q)
    (hnext : written handle calls ++ data.take ret.toNat <+: content q) :
    Sessions content (calls ++ [(p, .write handle data ret)]) := by
  have hwritten : written handle (calls ++ [(p, .write handle data ret)]) =
      written handle calls ++ data.take ret.toNat := by
    rw [written_append, written_write]
  have hother : ∀ h', h' ≠ handle →
      written h' (calls ++ [(p, .write handle data ret)]) = written h' calls := by
    intro h' hne
    rw [written_append]
    simp [written, Ne.symm hne]
  refine ⟨?_, ?_, ?_, ?_⟩
  · intro r h' data' ret' hmem hdata
    rcases mem_snoc.mp hmem with hmem | heq
    · obtain ⟨info', hmem⟩ := h.opened r h' data' ret' hmem hdata
      exact ⟨info', List.mem_append_left _ hmem⟩
    · obtain ⟨rfl, hop⟩ := Prod.mk.inj heq
      obtain ⟨rfl, rfl, -⟩ := IpcOp.write.inj hop
      rw [hown hdata]
      exact ⟨info, List.mem_append_left _ hstart⟩
  · intro r h' info' hmem
    simp only [mem_snoc, Prod.mk.injEq, reduceCtorEq, and_false, or_false] at hmem
    by_cases hh : h' = handle
    · subst hh
      rw [h.unique r q h' info' info hmem hstart, hwritten]
      exact hnext
    · rw [hother h' hh]
      exact h.ordered r h' info' hmem
  · intro r h' data' ret' hmem
    rcases mem_snoc.mp hmem with hmem | heq
    · obtain ⟨r', info', hmem⟩ := h.known r h' data' ret' hmem
      exact ⟨r', info', List.mem_append_left _ hmem⟩
    · obtain ⟨-, hop⟩ := Prod.mk.inj heq
      obtain ⟨rfl, -, -⟩ := IpcOp.write.inj hop
      exact ⟨q, info, List.mem_append_left _ hstart⟩
  · intro r r' h' i i' hr hr'
    simp only [mem_snoc, Prod.mk.injEq, reduceCtorEq, and_false, or_false] at hr hr'
    exact h.unique r r' h' i i' hr hr'

end Sessions

/-- The open session belongs to the owner and has taken in what was consumed of it. -/
structure Sound (content : Nat → Bytes) (s : Server) : Prop where
  sessions : Sessions content s.calls
  status : s.updater.status = .ok
  idle : ∀ p, s.phase p = .idle → s.offset p = 0
  closed : s.owner = none → s.updater.ipc = 0
  live : ∀ p, s.owner = some p → s.updater.ipc ≠ 0 ∧ s.phase p ≠ .idle ∧
    (∃ info, (p, .start s.updater.ipc info) ∈ s.calls) ∧
    written s.updater.ipc s.calls = (content p).take (s.offset p)

section Several

variable {content name : Nat → Bytes} {s s' : Server}

theorem start_sound : (start .clear).Sound content where
  sessions := ⟨by simp [start], by simp [start], by simp [start], by simp [start]⟩
  status := rfl
  idle := fun _ _ => rfl
  closed := fun _ => rfl
  live := by simp [start]

theorem Sound.idle_update (h : s.Sound content) {p : Nat} {phase : Phase} (hphase : phase ≠ .idle)
    (q : Nat) (hq : Function.update s.phase p phase q = .idle) : s.offset q = 0 := by
  by_cases hqp : q = p
  · subst hqp
    rw [Function.update_self] at hq
    exact absurd hq hphase
  · rw [Function.update_of_ne hqp] at hq
    exact h.idle q hq

theorem Sound.begin {p : Nat} {handle : Int} (h : s.Sound content)
    (hnext : s.Next content name (.begin p handle) s') (hfresh : s.Fresh (.begin p handle)) :
    s'.Sound content := by
  obtain ⟨hidle, hpos⟩ := hnext.1
  have hs := next_begin hnext
  subst hs
  have hfresh' : ∀ q info, (q, .start handle info) ∉
      s.calls ++ (ipcEnd s.updater).map (p, ·) := by
    intro q info hmem
    rcases List.mem_append.mp hmem with hmem | hmem
    · exact hfresh q info hmem
    · unfold ipcEnd at hmem
      split at hmem <;> simp at hmem
  have hended := h.sessions.endOps (p := p) s.updater
  have hnew : written handle (s.calls ++ (ipcEnd s.updater).map (p, ·)) = [] :=
    hended.written_fresh hfresh'
  have hcalls : s.calls ++ (ipcEnd s.updater ++ [IpcOp.start handle (cstr (name p))]).map (p, ·) =
      (s.calls ++ (ipcEnd s.updater).map (p, ·)) ++ [(p, .start handle (cstr (name p)))] := by
    simp
  refine ⟨?_, rfl, h.idle_update (by simp), by simp, fun q hq => ?_⟩
  · rw [hcalls]
    exact hended.start hfresh'
  · obtain rfl := Option.some.inj hq
    refine ⟨by simp; omega, by simp, ⟨cstr (name p), by simp⟩, ?_⟩
    rw [hcalls, written_append, hnew, h.idle p hidle]
    rfl

theorem Sound.data {p size preset : Nat} {ret : Int} (h : s.Sound content)
    (hnext : s.Next content name (.data p size preset ret) s')
    (halone : s.Alone content (.data p size preset ret)) : s'.Sound content := by
  obtain ⟨hreceiving, hret⟩ := hnext.1
  have hidle : ∀ n q, s.phase q = .idle → Function.update s.offset p n q = 0 := by
    intro n q hq
    have hne : q ≠ p := by
      rintro rfl
      rw [hreceiving] at hq
      cases hq
    rw [Function.update_of_ne hne]
    exact h.idle q hq
  cases howner : s.owner with
  | none =>
      have hs := next_data_inactive (h.closed howner) hnext
      subst hs
      refine ⟨h.sessions, h.status, hidle _, h.closed, fun q hq => ?_⟩
      rw [howner] at hq
      cases hq
  | some q =>
      obtain ⟨halone, hsmall, hwrap⟩ := halone
      obtain ⟨hipc, hphase, ⟨info, hstart⟩, hwritten⟩ := h.live q howner
      have hs := next_data_active hipc h.status hsmall hwrap hnext
      subst hs
      -- what another part sends is empty
      have hforeign : q ≠ p → s.chunk content p size = [] := by
        intro hqp
        by_contra hne
        rcases halone hne with hnone | hsome
        · rw [howner] at hnone
          cases hnone
        · exact hqp (Option.some.inj (howner.symm.trans hsome))
      have hk : ret.toNat ≤ (s.chunk content p size).length % 2 ^ 32 := by omega
      have htaken : ((s.chunk content p size).take
          ((s.chunk content p size).length % 2 ^ 32)).take ret.toNat =
          (s.chunk content p size).take ret.toNat := by
        rw [List.take_take, Nat.min_eq_left hk]
      have hcontinued : written s.updater.ipc s.calls ++
          (s.chunk content p size).take ret.toNat =
          (content q).take (Function.update s.offset p (s.offset p + ret.toNat) q) := by
        rw [hwritten]
        by_cases hqp : q = p
        · subst hqp
          rw [Function.update_self]
          exact take_offset_append (Nat.le_trans hk (Nat.mod_le _ _))
        · rw [hforeign hqp, List.take_nil, List.append_nil, Function.update_of_ne hqp]
      refine ⟨h.sessions.write hstart ?_ ?_, h.status, hidle _, ?_, fun r hr => ?_⟩
      · intro hdata
        by_contra hne
        rw [hforeign (Ne.symm hne)] at hdata
        exact hdata rfl
      · rw [htaken, hcontinued]
        exact List.take_prefix _ _
      · intro hnone
        exact absurd (howner.symm.trans hnone) (by simp)
      · obtain rfl : q = r := Option.some.inj (howner.symm.trans hr)
        refine ⟨hipc, hphase, ⟨info, List.mem_append_left _ hstart⟩, ?_⟩
        rw [written_append, written_write, htaken]
        exact hcontinued

theorem Sound.finish {p : Nat} (h : s.Sound content)
    (hnext : s.Next content name (.finish p) s') : s'.Sound content := by
  obtain ⟨reply, -, hs⟩ := next_finish hnext
  subst hs
  exact ⟨h.sessions.endOps s.updater, rfl, h.idle_update (by simp),
    fun _ => rfl, by simp⟩

/-- **Several uploads.** In a run where no bytes of a part arrive while the session of another one
is open, each session takes in a leading piece of the part that opened it, and nothing else. -/
theorem upload_clean {es : List UploadEvent}
    (hrun : Steps (AloneStep content name) (start .clear) es s) : s.Clean content := by
  have hsound : s.Sound content := by
    refine hrun.invariant (fun s e s' h hstep => ?_) start_sound
    obtain ⟨⟨hnext, hfresh⟩, halone⟩ := hstep
    cases e with
    | begin p handle => exact h.begin hnext hfresh
    | data p size preset ret => exact h.data hnext halone
    | finish p => exact h.finish hnext
  exact ⟨hsound.sessions.opened, hsound.sessions.ordered⟩

/-- Part 1 begins while part 0 is sent, which sends nothing more until its end. -/
theorem upload_clean_two :
    ∃ (content : Nat → Bytes) (s : Server), s.calls =
        [(0, .start 5 (bytes "image.swu")), (0, .write 5 (bytes "aa") 1), (1, .stop 5),
          (1, .start 6 (bytes "image.swu")), (1, .write 6 (bytes "b") 1), (0, .stop 6)] ∧
      s.replies.length = 2 ∧ s.Clean content := by
  let content : Nat → Bytes := fun p => if p = 0 then bytes "aa" else bytes "b"
  let name : Nat → Bytes := fun _ => bytes "image.swu"
  let next (s : Server) (e : UploadEvent) : Server := ((s.step content name e).toOption).getD s
  let s₀ := next (start .clear) (.begin 0 5)
  let s₁ := next s₀ (.data 0 2 0 1)
  let s₂ := next s₁ (.begin 1 6)
  let s₃ := next s₂ (.data 1 1 0 1)
  have hbegin : AloneStep content name (start .clear) (.begin 0 5) s₀ :=
    ⟨⟨⟨⟨rfl, by decide⟩, rfl⟩, by simp [Fresh, start]⟩, trivial⟩
  have hdata : AloneStep content name s₀ (.data 0 2 0 1) s₁ :=
    ⟨⟨⟨⟨rfl, .inr (by decide)⟩, rfl⟩, trivial⟩, ⟨fun _ => .inr rfl, by decide, by decide⟩⟩
  have hbegin' : AloneStep content name s₁ (.begin 1 6) s₂ := by
    refine ⟨⟨⟨⟨rfl, by decide⟩, rfl⟩, fun q info hmem => ?_⟩, trivial⟩
    have hcalls : s₁.calls = [(0, .start 5 (bytes "image.swu")), (0, .write 5 (bytes "aa") 1)] :=
      rfl
    simp [hcalls] at hmem
  have hdata' : AloneStep content name s₂ (.data 1 1 0 1) s₃ :=
    ⟨⟨⟨⟨rfl, .inr (by decide)⟩, rfl⟩, trivial⟩, ⟨fun _ => .inr rfl, by decide, by decide⟩⟩
  obtain ⟨s₄, hfinish⟩ : ∃ s₄, s₃.Next content name (.finish 0) s₄ := finish_next rfl
  obtain ⟨reply, -, hs₄⟩ := next_finish hfinish
  have hphase : s₄.phase 1 = .receiving := by rw [hs₄]; rfl
  obtain ⟨s₅, hfinish'⟩ : ∃ s₅, s₄.Next content name (.finish 1) s₅ := finish_next hphase
  obtain ⟨reply', -, hs₅⟩ := next_finish hfinish'
  have hrun := ((((Steps.single hbegin).snoc hdata).snoc hbegin').snoc hdata').snoc
    (⟨⟨hfinish, trivial⟩, trivial⟩ : AloneStep content name s₃ (.finish 0) s₄)
  have hend : AloneStep content name s₄ (.finish 1) s₅ := ⟨⟨hfinish', trivial⟩, trivial⟩
  refine ⟨content, s₅, ?_, ?_, upload_clean (hrun.snoc hend)⟩
  · rw [hs₅, hs₄]
    rfl
  · rw [hs₅, hs₄]
    rfl

/-- Part 1 begins while part 0 is sent: the bytes of part 0 go to the session of part 1. -/
theorem upload_mixes :
    ∃ (content name : Nat → Bytes) (es : List UploadEvent) (s : Server),
      Steps (FreshStep content name) (start .clear) es s ∧ ¬ s.Clean content := by
  let content : Nat → Bytes := fun p => if p = 0 then bytes "aa" else bytes "b"
  let name : Nat → Bytes := fun _ => bytes "image.swu"
  let next (s : Server) (e : UploadEvent) : Server := ((s.step content name e).toOption).getD s
  let s₀ := next (start .clear) (.begin 0 5)
  let s₁ := next s₀ (.begin 1 6)
  let s₂ := next s₁ (.data 0 1 1 1)
  have hfirst : FreshStep content name (start .clear) (.begin 0 5) s₀ :=
    ⟨⟨⟨rfl, by decide⟩, rfl⟩, by simp [Fresh, start]⟩
  have hsecond : FreshStep content name s₀ (.begin 1 6) s₁ := by
    refine ⟨⟨⟨rfl, by decide⟩, rfl⟩, fun q info hmem => ?_⟩
    have hcalls : s₀.calls = [(0, .start 5 (bytes "image.swu"))] := rfl
    simp [hcalls] at hmem
  have hdata : FreshStep content name s₁ (.data 0 1 1 1) s₂ :=
    ⟨⟨⟨rfl, .inr (by decide)⟩, rfl⟩, trivial⟩
  refine ⟨content, name, _, s₂, ((Steps.single hfirst).snoc hsecond).snoc hdata, fun hclean => ?_⟩
  have hcalls : s₂.calls = [(0, .start 5 (bytes "image.swu")), (1, .stop 5),
      (1, .start 6 (bytes "image.swu")), (0, .write 6 (bytes "a") 1)] := rfl
  obtain ⟨info, hmem⟩ := hclean.opened 0 6 (bytes "a") 1 (by simp [hcalls]) (by decide)
  simp [hcalls] at hmem

end Several

end Server

end AtxSys
