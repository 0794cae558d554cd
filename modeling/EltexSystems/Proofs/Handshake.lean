import EltexSystems.Handshake
import Mathlib.Data.Fintype.Option
import Mathlib.Data.List.GetD
import Mathlib.Algebra.Order.BigOperators.Group.Finset

/-!
# What the handshake prints

However the bytes of the processes are interleaved, the texts are read where they end, the server's
answer is `Hello!`, and a client that is the first to answer got `Hi!` (`handshake_lines`); and once
the server and a client have the memory, the server inevitably gets its answer (`handshake_ends`).
Behind the server's store of the flag the text only changes towards the answer (`Grows`), which no
process's assertion about it depends on (`ServerAt.grows`, `ClientAt.grows`).
-/

namespace EltexSystems.Handshake

open CStr Lts

section Lines

variable {P Q : ℕ → UInt8 → Prop} {line : List UInt8}

theorem Loaded.nil : Loaded P [] := nofun

theorem Loaded.snoc {b : UInt8} (h : Loaded P line) (hb : P line.length b) (hne : b ≠ 0) :
    Loaded P (line ++ [b]) := by
  intro k c hk
  rcases Nat.lt_or_ge k line.length with hlt | hge
  · rw [List.getElem?_append_left hlt] at hk
    exact h k c hk
  · rw [List.getElem?_append_right hge] at hk
    obtain ⟨hk', rfl⟩ := List.getElem?_eq_some_iff.mp hk
    have hk1 : k - line.length < 1 := hk'
    obtain rfl : k = line.length := by omega
    simpa using ⟨hb, hne⟩

theorem Loaded.mono (hPQ : ∀ k b, P k b → Q k b) (h : Loaded P line) : Loaded Q line :=
  fun k b hk => ⟨hPQ k b (h k b hk).1, (h k b hk).2⟩

/-- The bytes of a text that has no zero, and the zero behind them, are the text. -/
theorem eq_of_printed {s : List UInt8} (hs : ∀ b ∈ s, b ≠ 0)
    (h : Printed (fun k b => b = s.getD k 0) line) : line = s := by
  have hlen : line.length = s.length := by
    rcases Nat.lt_trichotomy line.length s.length with hlt | heq | hgt
    · refine absurd h.2.symm ?_
      rw [List.getD_eq_getElem _ _ hlt]
      exact hs _ (List.getElem_mem hlt)
    · exact heq
    · have := h.1 s.length _ (List.getElem?_eq_getElem hgt)
      refine absurd this.1 fun hz => this.2 (hz.trans ?_)
      rw [List.getD_eq_default _ _ le_rfl]
  refine List.ext_getElem hlen fun k hk hk' => ?_
  rw [(h.1 k _ (List.getElem?_eq_getElem hk)).1, List.getD_eq_getElem _ _ hk']

theorem hi_eq (h : Printed Hi line) : line = ascii "Hi!" :=
  eq_of_printed (ne_zero_of_all (by decide)) h

theorem hello_eq (h : Printed Hello line) : line = ascii "Hello!" :=
  eq_of_printed (ne_zero_of_all (by decide)) h

/-- Neither text has a byte that is not zero from the seventh on. -/
theorem oneOf_lt {k : ℕ} {b : UInt8} (h : OneOf k b) (hb : b ≠ 0) : k < 6 := by
  by_contra hk
  rcases h with h | h <;> refine hb (h.trans (List.getD_eq_default _ _ ?_)) <;>
    simp [ascii] <;> omega

theorem Loaded.length_lt (h : Loaded OneOf line) : line.length < TEXT_SIZE := by
  rcases Nat.eq_zero_or_pos line.length with h0 | hpos
  · rw [h0]
    decide
  · have hlast := h (line.length - 1) _ (List.getElem?_eq_getElem (by omega))
    have := oneOf_lt hlast.1 hlast.2
    unfold TEXT_SIZE
    omega

theorem hello_of_le {k : ℕ} (hk : 6 ≤ k) : Hello k 0 :=
  (List.getD_eq_default _ _ (by simpa [ascii] using hk)).symm

theorem hello_of_oneOf {k : ℕ} {b : UInt8} (hk : 6 ≤ k) (h : OneOf k b) : Hello k b := by
  have hb : b = 0 := by
    by_contra hb
    have := oneOf_lt h hb
    omega
  exact hb ▸ hello_of_le hk

end Lines

/-- The memory behind the server's store of the flag. -/
structure Shared (m : Segment) : Prop where
  sized : m.sized = true
  flag : m.flag = 1 ∨ m.flag = 2
  text : ∀ k, OneOf k (m.text k)
  answered : m.flag = 2 → ∀ k, Hello k (m.text k)

/-- What may become of it: bytes of the answer come in, and the flag of the answer. -/
structure Grows (m m' : Segment) : Prop where
  flag : m.flag = 2 → m'.flag = 2
  text : ∀ k, m'.text k = m.text k ∨ Hello k (m'.text k)

/-- The server has stored its text's first bytes, and the flag is 0. -/
def Copied (m : Segment) (k : ℕ) : Prop :=
  m.flag = 0 ∧ ∀ j, m.text j = if j < k then (ascii "Hi!").getD j 0 else 0

/-- What holds where the server is. -/
def ServerAt (m : Segment) (q : Proc) : Prop :=
  match q.pc with
  | .start | .truncate => Copied m 0
  | .map | .clear => m.sized = true ∧ Copied m 0
  | .copy k => k < TEXT_SIZE ∧ m.sized = true ∧ Copied m k
  | .terminate | .raise => m.sized = true ∧ Copied m TEXT_SIZE
  | .exited 1 => m.flag = 0
  | .sent k => Shared m ∧ q.line.length = k ∧ Loaded OneOf q.line
  | .wait => Shared m
  | .got k => Shared m ∧ m.flag = 2 ∧ q.line.length = k ∧ Loaded Hello q.line
  | .unmap | .remove | .exited 0 => Shared m ∧ q.gotLine.isSome
  | _ => False

/-- What holds where a client is; `alone` is that no other client has begun its answer. -/
def ClientAt (m : Segment) (alone : Prop) (q : Proc) : Prop :=
  match q.pc with
  | .start | .map | .wait | .exited 1 | .killed => True
  | .got k => Shared m ∧ q.line.length = k ∧ Loaded OneOf q.line ∧ (alone → Loaded Hi q.line)
  | .copy k => k < TEXT_SIZE ∧ Shared m ∧ ∀ j < k, Hello j (m.text j)
  | .terminate | .raise => Shared m ∧ ∀ j, Hello j (m.text j)
  | .sent k => Shared m ∧ m.flag = 2 ∧ q.line.length = k ∧ Loaded Hello q.line
  | .unmap | .exited 0 => Shared m ∧ m.flag = 2
  | _ => False

theorem ServerAt.grows {m m' : Segment} {q : Proc} (h : ServerAt m q)
    (hm : Shared m → Shared m' ∧ Grows m m') (hb : m.flag = 0 → m' = m) : ServerAt m' q := by
  have hcopied : ∀ {k}, Copied m k → m' = m := fun hc => hb hc.1
  unfold ServerAt at h ⊢
  split at h
  · rwa [hcopied h]
  · rwa [hcopied h]
  · rwa [hcopied h.2]
  · rwa [hcopied h.2]
  · rwa [hcopied h.2.2]
  · rwa [hcopied h.2]
  · rwa [hcopied h.2]
  · rwa [hb h]
  · exact ⟨(hm h.1).1, h.2⟩
  · exact (hm h).1
  · exact ⟨(hm h.1).1, (hm h.1).2.flag h.2.1, h.2.2⟩
  · exact ⟨(hm h.1).1, h.2⟩
  · exact ⟨(hm h.1).1, h.2⟩
  · exact ⟨(hm h.1).1, h.2⟩
  · exact h

theorem ClientAt.grows {m m' : Segment} {q : Proc} {A A' : Prop} (h : ClientAt m A q)
    (hm : Shared m → Shared m' ∧ Grows m m') (hA : A' → A) : ClientAt m' A' q := by
  have hkept : ∀ {j}, Shared m → Hello j (m.text j) → Hello j (m'.text j) := by
    intro j hs hj
    rcases (hm hs).2.text j with heq | hnew
    · rwa [heq]
    · exact hnew
  unfold ClientAt at h ⊢
  split at h
  · trivial
  · trivial
  · trivial
  · trivial
  · trivial
  · exact ⟨(hm h.1).1, h.2.1, h.2.2.1, fun ha => h.2.2.2 (hA ha)⟩
  · exact ⟨h.1, (hm h.2.1).1, fun j hj => hkept h.2.1 (h.2.2 j hj)⟩
  · exact ⟨(hm h.1).1, fun j => hkept h.1 (h.2 j)⟩
  · exact ⟨(hm h.1).1, fun j => hkept h.1 (h.2 j)⟩
  · exact ⟨(hm h.1).1, (hm h.1).2.flag h.2.1, h.2.2⟩
  · exact ⟨(hm h.1).1, (hm h.1).2.flag h.2⟩
  · exact ⟨(hm h.1).1, (hm h.1).2.flag h.2⟩
  · exact h

theorem Grows.refl (m : Segment) : Grows m m := ⟨id, fun _ => .inl rfl⟩

theorem Shared.flag_ne_zero {m : Segment} (h : Shared m) : m.flag ≠ 0 := by
  rcases h.flag with h | h <;> rw [h] <;> decide

/-- The server stores a byte of its text or the zero behind it. -/
theorem Copied.put {m : Segment} {k : ℕ} (h : Copied m k) :
    Copied { m with text := Function.update m.text k ((ascii "Hi!").getD k 0) } (k + 1) := by
  refine ⟨h.1, fun j => ?_⟩
  show Function.update m.text k _ j = _
  rcases eq_or_ne j k with rfl | hne
  · rw [Function.update_self, if_pos (Nat.lt_succ_self j)]
  · rw [Function.update_of_ne hne, h.2 j]
    by_cases hj : j < k
    · rw [if_pos hj, if_pos (by omega)]
    · rw [if_neg hj, if_neg (by omega)]

/-- A byte of the answer is stored. -/
theorem Shared.put {m : Segment} (h : Shared m) (k : ℕ) {b : UInt8} (hb : Hello k b) :
    Shared { m with text := Function.update m.text k b } ∧
      Grows m { m with text := Function.update m.text k b } := by
  have hcases : ∀ j, Function.update m.text k b j = m.text j ∨
      Hello j (Function.update m.text k b j) := by
    intro j
    rcases eq_or_ne j k with rfl | hne
    · rw [Function.update_self]
      exact .inr hb
    · exact .inl (Function.update_of_ne hne _ _)
  refine ⟨⟨h.sized, h.flag, fun j => ?_, fun hf j => ?_⟩, ⟨id, hcases⟩⟩
  · show OneOf j (Function.update m.text k b j)
    rcases hcases j with heq | hj
    · rw [heq]
      exact h.text j
    · exact .inr hj
  · show Hello j (Function.update m.text k b j)
    rcases hcases j with heq | hj
    · rw [heq]
      exact h.answered hf j
    · exact hj

/-- What the recorded lines of the server and of a client are. -/
structure ServerLines (q : Proc) : Prop where
  sent : ∀ t, q.sentLine = some t → Printed OneOf t
  got : ∀ t, q.gotLine = some t → Printed Hello t

structure ClientLines (alone : Prop) (q : Proc) : Prop where
  sent : ∀ t, q.sentLine = some t → Printed Hello t
  got : ∀ t, q.gotLine = some t → Printed OneOf t ∧ (alone → Printed Hi t)

variable {ι : Type*}

structure Inv (w : World ι) : Prop where
  server : ServerAt w.mem (w.procs none)
  client : ∀ i, ClientAt w.mem (Alone w i) (w.procs (some i))
  quiet : (∀ i, ¬ (w.procs (some i)).pc.Answering) → w.mem.flag ≠ 0 →
    w.mem.flag = 1 ∧ ∀ k, Hi k (w.mem.text k)
  serverLines : ServerLines (w.procs none)
  clientLines : ∀ i, ClientLines (Alone w i) (w.procs (some i))

variable {w w' : World ι} {api : Api} {i : ι} {q : Proc}

theorem serverAt_pc (h : Inv w) {pc : Pc} (hpc : (w.procs none).pc = pc) :
    ServerAt w.mem { w.procs none with pc := pc } := by
  have hs := h.server
  rwa [show w.procs none = { w.procs none with pc := pc } by rw [← hpc]] at hs

theorem clientAt_pc (h : Inv w) {pc : Pc} (hpc : (w.procs (some i)).pc = pc) :
    ClientAt w.mem (Alone w i) { w.procs (some i) with pc := pc } := by
  have hs := h.client i
  rwa [show w.procs (some i) = { w.procs (some i) with pc := pc } by rw [← hpc]] at hs

/-- The segment has memory when the server has mapped it. -/
theorem ServerAt.sized {m : Segment} (h : ServerAt m q) (hatt : q.pc.Attached) :
    m.sized = true := by
  unfold ServerAt at h
  unfold Pc.Attached at hatt
  split at hatt <;> simp_all [Shared.sized]

theorem Pc.Accesses.attached {pc : Pc} (h : pc.Accesses) : pc.Attached := by
  cases pc <;> trivial

theorem ServerAt.shared {m : Segment} (h : ServerAt m q) (hf : m.flag ≠ 0) : Shared m := by
  unfold ServerAt at h
  split at h
  · exact absurd h.1 hf
  · exact absurd h.1 hf
  · exact absurd h.2.1 hf
  · exact absurd h.2.1 hf
  · exact absurd h.2.2.1 hf
  · exact absurd h.2.1 hf
  · exact absurd h.2.1 hf
  · exact absurd h hf
  · exact h.1
  · exact h
  · exact h.1
  · exact h.1
  · exact h.1
  · exact h.1
  · exact h.elim

theorem ClientAt.shared {m : Segment} {A : Prop} (h : ClientAt m A q) (hans : q.pc.Answering) :
    Shared m := by
  unfold ClientAt at h
  unfold Pc.Answering at hans
  split at hans <;> simp_all

/-- Where only this client has read the flag, and not answered, the text is the server's. -/
theorem Inv.alone_hi (h : Inv w) (hs : Shared w.mem) {k : ℕ}
    (hpc : (w.procs (some i)).pc = .got k) (ha : Alone w i) :
    w.mem.flag = 1 ∧ ∀ k, Hi k (w.mem.text k) := by
  refine h.quiet (fun j => ?_) hs.flag_ne_zero
  rcases eq_or_ne j i with rfl | hne
  · rw [hpc]
    exact id
  · exact ha j hne

variable [DecidableEq ι]

/-- A step of a client. -/
theorem Inv.client_step (h : Inv w) (hprocs : w'.procs = Function.update w.procs (some i) q)
    (hm : w'.mem = w.mem ∨ Shared w.mem ∧ Shared w'.mem ∧ Grows w.mem w'.mem)
    (hans : (w.procs (some i)).pc.Answering → q.pc.Answering)
    (hquiet : ¬ q.pc.Answering → w'.mem = w.mem) (hq : ClientAt w'.mem (Alone w i) q)
    (hlines : ClientLines (Alone w i) q) : Inv w' := by
  have hself : w'.procs (some i) = q := by rw [hprocs, Function.update_self]
  have hother : ∀ p, p ≠ some i → w'.procs p = w.procs p := by
    intro p hp
    rw [hprocs, Function.update_of_ne hp]
  have hsome : ∀ {j}, j ≠ i → w'.procs (some j) = w.procs (some j) :=
    fun hj => hother _ fun h => hj (Option.some.inj h)
  have hback : ∀ j, ¬ (w'.procs (some j)).pc.Answering → ¬ (w.procs (some j)).pc.Answering := by
    intro j hj
    rcases eq_or_ne j i with rfl | hne
    · rw [hself] at hj
      exact fun hq => hj (hans hq)
    · rwa [hsome hne] at hj
  have halone : ∀ j, Alone w' j → Alone w j := fun j ha j' hne => hback j' (ha j' hne)
  have hgrows : Shared w.mem → Shared w'.mem ∧ Grows w.mem w'.mem := by
    rcases hm with heq | ⟨-, hm⟩
    · rw [heq]
      exact fun hs => ⟨hs, .refl _⟩
    · exact fun _ => hm
  have hblank : w.mem.flag = 0 → w'.mem = w.mem := by
    rcases hm with heq | ⟨hs, -⟩
    · exact fun _ => heq
    · exact fun h0 => absurd h0 hs.flag_ne_zero
  refine ⟨?_, fun j => ?_, fun hno hf => ?_, ?_, fun j => ?_⟩
  · rw [hother none nofun]
    exact h.server.grows hgrows hblank
  · rcases eq_or_ne j i with rfl | hne
    · rw [hself]
      exact hq.grows (fun hs => ⟨hs, .refl _⟩) (halone j)
    · rw [hsome hne]
      exact (h.client j).grows hgrows (halone j)
  · have hmem : w'.mem = w.mem := hquiet (hself ▸ hno i)
    rw [hmem] at hf ⊢
    exact h.quiet (fun j => hback j (hno j)) hf
  · rw [hother none nofun]
    exact h.serverLines
  · rcases eq_or_ne j i with rfl | hne
    · rw [hself]
      exact ⟨hlines.sent, fun t ht => ⟨(hlines.got t ht).1, fun ha =>
        (hlines.got t ht).2 (halone j ha)⟩⟩
    · rw [hsome hne]
      exact ⟨(h.clientLines j).sent, fun t ht => ⟨((h.clientLines j).got t ht).1, fun ha =>
        ((h.clientLines j).got t ht).2 (halone j ha)⟩⟩

/-- A step of the server, which leaves the memory as it is once the flag is not 0. -/
theorem Inv.server_step (h : Inv w) (hprocs : w'.procs = Function.update w.procs none q)
    (hm : w'.mem = w.mem ∨ w.mem.flag = 0) (hquiet : (∀ i, ¬ (w.procs (some i)).pc.Answering) →
      w'.mem.flag ≠ 0 → w'.mem.flag = 1 ∧ ∀ k, Hi k (w'.mem.text k))
    (hq : ServerAt w'.mem q) (hlines : ServerLines q) : Inv w' := by
  have hsome : ∀ j, w'.procs (some j) = w.procs (some j) := by
    intro j
    rw [hprocs, Function.update_of_ne (Option.some_ne_none j)]
  have hself : w'.procs none = q := by rw [hprocs, Function.update_self]
  have halone : ∀ j, Alone w' j → Alone w j := fun j ha j' hne => hsome j' ▸ ha j' hne
  have hgrows : Shared w.mem → Shared w'.mem ∧ Grows w.mem w'.mem := by
    intro hs
    rcases hm with heq | h0
    · rw [heq]
      exact ⟨hs, .refl _⟩
    · exact absurd h0 hs.flag_ne_zero
  refine ⟨hself ▸ hq, fun j => ?_, fun hno => hquiet fun j => hsome j ▸ hno j, hself ▸ hlines,
    fun j => ?_⟩
  · rw [hsome]
    exact (h.client j).grows hgrows (halone j)
  · rw [hsome]
    exact ⟨(h.clientLines j).sent, fun t ht => ⟨((h.clientLines j).got t ht).1, fun ha =>
      ((h.clientLines j).got t ht).2 (halone j ha)⟩⟩

/-- The server goes on, the memory as it is. -/
theorem Inv.server_goto (h : Inv w) (hmem : w'.mem = w.mem)
    (hprocs : w'.procs = Function.update w.procs none q) (hq : ServerAt w.mem q)
    (hlines : ServerLines q) : Inv w' :=
  h.server_step hprocs (.inl hmem) (hmem ▸ h.quiet) (hmem ▸ hq) hlines

/-- A client goes on, the memory as it is. -/
theorem Inv.client_goto (h : Inv w) (hmem : w'.mem = w.mem)
    (hprocs : w'.procs = Function.update w.procs (some i) q)
    (hans : (w.procs (some i)).pc.Answering → q.pc.Answering)
    (hq : ClientAt w.mem (Alone w i) q) (hlines : ClientLines (Alone w i) q) : Inv w' :=
  h.client_step hprocs (.inl hmem) hans (fun _ => hmem) (hmem ▸ hq) hlines

theorem hi_of_copied {m : Segment} (h : Copied m TEXT_SIZE) (k : ℕ) : Hi k (m.text k) := by
  rw [Hi, h.2 k]
  split_ifs with hk
  · rfl
  · unfold TEXT_SIZE at hk
    exact (List.getD_eq_default _ _ (by simp [ascii]; omega)).symm

theorem server_inv (h : Inv w) {l : Label ι} (hst : Step api w l w')
    (hl : l = .step none ∨ l = .fail none) : Inv w' := by
  have hlines := h.serverLines
  have hkeep : ∀ pc, ServerLines { w.procs none with pc := pc } :=
    fun _ => ⟨hlines.sent, hlines.got⟩
  cases hst with
  | create hpc =>
    have hs := serverAt_pc h hpc
    have hc : Copied ⟨api = .sysv, 0, fun _ => 0⟩ 0 := ⟨rfl, fun j => rfl⟩
    refine h.server_step rfl (.inr hs.1) (fun _ hf => absurd rfl hf) ?_ (hkeep _)
    cases api
    · exact hc
    · exact ⟨rfl, hc⟩
  | attach => simp at hl
  | @truncate p hpc =>
    obtain rfl : p = none := by simpa using hl
    have hs := serverAt_pc h hpc
    exact h.server_step rfl (.inr hs.1) (fun _ hf => absurd hs.1 hf) ⟨rfl, hs.1, hs.2⟩ (hkeep _)
  | @map p hpc =>
    obtain rfl : p = none := by simpa using hl
    have hs : w.mem.sized = true ∧ Copied w.mem 0 := serverAt_pc h hpc
    exact h.server_goto rfl rfl (show _ ∧ _ from hs) (hkeep _)
  | @fail p hpc =>
    obtain rfl : p = none := by simpa using hl
    refine h.server_goto rfl rfl (show w.mem.flag = 0 from ?_) (hkeep _)
    rcases hpc with hpc | hpc | hpc
    · exact (serverAt_pc h hpc).1
    · exact (serverAt_pc h hpc).1
    · exact (serverAt_pc h hpc).2.1
  | @clear p hpc =>
    obtain rfl : p = none := by simpa using hl
    have hs := serverAt_pc h hpc
    exact h.server_step rfl (.inr hs.2.1) (fun _ hf => absurd rfl hf)
      ⟨by decide, hs.1, rfl, hs.2.2⟩ (hkeep _)
  | @copy p k hpc =>
    obtain rfl : p = none := by simpa using hl
    have hs := serverAt_pc h hpc
    have hc := hs.2.2.put
    refine h.server_step rfl (.inr hs.2.2.1) (fun _ hf => absurd hs.2.2.1 hf) ?_ (hkeep _)
    show ServerAt _ { w.procs none with pc := _ }
    split_ifs with hk
    · exact ⟨hk, hs.2.1, hc⟩
    · have hk64 : k + 1 = TEXT_SIZE := by
        have := hs.1
        unfold TEXT_SIZE at *
        omega
      exact ⟨hs.2.1, hk64 ▸ hc⟩
  | @terminate p hpc =>
    obtain rfl : p = none := by simpa using hl
    have hs := serverAt_pc h hpc
    refine h.server_step rfl (.inr hs.2.1) (fun _ hf => absurd hs.2.1 hf) ?_ (hkeep _)
    refine ⟨hs.1, hs.2.1, fun j => ?_⟩
    show Function.update w.mem.text _ 0 j = _
    rcases eq_or_ne j (TEXT_SIZE - 1) with rfl | hne
    · rw [Function.update_self]
      rfl
    · rw [Function.update_of_ne hne]
      exact hs.2.2 j
  | @raise p hpc =>
    obtain rfl : p = none := by simpa using hl
    have hs := serverAt_pc h hpc
    have hshared : Shared { w.mem with flag := 1 } :=
      ⟨hs.1, .inl rfl, fun k => .inl (hi_of_copied hs.2 k),
        fun h2 => absurd h2 (show (1 : ℤ) ≠ 2 by decide)⟩
    have hhi : ∀ k, Hi k (w.mem.text k) := hi_of_copied hs.2
    exact h.server_step rfl (.inr hs.2.1) (fun _ _ => ⟨rfl, hhi⟩)
      ⟨hshared, rfl, .nil⟩ ⟨hlines.sent, hlines.got⟩
  | @sent p k hpc _ _ hne =>
    obtain rfl : p = none := by simpa using hl
    obtain ⟨hs, hlen, hl'⟩ := serverAt_pc h hpc
    refine h.server_goto rfl rfl ⟨hs, ?_, hl'.snoc (hlen ▸ hs.text k) hne⟩
      ⟨hlines.sent, hlines.got⟩
    rw [List.length_append, ← hlen]
    rfl
  | @sentEnd p k hpc _ _ h0 =>
    obtain rfl : p = none := by simpa using hl
    obtain ⟨hs, hlen, hl'⟩ := serverAt_pc h hpc
    refine h.server_goto rfl rfl hs ⟨?_, hlines.got⟩
    rintro t ⟨⟩
    exact ⟨hl', by rw [← h0]; exact hlen ▸ hs.text k⟩
  | @wait p hpc _ hf =>
    obtain rfl : p = none := by simpa using hl
    exact h.server_goto rfl rfl ⟨serverAt_pc h hpc, hf, rfl, .nil⟩ ⟨hlines.sent, hlines.got⟩
  | @got p k hpc _ _ hne =>
    obtain rfl : p = none := by simpa using hl
    obtain ⟨hs, hf, hlen, hl'⟩ := serverAt_pc h hpc
    refine h.server_goto rfl rfl ⟨hs, hf, ?_, hl'.snoc (hlen ▸ hs.answered hf k) hne⟩
      ⟨hlines.sent, hlines.got⟩
    rw [List.length_append, ← hlen]
    rfl
  | @gotEnd p k hpc _ _ h0 =>
    obtain rfl : p = none := by simpa using hl
    obtain ⟨hs, hf, hlen, hl'⟩ := serverAt_pc h hpc
    refine h.server_goto rfl rfl ⟨hs, rfl⟩ ⟨hlines.sent, ?_⟩
    rintro t ⟨⟩
    exact ⟨hl', by rw [← h0]; exact hlen ▸ hs.answered hf k⟩
  | @beyond p k hpc hk =>
    obtain rfl : p = none := by simpa using hl
    refine absurd hk (Nat.not_le.mpr ?_)
    rcases hpc with hpc | hpc
    · obtain ⟨-, hlen, hl'⟩ := serverAt_pc h hpc
      exact hlen ▸ hl'.length_lt
    · obtain ⟨-, -, hlen, hl'⟩ := serverAt_pc h hpc
      exact hlen ▸ (hl'.mono fun _ _ => .inr).length_lt
  | @bus p hacc hsz =>
    obtain rfl : p = none := by simpa using hl
    exact absurd (h.server.sized hacc.attached) (by rw [hsz]; decide)
  | @unmap p hpc =>
    obtain rfl : p = none := by simpa using hl
    have hs : Shared w.mem ∧ (w.procs none).gotLine.isSome := serverAt_pc h hpc
    exact h.server_goto rfl rfl (show _ ∧ _ from hs) (hkeep _)
  | @remove p hpc =>
    obtain rfl : p = none := by simpa using hl
    have hs : Shared w.mem ∧ (w.procs none).gotLine.isSome := serverAt_pc h hpc
    exact h.server_goto rfl rfl (show _ ∧ _ from hs) (hkeep _)
  | @removeFails p hpc =>
    obtain rfl : p = none := by simpa using hl
    have hs : Shared w.mem ∧ (w.procs none).gotLine.isSome := serverAt_pc h hpc
    exact h.server_goto rfl rfl (show _ ∧ _ from hs) (hkeep _)

theorem client_inv (h : Inv w) {l : Label ι} (hst : Step api w l w')
    (hl : l = .step (some i) ∨ l = .fail (some i)) : Inv w' := by
  have hlines := h.clientLines i
  have hkeep : ∀ pc, ClientLines (Alone w i) { w.procs (some i) with pc := pc } :=
    fun _ => ⟨hlines.sent, hlines.got⟩
  have hno : ∀ {pc pc' : Pc}, (w.procs (some i)).pc = pc → ¬ pc.Answering →
      (w.procs (some i)).pc.Answering → pc'.Answering := by
    rintro pc pc' rfl hpc hans
    exact absurd hans hpc
  cases hst with
  | create => simp at hl
  | @attach j hpc =>
    obtain rfl : j = i := by simpa using hl
    exact h.client_goto rfl rfl (hno hpc id) trivial (hkeep _)
  | @truncate p hpc =>
    obtain rfl : p = some i := by simpa using hl
    exact (clientAt_pc h hpc).elim
  | @map p hpc =>
    obtain rfl : p = some i := by simpa using hl
    exact h.client_goto rfl rfl (hno hpc id) trivial (hkeep _)
  | @fail p hpc =>
    obtain rfl : p = some i := by simpa using hl
    refine h.client_goto rfl rfl ?_ trivial (hkeep _)
    rcases hpc with hpc | hpc | hpc <;> exact hno hpc id
  | @clear p hpc =>
    obtain rfl : p = some i := by simpa using hl
    exact (clientAt_pc h hpc).elim
  | @copy p k hpc =>
    obtain rfl : p = some i := by simpa using hl
    obtain ⟨hk, hs, hdone⟩ := clientAt_pc h hpc
    have hput := hs.put k (b := message (some i) k) rfl
    have hnew : ∀ j < k + 1, Hello j (Function.update w.mem.text k (message (some i) k) j) := by
      intro j hj
      rcases eq_or_ne j k with rfl | hne
      · rw [Function.update_self]
        rfl
      · rw [Function.update_of_ne hne]
        exact hdone j (by omega)
    have hans : Pc.Answering (if k + 1 < TEXT_SIZE then .copy (k + 1) else .terminate) := by
      split_ifs <;> trivial
    refine h.client_step rfl (.inr ⟨hs, hput⟩) (fun _ => hans) (absurd hans) ?_ (hkeep _)
    show ClientAt _ _ { w.procs (some i) with pc := _ }
    split_ifs with hk'
    · exact ⟨hk', hput.1, hnew⟩
    · refine ⟨hput.1, fun j => ?_⟩
      by_cases hj : j < k + 1
      · exact hnew j hj
      · have hold : Function.update w.mem.text k (message (some i) k) j = w.mem.text j :=
          Function.update_of_ne (by omega) _ _
        show Hello j (Function.update w.mem.text k (message (some i) k) j)
        rw [hold]
        unfold TEXT_SIZE at hk'
        exact hello_of_oneOf (by omega) (hs.text j)
  | @terminate p hpc =>
    obtain rfl : p = some i := by simpa using hl
    obtain ⟨hs, hall⟩ := clientAt_pc h hpc
    have hput := hs.put (TEXT_SIZE - 1) (hello_of_le (by decide))
    refine h.client_step rfl (.inr ⟨hs, hput⟩) (fun _ => trivial) (absurd trivial)
      ⟨hput.1, fun j => ?_⟩ (hkeep _)
    rcases hput.2.text j with heq | hnew
    · exact heq ▸ hall j
    · exact hnew
  | @raise p hpc =>
    obtain rfl : p = some i := by simpa using hl
    obtain ⟨hs, hall⟩ := clientAt_pc h hpc
    have hs' : Shared { w.mem with flag := 2 } := ⟨hs.sized, .inr rfl, hs.text, fun _ => hall⟩
    exact h.client_step rfl (.inr ⟨hs, hs', ⟨fun _ => rfl, fun _ => .inl rfl⟩⟩) (fun _ => trivial)
      (absurd trivial) ⟨hs', rfl, rfl, .nil⟩ ⟨hlines.sent, hlines.got⟩
  | @sent p k hpc _ _ hne =>
    obtain rfl : p = some i := by simpa using hl
    obtain ⟨hs, hf, hlen, hl'⟩ := clientAt_pc h hpc
    refine h.client_goto rfl rfl (fun _ => trivial)
      ⟨hs, hf, ?_, hl'.snoc (hlen ▸ hs.answered hf k) hne⟩ ⟨hlines.sent, hlines.got⟩
    rw [List.length_append, ← hlen]
    rfl
  | @sentEnd p k hpc _ _ h0 =>
    obtain rfl : p = some i := by simpa using hl
    obtain ⟨hs, hf, hlen, hl'⟩ := clientAt_pc h hpc
    refine h.client_goto rfl rfl (fun _ => trivial) ⟨hs, hf⟩ ⟨?_, hlines.got⟩
    rintro t ⟨⟩
    exact ⟨hl', by rw [← h0]; exact hlen ▸ hs.answered hf k⟩
  | @wait p hpc _ hf =>
    obtain rfl : p = some i := by simpa using hl
    have hs : Shared w.mem := h.server.shared (by rw [hf]; exact one_ne_zero)
    exact h.client_goto rfl rfl (hno hpc id) ⟨hs, rfl, .nil, fun _ => .nil⟩
      ⟨hlines.sent, hlines.got⟩
  | @got p k hpc _ _ hne =>
    obtain rfl : p = some i := by simpa using hl
    obtain ⟨hs, hlen, hl', hhi⟩ := clientAt_pc h hpc
    refine h.client_goto rfl rfl (hno hpc id) ⟨hs, ?_, hl'.snoc (hlen ▸ hs.text k) hne,
      fun ha => (hhi ha).snoc (hlen ▸ (h.alone_hi hs hpc ha).2 k) hne⟩ ⟨hlines.sent, hlines.got⟩
    rw [List.length_append, ← hlen]
    rfl
  | @gotEnd p k hpc _ _ h0 =>
    obtain rfl : p = some i := by simpa using hl
    obtain ⟨hs, hlen, hl', hhi⟩ := clientAt_pc h hpc
    refine h.client_goto rfl rfl (hno hpc id) ⟨by decide, hs, nofun⟩ ⟨hlines.sent, ?_⟩
    rintro t ⟨⟩
    refine ⟨⟨hl', by rw [← h0]; exact hlen ▸ hs.text k⟩, fun ha => ⟨hhi ha, ?_⟩⟩
    rw [← h0]
    exact hlen ▸ (h.alone_hi hs hpc ha).2 k
  | @beyond p k hpc hk =>
    obtain rfl : p = some i := by simpa using hl
    refine absurd hk (Nat.not_le.mpr ?_)
    rcases hpc with hpc | hpc
    · obtain ⟨-, -, hlen, hl'⟩ := clientAt_pc h hpc
      exact hlen ▸ (hl'.mono fun _ _ => .inr).length_lt
    · obtain ⟨-, hlen, hl', -⟩ := clientAt_pc h hpc
      exact hlen ▸ hl'.length_lt
  | @bus p hacc hsz =>
    obtain rfl : p = some i := by simpa using hl
    refine h.client_goto rfl rfl (fun hans => ?_) trivial (hkeep _)
    exact nomatch hsz.symm.trans ((h.client i).shared hans).sized
  | @unmap p hpc =>
    obtain rfl : p = some i := by simpa using hl
    have hs : Shared w.mem ∧ w.mem.flag = 2 := clientAt_pc h hpc
    exact h.client_goto rfl rfl (fun _ => trivial) (show _ ∧ _ from hs) (hkeep _)
  | @remove p hpc =>
    obtain rfl : p = some i := by simpa using hl
    exact (clientAt_pc h hpc).elim
  | @removeFails p hpc =>
    obtain rfl : p = some i := by simpa using hl
    exact (clientAt_pc h hpc).elim

theorem inv_step (h : Inv w) {l : Label ι} (hst : Step api w l w') : Inv w' := by
  rcases l with (_ | i) | (_ | i)
  · exact server_inv h hst (.inl rfl)
  · exact client_inv h hst (.inl rfl)
  · exact server_inv h hst (.inr rfl)
  · exact client_inv h hst (.inr rfl)

variable {tr : List (World ι × Label ι)}

theorem inv_run (h : (lts api).Run tr w) : Inv w := by
  refine h.inv (I := Inv) ?_ fun _ _ _ hI hst => inv_step hI (show Step api _ _ _ from hst)
  rintro _ rfl
  exact ⟨⟨rfl, fun _ => rfl⟩, fun _ => trivial, fun _ hf => absurd rfl hf, ⟨nofun, nofun⟩,
    fun _ => ⟨nofun, nofun⟩⟩

theorem next_step {l : Label ι} (h : next api w l = some w') : Step api w l w' := by
  unfold next at h
  rcases l with p | p
  · have hsized : ∀ {b : Bool}, ¬ b = false → b = true := fun hb => by simpa using hb
    rcases hpc : (w.procs p).pc <;> simp only [hpc] at h
    case start =>
      rcases p with _ | i
      · cases h
        exact .create hpc
      · obtain ⟨hl, h⟩ := Option.ite_none_right_eq_some.mp h
        cases h
        exact .attach hpc hl
    case truncate =>
      cases h
      exact .truncate hpc
    case map =>
      cases h
      exact .map hpc
    case clear =>
      split_ifs at h with hsz <;> cases h
      · exact .bus (hpc ▸ trivial) hsz
      · exact .clear hpc (hsized hsz)
    case copy =>
      split_ifs at h with hsz hk <;> cases h
      · exact .bus (hpc ▸ trivial) hsz
      · simpa [hk] using Step.copy hpc (hsized hsz)
      · simpa [hk] using Step.copy hpc (hsized hsz)
    case terminate =>
      split_ifs at h with hsz <;> cases h
      · exact .bus (hpc ▸ trivial) hsz
      · exact .terminate hpc (hsized hsz)
    case raise =>
      split_ifs at h with hsz <;> cases h
      · exact .bus (hpc ▸ trivial) hsz
      · exact .raise hpc (hsized hsz)
    case sent =>
      split_ifs at h with hsz hk h0 <;> cases h
      · exact .bus (hpc ▸ trivial) hsz
      · exact .beyond (.inl hpc) hk
      · exact .sentEnd hpc (hsized hsz) (Nat.not_le.mp hk) h0
      · exact .sent hpc (hsized hsz) (Nat.not_le.mp hk) h0
    case wait =>
      split_ifs at h with hsz hf <;> cases h
      · exact .bus (hpc ▸ trivial) hsz
      · exact .wait hpc (hsized hsz) hf
    case got =>
      split_ifs at h with hsz hk h0 <;> cases h
      · exact .bus (hpc ▸ trivial) hsz
      · exact .beyond (.inr hpc) hk
      · exact .gotEnd hpc (hsized hsz) (Nat.not_le.mp hk) h0
      · exact .got hpc (hsized hsz) (Nat.not_le.mp hk) h0
    case unmap =>
      cases h
      exact .unmap hpc
    case remove =>
      cases h
      exact .remove hpc
    all_goals cases h
  · rcases hpc : (w.procs p).pc <;> simp only [hpc] at h <;> cases h
    · exact .fail (.inl hpc)
    · exact .fail (.inr (.inl hpc))
    · exact .fail (.inr (.inr hpc))
    · exact .removeFails hpc

/-- A System V segment has its size as soon as it can be had. -/
structure Sysv (w : World ι) : Prop where
  linked : w.linked = true → w.mem.sized = true
  proc : ∀ p, ((w.procs p).pc = .start ∨ (w.procs p).pc = .exited 1) ∨
    w.mem.sized = true ∧ (w.procs p).pc ≠ .killed

/-- A process goes on where there is memory. -/
theorem Sysv.goto (h : Sysv w) {p : Option ι} (hprocs : w'.procs = Function.update w.procs p q)
    (hsz : w.mem.sized = true → w'.mem.sized = true)
    (hl : w'.linked = true → w.linked = true ∨ w'.mem.sized = true)
    (hq : (q.pc = .start ∨ q.pc = .exited 1) ∨ w'.mem.sized = true ∧ q.pc ≠ .killed) : Sysv w' := by
  refine ⟨fun hlinked => (hl hlinked).elim (fun h' => hsz (h.linked h')) id, fun r => ?_⟩
  rw [hprocs]
  rcases eq_or_ne r p with rfl | hne
  · rwa [Function.update_self]
  · rw [Function.update_of_ne hne]
    exact (h.proc r).imp_right fun hr => ⟨hsz hr.1, hr.2⟩

theorem sysv_step {l : Label ι} (h : Sysv w) (hst : Step .sysv w l w') : Sysv w' := by
  have hsz : ∀ {p : Option ι} {pc : Pc}, (w.procs p).pc = pc → pc ≠ .start → pc ≠ .exited 1 →
      w.mem.sized = true := by
    rintro p pc rfl h1 h2
    exact ((h.proc p).resolve_left fun h3 => h3.elim h1 h2).1
  cases hst with
  | create => exact h.goto rfl (fun _ => rfl) (fun _ => .inr rfl) (.inr ⟨rfl, nofun⟩)
  | attach _ hl => exact h.goto rfl id .inl (.inr ⟨h.linked hl, nofun⟩)
  | truncate => exact h.goto rfl (fun _ => rfl) .inl (.inr ⟨rfl, nofun⟩)
  | @map p hpc => exact h.goto rfl id .inl (.inr ⟨hsz hpc nofun nofun, by cases p <;> nofun⟩)
  | fail => exact h.goto rfl id .inl (.inl (.inr rfl))
  | clear _ hs => exact h.goto rfl id .inl (.inr ⟨hs, nofun⟩)
  | @copy p k hpc hs =>
    refine h.goto rfl id .inl (.inr ⟨hs, ?_⟩)
    show (if k + 1 < TEXT_SIZE then Pc.copy (k + 1) else .terminate) ≠ .killed
    split_ifs <;> nofun
  | terminate _ hs => exact h.goto rfl id .inl (.inr ⟨hs, nofun⟩)
  | raise _ hs => exact h.goto rfl id .inl (.inr ⟨hs, nofun⟩)
  | sent _ hs => exact h.goto rfl id .inl (.inr ⟨hs, nofun⟩)
  | @sentEnd p _ _ hs => exact h.goto rfl id .inl (.inr ⟨hs, by cases p <;> nofun⟩)
  | wait _ hs => exact h.goto rfl id .inl (.inr ⟨hs, nofun⟩)
  | got _ hs => exact h.goto rfl id .inl (.inr ⟨hs, nofun⟩)
  | @gotEnd p _ _ hs => exact h.goto rfl id .inl (.inr ⟨hs, by cases p <;> nofun⟩)
  | beyond hpc =>
    refine h.goto rfl id .inl (.inr ⟨?_, nofun⟩)
    rcases hpc with hpc | hpc <;> exact hsz hpc nofun nofun
  | bus hacc hno =>
    have hs := hsz rfl (fun hpc => by rw [hpc] at hacc; exact hacc) fun hpc => by
      rw [hpc] at hacc; exact hacc
    exact nomatch hs.symm.trans hno
  | @unmap p hpc => exact h.goto rfl id .inl (.inr ⟨hsz hpc nofun nofun, by cases p <;> nofun⟩)
  | remove hpc =>
    exact h.goto rfl id (fun hl => nomatch hl) (.inr ⟨hsz hpc nofun nofun, nofun⟩)
  | removeFails hpc => exact h.goto rfl id .inl (.inr ⟨hsz hpc nofun nofun, nofun⟩)

/-- Only a POSIX client is killed by an access to a segment that has no memory yet. -/
theorem killed_posix (h : (lts api).Run tr w) {p : Option ι} (hp : (w.procs p).pc = .killed) :
    api = .posix ∧ p ≠ none := by
  refine ⟨?_, ?_⟩
  · cases api
    · rfl
    · have hs : Sysv w := h.inv (I := Sysv) (by
        rintro _ rfl
        exact ⟨nofun, fun _ => .inl (.inl rfl)⟩) fun _ _ _ hI hst => sysv_step hI hst
      rcases hs.proc p with (hpc | hpc) | ⟨-, hne⟩
      · exact nomatch hpc.symm.trans hp
      · exact nomatch hpc.symm.trans hp
      · exact absurd hp hne
  · rintro rfl
    exact serverAt_pc (inv_run h) hp

/-- However the bytes are interleaved, no line runs beyond the text, the server's answer is
`Hello!`, and what a client got is `Hi!` as long as no other client has begun its answer; a line
printed while another process stores its text has at every place a byte of one of the two. -/
theorem handshake_lines (h : (lts api).Run tr w) :
    (∀ p, (w.procs p).pc ≠ .beyond ∧ ((w.procs p).pc = .killed → api = .posix ∧ p ≠ none)) ∧
    (∀ t, (w.procs none).gotLine = some t → t = ascii "Hello!") ∧
    (∀ t, (w.procs none).sentLine = some t → Printed OneOf t) ∧
    (∀ i t, (w.procs (some i)).sentLine = some t → t = ascii "Hello!") ∧
    ∀ i t, (w.procs (some i)).gotLine = some t →
      Printed OneOf t ∧ (Alone w i → t = ascii "Hi!") := by
  have hI := inv_run h
  refine ⟨fun p => ⟨fun hp => ?_, killed_posix h⟩,
    fun t ht => hello_eq (hI.serverLines.got t ht), hI.serverLines.sent,
    fun i t ht => hello_eq ((hI.clientLines i).sent t ht), fun i t ht =>
      ⟨((hI.clientLines i).got t ht).1, fun ha => hi_eq (((hI.clientLines i).got t ht).2 ha)⟩⟩
  rcases p with _ | i
  · exact serverAt_pc hI hp
  · exact clientAt_pc hI hp

/-- The server up to its wait, a client up to its return, and the server again. -/
def handshakeLabels : List (Label Unit) :=
  List.replicate 73 (.step none) ++ List.replicate 81 (.step (some ())) ++
    List.replicate 10 (.step none)

def handshakeEnd : Option (World Unit) := exec (next .sysv) .start handshakeLabels

theorem handshakeEnd_isSome : handshakeEnd.isSome = true := by decide +kernel

theorem handshakeEnd_got : ((handshakeEnd.get handshakeEnd_isSome).procs (some ())).gotLine
    = some (ascii "Hi!") := by decide +kernel

theorem handshake_lines_one : ∃ tr w, (lts (ι := Unit) .sysv).Run tr w ∧
    (w.procs (some ())).gotLine = some (ascii "Hi!") ∧
    (∀ t, (w.procs none).gotLine = some t → t = ascii "Hello!") ∧
    Printed OneOf (ascii "Hi!") := by
  have hpath := exec_path (T := lts (ι := Unit) .sysv) (fun _ _ _ => next_step)
    (Option.some_get handshakeEnd_isSome).symm
  obtain ⟨-, hserver, -, -, hclient⟩ := handshake_lines ⟨_, rfl, hpath⟩
  exact ⟨_, _, ⟨_, rfl, hpath⟩, handshakeEnd_got, hserver, (hclient () _ handshakeEnd_got).1⟩

/-- What a process still has to do. -/
def rank : Option ι → Pc → ℕ
  | _, .exited _ | _, .beyond | _, .killed => 0
  | _, .remove => 1
  | _, .unmap => 2
  | none, .got k => 3 + (TEXT_SIZE - k)
  | none, .wait => 68
  | none, .sent k => 69 + (TEXT_SIZE - k)
  | none, .raise => 134
  | none, .terminate => 135
  | none, .copy k => 136 + (TEXT_SIZE - k)
  | some _, .sent k => 3 + (TEXT_SIZE - k)
  | some _, .raise => 68
  | some _, .terminate => 69
  | some _, .copy k => 70 + (TEXT_SIZE - k)
  | some _, .got k => 135 + (TEXT_SIZE - k)
  | some _, .wait => 200
  | _, .clear => 201
  | _, .map => 202
  | _, .truncate => 203
  | _, .start => 204

/-- A step moves one process on. -/
theorem rank_step {l : Label ι} (hst : Step api w l w') :
    ∃ p q, w'.procs = Function.update w.procs p q ∧ rank p q.pc < rank p (w.procs p).pc := by
  cases hst with
  | create hpc =>
    refine ⟨_, _, rfl, ?_⟩
    rw [hpc]
    show rank none (if api = .posix then .truncate else .map) < 204
    split_ifs <;> simp [rank]
  | attach hpc => exact ⟨_, _, rfl, by simp [hpc, rank]⟩
  | truncate hpc => exact ⟨_, _, rfl, by simp [hpc, rank]⟩
  | @map p hpc => exact ⟨_, _, rfl, by cases p <;> simp [hpc, rank, afterMap]⟩
  | @fail p hpc =>
    refine ⟨_, _, rfl, ?_⟩
    rcases hpc with hpc | hpc | hpc <;> simp [hpc, rank]
  | @clear p hpc => exact ⟨_, _, rfl, by cases p <;> simp [hpc, rank, TEXT_SIZE]⟩
  | @copy p k hpc =>
    refine ⟨_, _, rfl, ?_⟩
    rw [hpc]
    show rank p (if k + 1 < TEXT_SIZE then .copy (k + 1) else .terminate) < _
    split_ifs with hk
    · cases p <;> simp only [rank] <;> omega
    · cases p <;> simp only [rank] <;> omega
  | @terminate p hpc => exact ⟨_, _, rfl, by cases p <;> simp [hpc, rank]⟩
  | @raise p hpc => exact ⟨_, _, rfl, by cases p <;> simp [hpc, rank, TEXT_SIZE]⟩
  | @sent p k hpc _ hk =>
    refine ⟨_, _, rfl, ?_⟩
    rw [hpc]
    cases p <;> simp only [rank] <;> omega
  | @sentEnd p k hpc =>
    refine ⟨_, _, rfl, ?_⟩
    rw [hpc]
    cases p <;> simp only [rank, afterSent] <;> omega
  | @wait p hpc => exact ⟨_, _, rfl, by cases p <;> simp [hpc, rank, TEXT_SIZE]⟩
  | @got p k hpc _ hk =>
    refine ⟨_, _, rfl, ?_⟩
    rw [hpc]
    cases p <;> simp only [rank] <;> omega
  | @gotEnd p k hpc _ hk =>
    refine ⟨_, _, rfl, ?_⟩
    rw [hpc]
    cases p <;> simp only [rank, afterGot, TEXT_SIZE] <;> omega
  | @beyond p k hpc hk =>
    refine ⟨_, _, rfl, ?_⟩
    rcases hpc with hpc | hpc <;> rw [hpc] <;> cases p <;> simp only [rank] <;> omega
  | @bus p hacc =>
    refine ⟨_, _, rfl, ?_⟩
    show 0 < rank p (w.procs p).pc
    rcases hpc : (w.procs p).pc <;> rw [hpc] at hacc <;> cases p <;>
      first | exact hacc.elim | (simp only [rank]; omega)
  | @unmap p hpc => exact ⟨_, _, rfl, by cases p <;> simp [hpc, rank, afterUnmap]⟩
  | @remove p hpc => exact ⟨_, _, rfl, by simp [hpc, rank]⟩
  | @removeFails p hpc => exact ⟨_, _, rfl, by simp [hpc, rank]⟩

/-- A process that has the memory keeps it until it returns 0. -/
theorem attached_step {l : Label ι} (hst : Step api w l w') (hsz : w.mem.sized = true)
    (hbeyond : ∀ p, (w'.procs p).pc ≠ .beyond) {p : Option ι} (hp : (w.procs p).pc.Attached) :
    (w'.procs p).pc.Attached := by
  have key : ∀ {p' : Option ι} {q : Proc}, w'.procs = Function.update w.procs p' q →
      (p = p' → q.pc.Attached) → (w'.procs p).pc.Attached := by
    intro p' q hprocs hq
    rw [hprocs]
    rcases eq_or_ne p p' with rfl | hne
    · rw [Function.update_self]
      exact hq rfl
    · rwa [Function.update_of_ne hne]
  have hnot : ∀ {p' : Option ι} {pc : Pc}, (w.procs p').pc = pc → ¬ pc.Attached → p ≠ p' := by
    rintro p' pc rfl hpc rfl
    exact hpc hp
  cases hst with
  | create hpc => exact key rfl fun h => absurd h (hnot hpc id)
  | attach hpc => exact key rfl fun h => absurd h (hnot hpc id)
  | truncate hpc => exact key rfl fun h => absurd h (hnot hpc id)
  | map hpc => exact key rfl fun h => absurd h (hnot hpc id)
  | fail hpc =>
    refine key rfl fun h => absurd h ?_
    rcases hpc with hpc | hpc | hpc <;> exact hnot hpc id
  | clear => exact key rfl fun _ => trivial
  | @copy p' k =>
    refine key rfl fun _ => ?_
    show Pc.Attached (if k + 1 < TEXT_SIZE then .copy (k + 1) else .terminate)
    split_ifs <;> trivial
  | terminate => exact key rfl fun _ => trivial
  | raise => exact key rfl fun _ => trivial
  | sent => exact key rfl fun _ => trivial
  | @sentEnd p' => exact key rfl fun _ => by cases p' <;> trivial
  | wait => exact key rfl fun _ => trivial
  | got => exact key rfl fun _ => trivial
  | @gotEnd p' => exact key rfl fun _ => by cases p' <;> trivial
  | @beyond p' => exact absurd (by simp [World.goto, World.set]) (hbeyond p')
  | bus _ hno => exact nomatch hsz.symm.trans hno
  | @unmap p' => exact key rfl fun _ => by cases p' <;> trivial
  | remove => exact key rfl fun _ => trivial
  | removeFails => exact key rfl fun _ => trivial

/-- A process in the memory has a step, but for the wait. -/
theorem step_of_accesses (hsz : w.mem.sized = true) {p : Option ι} (hp : (w.procs p).pc.Accesses)
    (hwait : (w.procs p).pc = .wait → w.mem.flag = awaits p) : ∃ l w', Step api w l w' := by
  rcases hpc : (w.procs p).pc <;> rw [hpc] at hp <;> try exact hp.elim
  case clear => exact ⟨_, _, .clear hpc hsz⟩
  case copy k => exact ⟨_, _, .copy hpc hsz⟩
  case terminate => exact ⟨_, _, .terminate hpc hsz⟩
  case raise => exact ⟨_, _, .raise hpc hsz⟩
  case sent k =>
    rcases Nat.lt_or_ge k TEXT_SIZE with hk | hk
    · by_cases h0 : w.mem.text k = 0
      · exact ⟨_, _, .sentEnd hpc hsz hk h0⟩
      · exact ⟨_, _, .sent hpc hsz hk h0⟩
    · exact ⟨_, _, .beyond (.inl hpc) hk⟩
  case wait => exact ⟨_, _, .wait hpc hsz (hwait hpc)⟩
  case got k =>
    rcases Nat.lt_or_ge k TEXT_SIZE with hk | hk
    · by_cases h0 : w.mem.text k = 0
      · exact ⟨_, _, .gotEnd hpc hsz hk h0⟩
      · exact ⟨_, _, .got hpc hsz hk h0⟩
    · exact ⟨_, _, .beyond (.inr hpc) hk⟩

theorem attached_cases {pc : Pc} (h : pc.Attached) :
    pc.Accesses ∨ pc = .unmap ∨ pc = .remove ∨ pc = .exited 0 := by
  unfold Pc.Attached at h
  split at h <;> simp_all [Pc.Accesses]

/-- While the server has not returned, it or a client that has the memory goes on. -/
theorem step_of_attached (h : Inv w) (hs : (w.procs none).pc.Attached)
    (hne : (w.procs none).pc ≠ .exited 0) (hc : (w.procs (some i)).pc.Attached) :
    ∃ l w', Step api w l w' := by
  have hsz := h.server.sized hs
  rcases attached_cases hs with hacc | hpc | hpc | hpc
  · by_cases hwait : (w.procs none).pc = .wait → w.mem.flag = 2
    · exact step_of_accesses hsz hacc hwait
    · -- the server waits, and the flag is still its own
      obtain ⟨hpc, hflag⟩ := Classical.not_imp.mp hwait
      have hshared : Shared w.mem := serverAt_pc h hpc
      have hone : w.mem.flag = 1 := hshared.flag.resolve_right hflag
      rcases attached_cases hc with hacc' | hpc' | hpc' | hpc'
      · exact step_of_accesses hsz hacc' fun _ => hone
      · exact ⟨_, _, .unmap hpc'⟩
      · exact ⟨_, _, .remove hpc'⟩
      · exact absurd (show Shared w.mem ∧ w.mem.flag = 2 from clientAt_pc h hpc').2 hflag
  · exact ⟨_, _, .unmap hpc⟩
  · exact ⟨_, _, .remove hpc⟩
  · exact absurd hpc hne

/-- Once the server and a client have the memory, the server inevitably gets its answer and returns
0, whatever becomes of the other clients. -/
theorem handshake_ends [Fintype ι] (h : (lts api).Run tr w)
    (hs : (w.procs none).pc.Attached) (hc : (w.procs (some i)).pc.Attached) :
    (lts api).Inevitably (fun w => (w.procs none).pc = .exited 0 ∧
      (w.procs none).gotLine = some (ascii "Hello!")) w := by
  refine Inevitably.of_measure
    (I := fun w => Inv w ∧ (w.procs none).pc.Attached ∧ (w.procs (some i)).pc.Attached)
    (fun w => ∑ p, rank p (w.procs p).pc) ?_ ?_ ⟨inv_run h, hs, hc⟩
  · rintro w ⟨hI, hs, hc⟩ hno
    refine step_of_attached hI hs (fun hpc => hno ⟨hpc, ?_⟩) hc
    obtain ⟨t, ht⟩ := Option.isSome_iff_exists.mp
      (show Shared w.mem ∧ (w.procs none).gotLine.isSome from serverAt_pc hI hpc).2
    rw [ht, hello_eq (hI.serverLines.got t ht)]
  · rintro w l w' ⟨hI, hs, hc⟩ - hst
    have hI' : Inv w' := inv_step hI (show Step api w l w' from hst)
    have hbeyond : ∀ p, (w'.procs p).pc ≠ .beyond := by
      rintro (_ | j) hp
      · exact serverAt_pc hI' hp
      · exact clientAt_pc hI' hp
    have hsz := hI.server.sized hs
    refine .inr ⟨⟨hI', attached_step hst hsz hbeyond hs, attached_step hst hsz hbeyond hc⟩, ?_⟩
    obtain ⟨p, q, hprocs, hlt⟩ := rank_step hst
    refine Finset.sum_lt_sum (fun r _ => ?_) ⟨p, Finset.mem_univ p, ?_⟩
    · rw [hprocs]
      rcases eq_or_ne r p with rfl | hne
      · rw [Function.update_self]
        exact hlt.le
      · rw [Function.update_of_ne hne]
    · rw [hprocs, Function.update_self]
      exact hlt

def handshakeMid : Option (World Unit) := exec (next .posix) .start
  (List.replicate 74 (.step none) ++ List.replicate 3 (.step (some ())))

theorem handshakeMid_isSome : handshakeMid.isSome = true := by decide +kernel

theorem handshakeMid_pc : ((handshakeMid.get handshakeMid_isSome).procs none).pc = .wait ∧
    ((handshakeMid.get handshakeMid_isSome).procs (some ())).pc = .got 0 := by decide +kernel

theorem handshake_ends_mid : (lts (ι := Unit) .posix).Inevitably
    (fun w => (w.procs none).pc = .exited 0 ∧ (w.procs none).gotLine = some (ascii "Hello!"))
    (handshakeMid.get handshakeMid_isSome) := by
  have hpath := exec_path (T := lts (ι := Unit) .posix) (fun _ _ _ => next_step)
    (Option.some_get handshakeMid_isSome).symm
  exact handshake_ends (i := ()) ⟨_, rfl, hpath⟩ (by rw [handshakeMid_pc.1]; trivial)
    (by rw [handshakeMid_pc.2]; trivial)

end EltexSystems.Handshake
